import Ubl.Lib.Base58
import Ubl.Pipeline.Uniqueness
import Ubl.Receipt.HostedText

/-!
# The names of keys in a rotation

A key mapping takes a DID and a key id on the old side to a DID and a key id on the new side.  The
new side is derived from one key, which both of its names denote.  The old side is taken over from
the body, where `parse` only asks that the key id starts with the DID and has a fragment somewhere:
the key id of a longer DID passes (`mapsKeys_iff`).
-/

namespace Ubl.Pipeline

open Ubl.Auth (KmsLib keyFromBytes verifyingKeyFromDid verifyingKeyFromDidStrict
  stripPrefix_append)
open Ubl.Receipt (Crypto Key paddedKey paddedKey_toList cidOf eqIgnoreAsciiCase splitOnce
  splitOnce_eq_some_iff)

/-! ## Names -/

/-- What `ubl_kms` names keys with: base 58, and Ed25519, whose verifying keys are points of the
curve. -/
structure KeyLib where
  kms : KmsLib
  /-- `bs58::encode`. -/
  encode58 : List UInt8 → String
  /-- `SigningKey::verifying_key`. -/
  verifyingKey : Key → Key
  /-- `UBL_DIDKEY_FORMAT`. -/
  didkeyFormat : Option String
  base58_encode58 : ∀ bytes, kms.base58 (encode58 bytes) = .ok bytes
  encode58_mark : ∀ bytes, '#' ∉ (encode58 bytes).toList
  point_verifyingKey : ∀ sk, kms.point (verifyingKey sk) = .ok ()

def ED25519_PUB_MULTICODEC : List UInt8 := [0xed, 0x01]

section Names

variable (lib : KeyLib)

def didFromVerifyingKeyStrict (vk : Key) : String :=
  "did:key:z" ++ lib.encode58 (ED25519_PUB_MULTICODEC ++ vk.toList)

def didFromVerifyingKey (vk : Key) : String :=
  if (lib.didkeyFormat.map fun v => eqIgnoreAsciiCase v "strict").getD false then
    didFromVerifyingKeyStrict lib vk
  else "did:key:z" ++ lib.encode58 vk.toList

def kidFromVerifyingKey (vk : Key) : String := didFromVerifyingKey lib vk ++ "#ed25519"

/-- `key_cid`. -/
def keyCidOf (c : Crypto) (vk : Key) : String := "b3:" ++ Hex.encode (c.blake3 vk.toList)

/-- The names of the key of a seed. -/
def KeyLib.names (c : Crypto) : Kms where
  did sk := didFromVerifyingKey lib (lib.verifyingKey sk)
  kid sk := kidFromVerifyingKey lib (lib.verifyingKey sk)
  keyCid sk := keyCidOf c (lib.verifyingKey sk)

/-- The part of a key id before `#`. -/
def didOfKid (kid : String) : Option String := (splitOnce '#' kid).map Prod.fst

def DidDenotes (did : String) (vk : Key) : Prop := verifyingKeyFromDid lib.kms did = .ok vk

def KidDenotes (kid : String) (vk : Key) : Prop :=
  ∃ did, didOfKid kid = some did ∧ DidDenotes lib did vk

/-- Two members of a chip name one DID: a DID and a key id of it. -/
def NamesOneDid (chip : Json) (didField kidField : String) : Prop :=
  ∃ did kid, bodyStr chip didField = some did ∧ bodyStr chip kidField = some kid ∧
    didOfKid kid = some did

/-- A key mapping for a body and a seed names one DID on each side, on the new side the one of the
derived key. -/
structure MapsKeys (c : Crypto) (body : Json) (seed : Key) (chip : Json) : Prop where
  old : NamesOneDid chip "old_did" "old_kid"
  new : NamesOneDid chip "new_did" "new_kid"
  key : ∃ sk did kid, deriveNewSigningKey c body seed = .ok sk ∧ bodyStr chip "new_did" = some did ∧
    bodyStr chip "new_kid" = some kid ∧ DidDenotes lib did (lib.verifyingKey sk) ∧
    KidDenotes lib kid (lib.verifyingKey sk)

end Names

/-- The key id of a body is its DID, in which no `#` stands, and then `#`. -/
def KidExtends (body : Json) : Prop :=
  ∃ did kid, bodyStr body "old_did" = some did ∧ bodyStr body "old_kid" = some kid ∧
    '#' ∉ did.toList ∧ did.toList ++ ['#'] <+: kid.toList

theorem didOfKid_eq_some_iff {did kid : String} :
    didOfKid kid = some did ↔ '#' ∉ did.toList ∧ did.toList ++ ['#'] <+: kid.toList := by
  constructor
  · intro h
    obtain ⟨⟨before, after⟩, hsplit, rfl⟩ := Option.map_eq_some_iff.mp h
    obtain ⟨hkid, hmark⟩ := splitOnce_eq_some_iff.mp hsplit
    exact ⟨hmark, after.toList, by rw [hkid]; simp⟩
  · rintro ⟨hmark, after, hkid⟩
    have hsplit : splitOnce '#' kid = some (did, String.ofList after) :=
      splitOnce_eq_some_iff.mpr ⟨by rw [← hkid]; simp, hmark⟩
    rw [didOfKid, hsplit]
    rfl

/-! ## The new side -/

section NewSide

variable {lib : KeyLib} {vk : Key}

theorem keyFromBytes_toList {kms : KmsLib} (h : kms.point vk = .ok ()) :
    keyFromBytes kms vk.toList = .ok vk := by
  simp only [keyFromBytes, paddedKey_toList, h]

theorem didDenotes_strict (h : lib.kms.point vk = .ok ()) :
    DidDenotes lib (didFromVerifyingKeyStrict lib vk) vk := by
  have hstrict : verifyingKeyFromDidStrict lib.kms (didFromVerifyingKeyStrict lib vk) = .ok vk := by
    have hlen : (ED25519_PUB_MULTICODEC ++ vk.toList).length = 34 := by
      simp [ED25519_PUB_MULTICODEC]
    simp only [verifyingKeyFromDidStrict, didFromVerifyingKeyStrict, stripPrefix_append,
      lib.base58_encode58, hlen]
    exact keyFromBytes_toList h
  simp only [DidDenotes, verifyingKeyFromDid, hstrict]

/-- The bytes of a key alone are too short for the strict form. -/
theorem didDenotes_raw (h : lib.kms.point vk = .ok ()) :
    DidDenotes lib ("did:key:z" ++ lib.encode58 vk.toList) vk := by
  have hlen : vk.toList.length = 32 := Vector.length_toList
  simp only [DidDenotes, verifyingKeyFromDid, verifyingKeyFromDidStrict, stripPrefix_append,
    lib.base58_encode58, hlen]
  exact keyFromBytes_toList h

theorem didDenotes_didFromVerifyingKey (h : lib.kms.point vk = .ok ()) :
    DidDenotes lib (didFromVerifyingKey lib vk) vk := by
  unfold didFromVerifyingKey
  split
  · exact didDenotes_strict h
  · exact didDenotes_raw h

theorem mark_didFromVerifyingKey : '#' ∉ (didFromVerifyingKey lib vk).toList := by
  have hmark (bytes : List UInt8) : '#' ∉ ("did:key:z" ++ lib.encode58 bytes).toList := by
    rw [String.toList_append, List.mem_append, not_or]
    exact ⟨by decide, lib.encode58_mark bytes⟩
  unfold didFromVerifyingKey
  split <;> exact hmark _

theorem didOfKid_kidFromVerifyingKey :
    didOfKid (kidFromVerifyingKey lib vk) = some (didFromVerifyingKey lib vk) := by
  refine didOfKid_eq_some_iff.mpr ⟨mark_didFromVerifyingKey, "ed25519".toList, ?_⟩
  simp [kidFromVerifyingKey]

end NewSide

/-! ## The mapping -/

section Mapping

variable {lib : KeyLib} {c : Crypto} {body : Json} {seed : Key} {req : KeyRotateRequest}
  {material : KeyRotationMaterial} {now world rotationChipCid rotationReceiptCid : String}

theorem namesOneDid_old {reason : Option String} :
    NamesOneDid (mappingChip c now world rotationChipCid rotationReceiptCid reason material)
        "old_did" "old_kid" ↔
      '#' ∉ material.oldDid.toList ∧ material.oldDid.toList ++ ['#'] <+: material.oldKid.toList := by
  rw [← didOfKid_eq_some_iff]
  constructor
  · rintro ⟨did, kid, hdid, hkid, hold⟩
    obtain rfl := Option.some.inj hdid
    obtain rfl := Option.some.inj hkid
    exact hold
  · intro hold
    exact ⟨_, _, rfl, rfl, hold⟩

/-- The new side always names one DID, the old side when the key id of the body is its DID and
then `#`. -/
theorem mapsKeys_iff (hparse : KeyRotateRequest.parse body = .ok req)
    (hmaterial : deriveMaterial c (lib.names c) req body seed = .ok material) :
    MapsKeys lib c body seed
        (mappingChip c now world rotationChipCid rotationReceiptCid req.reason material) ↔
      KidExtends body := by
  obtain ⟨-, hdid, hkid⟩ := KeyRotateRequest.parse_eq_ok hparse
  constructor
  · intro h
    have hold := namesOneDid_old.mp h.old
    rw [(deriveMaterial_old hmaterial).1, (deriveMaterial_old hmaterial).2] at hold
    exact ⟨_, _, hdid, hkid, hold⟩
  · rintro ⟨did, kid, hbodyDid, hbodyKid, hextends⟩
    obtain rfl := Option.some.inj (hdid.symm.trans hbodyDid)
    obtain rfl := Option.some.inj (hkid.symm.trans hbodyKid)
    obtain ⟨sk, hsk, rfl⟩ := deriveMaterial_eq_ok.mp hmaterial
    have hdenotes := didDenotes_didFromVerifyingKey (lib.point_verifyingKey sk)
    exact
      { old := namesOneDid_old.mpr hextends
        new := ⟨_, _, rfl, rfl, didOfKid_kidFromVerifyingKey⟩
        key := ⟨sk, _, _, hsk, rfl, rfl, hdenotes, _, didOfKid_kidFromVerifyingKey, hdenotes⟩ }

end Mapping

section Samples

open Auth (reading)
open Receipt.Evolution (sampleCrypto)
open Uniqueness (checkKeyRotate sampleRegistry sampleClock)

def sampleDidKms : KmsLib :=
  { Receipt.sampleKms with
    base58 := fun s =>
      (Base58.decode s).elim (.error "provided string contained invalid character") .ok }

theorem base58_sampleDidKms (bytes : List UInt8) :
    sampleDidKms.base58 (Base58.encode bytes) = .ok bytes := by
  show (Base58.decode (Base58.encode bytes)).elim _ _ = _
  rw [Base58.decode_encode, Option.elim_some]

theorem mark_encode (bytes : List UInt8) : '#' ∉ (Base58.encode bytes).toList := by
  intro hmark
  exact absurd (Base58.mem_encode hmark) (by decide)

theorem point_sampleDidKms (vk : Key) : sampleDidKms.point vk = .ok () := rfl

/-- The bytes of a seed stand for its verifying key. -/
def sampleKeyLib : KeyLib where
  kms := sampleDidKms
  encode58 := Base58.encode
  verifyingKey := id
  didkeyFormat := none
  base58_encode58 := base58_sampleDidKms
  encode58_mark := mark_encode
  point_verifyingKey := point_sampleDidKms

def rotateBody (oldDid oldKid : String) : Json :=
  .object [("@type", .string "ubl/key.rotate"), ("@id", .string "rot-1"), ("@ver", .string "1.0"),
    ("@world", .string "a/acme/t/prod"), ("old_did", .string oldDid), ("old_kid", .string oldKid),
    ("reason", .string "routine"),
    ("@cap", .object [("action", .string "key:rotate"), ("audience", .string "a/acme/t/prod"),
      ("issued_by", .string "did:key:z1"), ("issued_at", .string "2025-01-01T00:00:00Z"),
      ("signature", .string "ed25519:00")])]

def rotateRequest (oldDid oldKid : String) : ParsedChipRequest :=
  ⟨⟨"ubl/key.rotate", rotateBody oldDid oldKid, [], none⟩, "ubl/key.rotate", some "rot-1",
    "a/acme/t/prod"⟩

def sampleSeed : Key := paddedKey [7]

theorem deriveMaterial_rotateBody (req : KeyRotateRequest) (oldDid oldKid : String)
    (h : (cidOf sampleCrypto (rotateBody oldDid oldKid)).isOk = true) :
    ∃ material, deriveMaterial sampleCrypto (sampleKeyLib.names sampleCrypto) req
      (rotateBody oldDid oldKid) sampleSeed = .ok material := by
  unfold deriveMaterial
  cases hcid : cidOf sampleCrypto (rotateBody oldDid oldKid) with
  | error e =>
    rw [hcid] at h
    cases h
  | ok chipCid => exact ⟨_, rfl⟩

theorem mapsKeys_oldDid : ∃ material,
    deriveMaterial sampleCrypto (sampleKeyLib.names sampleCrypto)
        ⟨"did:key:zOldDid", "did:key:zOldDid#ed25519", some "routine"⟩
        (rotateBody "did:key:zOldDid" "did:key:zOldDid#ed25519") sampleSeed = .ok material ∧
      MapsKeys sampleKeyLib sampleCrypto (rotateBody "did:key:zOldDid" "did:key:zOldDid#ed25519")
        sampleSeed (mappingChip sampleCrypto "2025-01-01T00:00:00+00:00" "a/acme/t/prod" "b3:01"
          "b3:02" (some "routine") material) := by
  obtain ⟨material, hmaterial⟩ := deriveMaterial_rotateBody
    ⟨"did:key:zOldDid", "did:key:zOldDid#ed25519", some "routine"⟩ "did:key:zOldDid"
    "did:key:zOldDid#ed25519" (by decide +kernel)
  exact ⟨material, hmaterial, (mapsKeys_iff rfl hmaterial).mpr
    ⟨_, _, rfl, rfl, by decide, by decide⟩⟩

/-- CHECK lets a key id of `did:key:zABCDEF` through as one of `did:key:zABC`. -/
theorem not_mapsKeys_longerDid :
    checkKeyRotate sampleRegistry sampleClock (reading [])
        (rotateRequest "did:key:zABC" "did:key:zABCDEF#ed25519") = .ok () ∧
      KeyRotateRequest.parse (rotateBody "did:key:zABC" "did:key:zABCDEF#ed25519") =
        .ok ⟨"did:key:zABC", "did:key:zABCDEF#ed25519", some "routine"⟩ ∧
      ∃ material, deriveMaterial sampleCrypto (sampleKeyLib.names sampleCrypto)
          ⟨"did:key:zABC", "did:key:zABCDEF#ed25519", some "routine"⟩
          (rotateBody "did:key:zABC" "did:key:zABCDEF#ed25519") sampleSeed = .ok material ∧
        ¬ MapsKeys sampleKeyLib sampleCrypto (rotateBody "did:key:zABC" "did:key:zABCDEF#ed25519")
          sampleSeed (mappingChip sampleCrypto "2025-01-01T00:00:00+00:00" "a/acme/t/prod" "b3:01"
            "b3:02" (some "routine") material) := by
  obtain ⟨material, hmaterial⟩ := deriveMaterial_rotateBody
    ⟨"did:key:zABC", "did:key:zABCDEF#ed25519", some "routine"⟩ "did:key:zABC"
    "did:key:zABCDEF#ed25519" (by decide +kernel)
  refine ⟨by decide +kernel, rfl, material, hmaterial, fun h => ?_⟩
  have hold := (namesOneDid_old.mp h.old).2
  rw [(deriveMaterial_old hmaterial).1, (deriveMaterial_old hmaterial).2] at hold
  -- `#` does not follow the shorter DID in the key id of the longer one
  exact absurd hold (by decide)

end Samples

end Ubl.Pipeline
