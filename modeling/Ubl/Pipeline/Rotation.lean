import Ubl.Pipeline.Durable

/-!
# `key_rotation.rs`

The new signing key of a rotation is derived from the body of the chip under the seed of the
runtime, and the new stage secret from the new signing key.  A key is its seed; DIDs, key ids
and key CIDs are what `ubl_kms` makes of it.
-/

namespace Ubl.Pipeline

open Utf8 ExceptLemmas
open Ubl.Receipt (Crypto Key paddedKey cidOf)

/-- The names `ubl_kms` gives to the key of a seed. -/
structure Kms where
  did : Key → String
  kid : Key → String
  keyCid : Key → String

inductive KeyRotationError where
  | invalidType
  | missingField (field : String)
  | invalidField (text : String)
  | canon (text : String)
deriving DecidableEq

def KeyRotationError.text : KeyRotationError → String
  | .invalidType => "invalid chip type: expected ubl/key.rotate"
  | .missingField field => "missing field: " ++ field
  | .invalidField e => "invalid field: " ++ e
  | .canon e => "canon error: " ++ e

structure KeyRotateRequest where
  oldDid : String
  oldKid : String
  reason : Option String

structure KeyRotationMaterial where
  oldDid : String
  oldKid : String
  newDid : String
  newKid : String
  newKeyCid : String

/-- A member of the body that is a string. -/
def bodyStr (body : Json) (field : String) : Option String := (body.get field).bind Json.asStr

def requireStr (body : Json) (field : String) : Except KeyRotationError String :=
  match bodyStr body field with
  | none => .error (.missingField field)
  | some s => .ok s

def KeyRotateRequest.parse (body : Json) : Except KeyRotationError KeyRotateRequest :=
  if bodyStr body "@type" ≠ some "ubl/key.rotate" then .error .invalidType
  else do
    let oldDid ← requireStr body "old_did"
    if !"did:key:z".toList.isPrefixOf oldDid.toList then
      .error (.invalidField "old_did must be did:key:z...")
    else do
      let oldKid ← requireStr body "old_kid"
      if !oldDid.toList.isPrefixOf oldKid.toList || !oldKid.toList.contains '#' then
        .error (.invalidField "old_kid must match old_did and include fragment")
      else .ok ⟨oldDid, oldKid, bodyStr body "reason"⟩

theorem requireStr_eq_ok {body : Json} {field v : String} (h : requireStr body field = .ok v) :
    bodyStr body field = some v := by
  unfold requireStr at h
  split at h
  · cases h
  · next hv => exact Except.ok.inj h ▸ hv

/-- What a request has of its body. -/
theorem KeyRotateRequest.parse_eq_ok {body : Json} {req : KeyRotateRequest}
    (h : KeyRotateRequest.parse body = .ok req) :
    bodyStr body "@type" = some "ubl/key.rotate" ∧ bodyStr body "old_did" = some req.oldDid ∧
      bodyStr body "old_kid" = some req.oldKid := by
  unfold KeyRotateRequest.parse at h
  split_ifs at h with htype
  obtain ⟨oldDid, hdid, h⟩ := bind_eq_ok.mp h
  split_ifs at h
  obtain ⟨oldKid, hkid, h⟩ := bind_eq_ok.mp h
  split_ifs at h
  rw [← Except.ok.inj h]
  exact ⟨not_not.mp htype, requireStr_eq_ok hdid, requireStr_eq_ok hkid⟩

/-- The seed of the new signing key. -/
def deriveNewSigningKey (c : Crypto) (body : Json) (seed : Key) : Except KeyRotationError Key :=
  match cidOf c body with
  | .error e => .error (.canon e)
  | .ok chipCid => .ok (paddedKey (c.keyed seed (utf8 ("ubl/key.rotate/v1\x00" ++ chipCid))))

def deriveMaterial (c : Crypto) (kms : Kms) (req : KeyRotateRequest) (body : Json) (seed : Key) :
    Except KeyRotationError KeyRotationMaterial :=
  match cidOf c body with
  | .error e => .error (.canon e)
  | .ok chipCid =>
    let sk := paddedKey (c.keyed seed (utf8 ("ubl/key.rotate/v1\x00" ++ chipCid)))
    .ok ⟨req.oldDid, req.oldKid, kms.did sk, kms.kid sk, kms.keyCid sk⟩

/-- The material names the key of `derive_new_signing_key`. -/
theorem deriveMaterial_eq_ok {c : Crypto} {kms : Kms} {req : KeyRotateRequest} {body : Json}
    {seed : Key} {material : KeyRotationMaterial} :
    deriveMaterial c kms req body seed = .ok material ↔
      ∃ sk, deriveNewSigningKey c body seed = .ok sk ∧
        ⟨req.oldDid, req.oldKid, kms.did sk, kms.kid sk, kms.keyCid sk⟩ = material := by
  unfold deriveMaterial deriveNewSigningKey
  cases cidOf c body with
  | error e => simp
  | ok chipCid => simp

theorem deriveMaterial_old {c : Crypto} {kms : Kms} {req : KeyRotateRequest} {body : Json}
    {seed : Key} {material : KeyRotationMaterial}
    (h : deriveMaterial c kms req body seed = .ok material) :
    material.oldDid = req.oldDid ∧ material.oldKid = req.oldKid := by
  obtain ⟨_, -, rfl⟩ := deriveMaterial_eq_ok.mp h
  exact ⟨rfl, rfl⟩

/-- The text a stage secret is derived from a signing key with, as it stands in the
configuration. -/
def deriveStageSecret (c : Crypto) (signingKey : Key) : String :=
  "hex:" ++ Hex.encode (c.keyed signingKey (utf8 "ubl.stage_secret.v1"))

def mappingChip (c : Crypto) (now world rotationChipCid rotationReceiptCid : String)
    (reason : Option String) (material : KeyRotationMaterial) : Json :=
  let mapId := "keymap-" ++ Hex.encode (c.blake3
    (utf8 (material.oldKid ++ "|" ++ material.newKid ++ "|" ++ rotationChipCid)))
  .object [("@type", .string "ubl/key.map"), ("@id", .string mapId), ("@ver", .string "1.0"),
    ("@world", .string world), ("old_did", .string material.oldDid),
    ("old_kid", .string material.oldKid), ("new_did", .string material.newDid),
    ("new_kid", .string material.newKid), ("new_key_cid", .string material.newKeyCid),
    ("rotation_chip_cid", .string rotationChipCid),
    ("rotation_receipt_cid", .string rotationReceiptCid),
    ("reason", .string (reason.getD "unspecified")), ("algorithm", .string "Ed25519"),
    ("created_at", .string now)]

end Ubl.Pipeline
