import Ubl.Auth.Audience

/-!
# Who issues a capability

The key that a capability is checked with stands in the capability, as the DID of its issuer.  No
list of issuers is looked at, neither in the configuration nor in the store.  So what a signature
shows is that the issuer is who the capability says, not that the issuer may grant anything
(`requireCap_issuer`): who makes a key can grant themselves every action in every world
(`requireCap_own`).
-/

namespace Ubl.Auth

open Chipstore ExceptLemmas Utf8
open Ubl.Receipt (Key paddedKey)

/-- What the issuer of a capability signs. -/
def SignsCap (kms : KmsLib) (cap : Capability) (msg : List UInt8) : Prop :=
  ∃ nrf, Nrf.toNrf1Bytes kms.text (capSigningPayload cap) = .ok nrf ∧ msg = utf8 CAPABILITY ++ nrf

/-- A party with keys of its own among the holders of other keys.  The signatures it comes by are
those of its own keys and those that the holders made. -/
structure Party (kms : KmsLib) where
  own : Set Key
  signatures : Set String
  /-- What the holder of a key has signed. -/
  signed : Key → Set (List UInt8)
  unforgeable : ∀ key msg sig, sig ∈ signatures → verifyRaw kms key msg sig = .ok true →
    key ∈ own ∨ msg ∈ signed key

section Party

variable {kms : KmsLib} (party : Party kms)

/-- A body whose capability bears a signature that the party comes by. -/
def Party.Writes (body : Json) : Prop :=
  ∀ value cap, body.get "@cap" = some value → capabilityOf value = some cap →
    cap.signature ∈ party.signatures

/-- No DID of the party's keys is the one of the runtime or stands in a chip. -/
def Party.Stranger (chips : ChipStore) (runtimeDid : String) : Prop :=
  ∀ did key, verifyingKeyFromDid kms did = .ok key → key ∈ party.own →
    did ≠ runtimeDid ∧ ∀ put ∈ chips, put.chip.chipData.Everywhere (· ≠ .string did)

end Party

/-! ## Accepted capabilities -/

section Accepted

variable {lib : CapLib} {clock : Clock} {body : Json} {action world : String} {cap : Capability}

theorem extractCap_eq_ok : extractCap lib body = .ok cap ↔
    ∃ value, body.get "@cap" = some value ∧ capabilityOf value = some cap := by
  unfold extractCap
  cases body.get "@cap" with
  | none => simp
  | some value => cases h : capabilityOf value <;> simp [h]

theorem requireCap_eq_ok : requireCap lib clock body action world = .ok cap ↔
    extractCap lib body = .ok cap ∧ validateCap lib clock cap action world = .ok () := by
  unfold requireCap
  constructor
  · intro h
    obtain ⟨found, hfound, h⟩ := bind_eq_ok.mp h
    obtain ⟨_, hvalid, h⟩ := bind_eq_ok.mp h
    obtain rfl := Except.ok.inj h
    exact ⟨hfound, hvalid⟩
  · rintro ⟨hfound, hvalid⟩
    rw [hfound, bind_ok, hvalid]
    rfl

theorem validateCap_eq_ok : validateCap lib clock cap action world = .ok () ↔
    cap.action = action ∧ audienceMatchesWorld cap.audience world = true ∧
      validateTimes lib clock cap = .ok () ∧ validateSignature lib cap = .ok () := by
  unfold validateCap
  split_ifs with haction haudience
  · simp [haction]
  · rw [bind_eq_ok]
    constructor
    · rintro ⟨_, htimes, hsignature⟩
      exact ⟨not_not.mp haction, haudience, htimes, hsignature⟩
    · rintro ⟨-, -, htimes, hsignature⟩
      exact ⟨(), htimes, hsignature⟩
  · simp [haudience]

theorem validateSignature_eq_ok : validateSignature lib cap = .ok () ↔
    cap.signature ≠ "" ∧ ∃ key msg, verifyingKeyFromDid lib.kms cap.issuedBy = .ok key ∧
      SignsCap lib.kms cap msg ∧ verifyRaw lib.kms key msg cap.signature = .ok true := by
  unfold validateSignature
  split_ifs with hempty
  · simp [hempty]
  · cases hkey : verifyingKeyFromDid lib.kms cap.issuedBy with
    | error e => simp
    | ok key =>
      simp only [verifyCanonical, SignsCap]
      cases hnrf : Nrf.toNrf1Bytes lib.kms.text (capSigningPayload cap) with
      | error e => simp
      | ok nrf =>
        dsimp only
        rcases hverify : verifyRaw lib.kms key (utf8 CAPABILITY ++ nrf) cap.signature with e | _ | _
        all_goals simp [hempty, hverify]

end Accepted

/-- Whatever the store holds: a capability that the party gets accepted is issued by one of its
own keys, or the holder of the issuer's key has signed it. -/
theorem requireCap_issuer (lib : CapLib) (clock : Clock) (party : Party lib.kms)
    {body : Json} {action world : String} {cap : Capability} (hwrites : party.Writes body)
    (haccepted : requireCap lib clock body action world = .ok cap) :
    ∃ key msg, verifyingKeyFromDid lib.kms cap.issuedBy = .ok key ∧ SignsCap lib.kms cap msg ∧
      (key ∈ party.own ∨ msg ∈ party.signed key) := by
  obtain ⟨hfound, hvalid⟩ := requireCap_eq_ok.mp haccepted
  obtain ⟨value, hvalue, hcap⟩ := extractCap_eq_ok.mp hfound
  obtain ⟨-, -, -, hsignature⟩ := validateCap_eq_ok.mp hvalid
  obtain ⟨-, key, msg, hkey, hmsg, hverify⟩ := validateSignature_eq_ok.mp hsignature
  exact ⟨key, msg, hkey, hmsg, party.unforgeable key msg _ (hwrites value cap hvalue hcap) hverify⟩

/-- Who has a key can grant themselves everything. -/
theorem requireCap_own {lib : CapLib} (clock : Clock) (party : Party lib.kms) {did : String}
    {key : Key} {sign : List UInt8 → String} (hdid : verifyingKeyFromDid lib.kms did = .ok key)
    (hsign : ∀ msg, sign msg ∈ party.signatures ∧ verifyRaw lib.kms key msg (sign msg) = .ok true)
    {action world issuedAt : String} {t : Int} {nrf : List UInt8}
    (htime : lib.rfc3339 issuedAt = .ok t)
    (hnrf : Nrf.toNrf1Bytes lib.kms.text
      (capSigningPayload ⟨action, world, did, issuedAt, "", ""⟩) = .ok nrf) :
    ∃ body cap, party.Writes body ∧ requireCap lib clock body action world = .ok cap := by
  let msg := utf8 CAPABILITY ++ nrf
  let cap : Capability := ⟨action, world, did, issuedAt, "", sign msg⟩
  let value := Json.object [("action", .string action), ("audience", .string world),
    ("issued_by", .string did), ("issued_at", .string issuedAt), ("signature", .string (sign msg))]
  have hcap : capabilityOf value = some cap := rfl
  refine ⟨.object [("@cap", value)], cap, ?_, ?_⟩
  · intro found cap' hfound hcap'
    obtain rfl : value = found := Option.some.inj hfound
    obtain rfl := Option.some.inj (hcap.symm.trans hcap')
    exact (hsign msg).1
  · refine requireCap_eq_ok.mpr ⟨extractCap_eq_ok.mpr ⟨value, rfl, hcap⟩, ?_⟩
    refine validateCap_eq_ok.mpr ⟨rfl, by simp [audienceMatchesWorld, cap], ?_, ?_⟩
    · simp [validateTimes, cap, htime]
    · refine validateSignature_eq_ok.mpr ⟨fun hempty => ?_, key, msg, hdid, ⟨nrf, hnrf, rfl⟩,
        (hsign msg).2⟩
      have hverify := (hsign msg).2
      rw [show sign msg = "" from hempty] at hverify
      cases hverify

/-! ## A key of one's own -/

theorem encoded_of_verifyingKeyFromDid {kms : KmsLib} {did : String} {key : Key}
    (h : verifyingKeyFromDid kms did = .ok key) :
    ∃ encoded bytes, stripPrefix "did:key:z" did = some encoded ∧ kms.base58 encoded = .ok bytes := by
  unfold verifyingKeyFromDid at h
  cases hencoded : stripPrefix "did:key:z" did with
  | none => simp [verifyingKeyFromDidStrict, hencoded] at h
  | some encoded =>
    cases hbytes : kms.base58 encoded with
    | error e => simp [verifyingKeyFromDidStrict, hencoded, hbytes] at h
    | ok bytes => exact ⟨encoded, bytes, rfl, hbytes⟩

def ownKey : Key := paddedKey (List.replicate 32 1)

/-- The only key is `ownKey`, and its signatures are not looked at. -/
def ownLib : CapLib where
  kms :=
    { text := Nrf.asciiText
      base58 := fun s => if s = "Own" then .ok (List.replicate 32 1) else .error ""
      point := fun _ => .ok ()
      base64 := fun _ => .ok (List.replicate 64 2)
      verify := fun key _ _ => decide (key = ownKey) }
  rfc3339 := fun _ => .ok 0
  serdeText := fun _ => ""

theorem verifyRaw_ownLib {key : Key} {msg : List UInt8} {sig : String}
    (h : verifyRaw ownLib.kms key msg sig = .ok true) : key = ownKey := by
  unfold verifyRaw at h
  split at h
  · cases h
  · have hverify : decide (key = ownKey) = true := Except.ok.inj h
    exact of_decide_eq_true hverify

def ownParty : Party ownLib.kms where
  own := {ownKey}
  signatures := Set.univ
  signed _ := ∅
  unforgeable _ _ _ _ h := .inl (verifyRaw_ownLib h)

theorem did_of_ownLib {did : String} {key : Key}
    (h : verifyingKeyFromDid ownLib.kms did = .ok key) : did = "did:key:zOwn" := by
  obtain ⟨encoded, bytes, hencoded, hbytes⟩ := encoded_of_verifyingKeyFromDid h
  have hown : encoded = "Own" := by
    by_contra hne
    simp [ownLib, hne] at hbytes
  subst hown
  exact String.toList_inj.mp (stripPrefix_eq_some.mp hencoded)

def ownClock : Clock := ⟨0, "1970-01-01T00:00:00+00:00"⟩

def ownBody : Json :=
  .object [("@cap", .object [("action", .string "registry:init"), ("audience", .string "a/acme"),
    ("issued_by", .string "did:key:zOwn"), ("issued_at", .string "2025-01-01T00:00:00Z"),
    ("signature", .string "ed25519:00")])]

def ownCap : Capability :=
  ⟨"registry:init", "a/acme", "did:key:zOwn", "2025-01-01T00:00:00Z", "", "ed25519:00"⟩

theorem writes_ownBody : ownParty.Writes ownBody := fun _ _ _ _ => Set.mem_univ _

theorem requireCap_ownBody :
    requireCap ownLib ownClock ownBody "registry:init" "a/acme" = .ok ownCap := by
  decide +kernel

theorem requireCap_issuer_own : ∃ key msg, verifyingKeyFromDid ownLib.kms "did:key:zOwn" = .ok key ∧
    SignsCap ownLib.kms ownCap msg ∧ (key ∈ ownParty.own ∨ msg ∈ ownParty.signed key) :=
  requireCap_issuer ownLib ownClock ownParty writes_ownBody requireCap_ownBody

/-- A party nobody knows gets a capability accepted. -/
theorem stranger_accepted : ownParty.Stranger [] "did:key:zRuntime" ∧ ownParty.Writes ownBody ∧
    requireCap ownLib ownClock ownBody "registry:init" "a/acme" = .ok ownCap := by
  refine ⟨fun did key hdid _ => ⟨?_, by simp⟩, writes_ownBody, requireCap_ownBody⟩
  rw [did_of_ownLib hdid]
  decide

end Ubl.Auth
