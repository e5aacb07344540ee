import Ubl.Chipstore.Store

/-!
# `capability.rs`: capabilities for sensitive chips

A capability stands under `@cap` in the body of a chip.  It names an action, an audience, times and
an issuer, and is signed; the key it is checked with is the one in the DID of the issuer.
-/

namespace Ubl.Auth

open Utf8
open Ubl.Receipt (Key)

/-! ## Keys and signatures -/

/-- What `ubl_kms` takes from other crates. -/
structure KmsLib where
  text : Nrf.Text
  /-- `bs58::decode`. -/
  base58 : String → Except String (List UInt8)
  /-- `VerifyingKey::from_bytes`: the bytes are a point of the curve, or why not. -/
  point : Key → Except String Unit
  /-- Base64url without padding. -/
  base64 : String → Except String (List UInt8)
  /-- Ed25519: key, message, signature of 64 bytes. -/
  verify : Key → List UInt8 → List UInt8 → Bool

inductive KmsError where
  | badSignature (text : String)
  | nrf (text : String)
deriving DecidableEq

def KmsError.text : KmsError → String
  | .badSignature e => "invalid signature format: " ++ e
  | .nrf e => "NRF encoding failed: " ++ e

/-- `str::strip_prefix`. -/
def stripPrefix (pre s : String) : Option String :=
  if pre.toList.isPrefixOf s.toList then some (String.ofList (s.toList.drop pre.toList.length))
  else none

theorem stripPrefix_append (pre s : String) : stripPrefix pre (pre ++ s) = some s := by
  unfold stripPrefix
  rw [String.toList_append, if_pos (List.isPrefixOf_iff_prefix.mpr (List.prefix_append _ _)),
    List.drop_left, String.ofList_toList]

section Kms

variable (kms : KmsLib)

def keyFromBytes (bytes : List UInt8) : Except KmsError Key :=
  let key := Receipt.paddedKey bytes
  match kms.point key with
  | .error e => .error (.badSignature ("invalid ed25519 public key: " ++ e))
  | .ok () => .ok key

def verifyingKeyFromDidStrict (did : String) : Except KmsError Key :=
  match stripPrefix "did:key:z" did with
  | none => .error (.badSignature "did must start with 'did:key:z'")
  | some encoded =>
    match kms.base58 encoded with
    | .error e => .error (.badSignature ("invalid did:key base58: " ++ e))
    | .ok bytes =>
      if bytes.length ≠ 34 then
        .error (.badSignature
          ("strict did:key must decode to 34 bytes, got " ++ toString bytes.length))
      else if bytes.take 2 ≠ [0xed, 0x01] then
        .error (.badSignature "unsupported multicodec; expected ed25519-pub (0xED01)")
      else keyFromBytes kms (bytes.drop 2)

/-- The strict form, or else the bytes of the key alone. -/
def verifyingKeyFromDid (did : String) : Except KmsError Key :=
  match verifyingKeyFromDidStrict kms did with
  | .ok key => .ok key
  | .error _ =>
    match stripPrefix "did:key:z" did with
    | none => .error (.badSignature "did must start with 'did:key:z'")
    | some encoded =>
      match kms.base58 encoded with
      | .error e => .error (.badSignature ("invalid did:key base58: " ++ e))
      | .ok bytes =>
        if bytes.length ≠ 32 then
          .error (.badSignature
            ("did:key must decode to 32 bytes, got " ++ toString bytes.length))
        else keyFromBytes kms bytes

def verifyRaw (key : Key) (msg : List UInt8) (sig : String) : Except KmsError Bool :=
  match stripPrefix "ed25519:" sig with
  | none => .error (.badSignature "must start with 'ed25519:'")
  | some b64 =>
    match kms.base64 b64 with
    | .error e => .error (.badSignature e)
    | .ok bytes =>
      if bytes.length ≠ 64 then .error (.badSignature "signature error")
      else .ok (kms.verify key msg bytes)

/-- The message is the domain and then the canonical bytes of the value. -/
def verifyCanonical (key : Key) (value : Json) (domain sig : String) : Except KmsError Bool :=
  match Nrf.toNrf1Bytes kms.text value with
  | .error e => .error (.nrf e.text)
  | .ok nrf => verifyRaw kms key (utf8 domain ++ nrf) sig

end Kms

/-! ## Capabilities -/

structure Capability where
  action : String
  audience : String
  issuedBy : String
  issuedAt : String
  /-- Empty when it never expires. -/
  expiresAt : String
  signature : String
deriving DecidableEq

inductive CapError where
  | missing
  | malformed (msg : String)
  | wrongAction (required got : String)
  | wrongAudience (required got : String)
  | expired (expiresAt now : String)
  | invalidSignature (msg : String)
deriving DecidableEq

def CapError.text : CapError → String
  | .missing => "missing @cap: capability required"
  | .malformed msg => "malformed @cap: " ++ msg
  | .wrongAction required got =>
    "wrong capability action: required '" ++ required ++ "', got '" ++ got ++ "'"
  | .wrongAudience required got =>
    "wrong capability audience: required '" ++ required ++ "', got '" ++ got ++ "'"
  | .expired expiresAt now => "capability expired at " ++ expiresAt ++ " (now: " ++ now ++ ")"
  | .invalidSignature msg => "invalid capability signature: " ++ msg

/-- What validation takes from other crates and from the clock. -/
structure CapLib where
  kms : KmsLib
  /-- `DateTime::parse_from_rfc3339`, as an instant. -/
  rfc3339 : String → Except String Int
  /-- What `serde_json` says of a value that is no capability. -/
  serdeText : Json → String

/-- The clock at the time of a check. -/
structure Clock where
  now : Int
  /-- `now.to_rfc3339()`. -/
  text : String

/-- A member of type `String` that is empty where it is missing. -/
def defaultStr (value : Json) (field : String) : Option String :=
  match value.get field with
  | none => some ""
  | some v => v.asStr

/-- `serde_json::from_value::<Capability>`: an object, or an array of the fields in order. -/
def capabilityOf : Json → Option Capability
  | .object members => do
    let value := Json.object members
    let action ← Chipstore.strField value "action"
    let audience ← Chipstore.strField value "audience"
    let issuedBy ← Chipstore.strField value "issued_by"
    let issuedAt ← Chipstore.strField value "issued_at"
    let expiresAt ← defaultStr value "expires_at"
    let signature ← defaultStr value "signature"
    pure ⟨action, audience, issuedBy, issuedAt, expiresAt, signature⟩
  | .array items => do
    match ← items.mapM Json.asStr with
    | [action, audience, issuedBy, issuedAt] =>
      pure ⟨action, audience, issuedBy, issuedAt, "", ""⟩
    | [action, audience, issuedBy, issuedAt, expiresAt] =>
      pure ⟨action, audience, issuedBy, issuedAt, expiresAt, ""⟩
    | [action, audience, issuedBy, issuedAt, expiresAt, signature] =>
      pure ⟨action, audience, issuedBy, issuedAt, expiresAt, signature⟩
    | _ => none
  | _ => none

/-- The world is the audience, or lies below it. -/
def audienceMatchesWorld (audience world : String) : Bool :=
  world == audience ||
    match stripPrefix audience world with
    | some rest => rest.toList.head? == some '/'
    | none => false

def capSigningPayload (cap : Capability) : Json :=
  .object [("action", .string cap.action), ("audience", .string cap.audience),
    ("issued_by", .string cap.issuedBy), ("issued_at", .string cap.issuedAt),
    ("expires_at", .string cap.expiresAt)]

/-- `ubl_kms::domain::CAPABILITY`. -/
def CAPABILITY : String := "ubl-capability/v1"

section Validate

variable (lib : CapLib)

def extractCap (body : Json) : Except CapError Capability :=
  match body.get "@cap" with
  | none => .error .missing
  | some value =>
    match capabilityOf value with
    | none => .error (.malformed (lib.serdeText value))
    | some cap => .ok cap

variable (clock : Clock)

/-- The times of a capability: those that are there can be read, and it has not expired. -/
def validateTimes (cap : Capability) : Except CapError Unit :=
  match lib.rfc3339 cap.issuedAt with
  | .error e => .error (.malformed ("issued_at must be RFC-3339: " ++ e))
  | .ok issuedAt =>
    if cap.expiresAt = "" then .ok ()
    else
      match lib.rfc3339 cap.expiresAt with
      | .error e => .error (.malformed ("expires_at must be RFC-3339: " ++ e))
      | .ok expiresAt =>
        if expiresAt ≤ issuedAt then
          .error (.malformed "expires_at must be later than issued_at")
        else if expiresAt ≤ clock.now then .error (.expired cap.expiresAt clock.text)
        else .ok ()

def validateSignature (cap : Capability) : Except CapError Unit :=
  if cap.signature = "" then .error (.invalidSignature "signature is empty")
  else
    match verifyingKeyFromDid lib.kms cap.issuedBy with
    | .error e => .error (.invalidSignature e.text)
    | .ok key =>
      match verifyCanonical lib.kms key (capSigningPayload cap) CAPABILITY cap.signature with
      | .error e => .error (.invalidSignature e.text)
      | .ok false => .error (.invalidSignature "signature verification failed")
      | .ok true => .ok ()

def validateCap (cap : Capability) (requiredAction world : String) : Except CapError Unit :=
  if cap.action ≠ requiredAction then .error (.wrongAction requiredAction cap.action)
  else if ¬ audienceMatchesWorld cap.audience world then .error (.wrongAudience world cap.audience)
  else do
    validateTimes lib clock cap
    validateSignature lib cap

def requireCap (body : Json) (requiredAction world : String) : Except CapError Capability := do
  let cap ← extractCap lib body
  validateCap lib clock cap requiredAction world
  pure cap

end Validate

end Ubl.Auth
