import Ubl.Auth.Issuers
import Ubl.Lib.Tagged
import Ubl.Receipt.RichUrl
import Ubl.Vm.Exec

/-!
# One key, several purposes

The key of a runtime signs receipts, the receipts of its machine and attestations of the runtime;
keys of other parties sign capabilities, adapters and links, and nothing keeps these from being the
same key.  What is signed is the domain of the purpose and then the bytes, or in the newer mode the
hash of both.  A holder that signs nothing else

    never has a signature accepted for a purpose and bytes that it was not asked to sign
                                                                        (accepted_as_signed)

as long as no configured domain is the beginning of another.
-/

namespace Ubl.Receipt

open Utf8 AssocMap ExceptLemmas Tagged
open Ubl.Auth (KmsLib KmsError Capability CapLib CAPABILITY capSigningPayload validateSignature
  verifyingKeyFromDid verifyRaw)
open Ubl.Nrf (toNrf1Bytes memberLength)
open Ubl.Vm (VmEnv VmConfig Machine rcPayload rho rhoMembers lookup_rhoMembers)

/-! ## Signing and verifying -/

/-- The domains that the environment can set. -/
structure SignDomains where
  receipt : String
  attestation : String

def SignDomains.fromEnv (var : String → Option String) : SignDomains where
  receipt := (var "UBL_SIGN_DOMAIN_RECEIPT").getD "ubl/receipt/v1"
  attestation := (var "UBL_SIGN_DOMAIN_RUNTIME_ATTESTATION").getD "ubl/runtime-attestation/v1"

/-- `ubl_canon::verify_signature`, with the texts of its errors. -/
def canonVerify (kms : KmsLib) (vk : Key) (message : List UInt8) (sig : String) :
    Except String Bool :=
  match Auth.stripPrefix "ed25519:" sig with
  | none => .error "invalid signature format: missing 'ed25519:' prefix"
  | some b64 =>
    match kms.base64 b64 with
    | .error e => .error ("invalid signature format: " ++ e)
    | .ok bytes =>
      if bytes.length ≠ 64 then .error "invalid signature format: signature error"
      else .ok (kms.verify vk message bytes)

inductive VerifyMode where
  | v1Only
  | v2Only
  | dual
deriving DecidableEq

structure VerifyReport where
  valid : Bool
  v1Valid : Bool
  v2Valid : Bool

structure SelfAttestation where
  attestationType : String
  ver : String
  issuedAt : String
  did : String
  kid : String
  runtimeHash : String
  runtime : RuntimeInfo
  sig : String

inductive RuntimeCertError where
  | signature (text : String)
  | didKey (text : String)

/-- A self-contained link; the chip stands in it, compressed. -/
structure SelfContainedUrl where
  dataB64 : String
  cid : String
  did : String
  sig : String

inductive Link where
  | hosted (url : HostedUrl)
  | selfContained (url : SelfContainedUrl)

def SelfAttestation.payloadValue (att : SelfAttestation) : Json :=
  .object [("@type", .string att.attestationType), ("@ver", .string att.ver),
    ("issued_at", .string att.issuedAt), ("did", .string att.did), ("kid", .string att.kid),
    ("runtime_hash", .string att.runtimeHash), ("runtime", att.runtime.toJson)]

/-- `ubl_kms::domain::RB_VM`. -/
def RB_VM : String := "ubl-rb-vm/v1"

/-- `ubl_kms::domain::CAPSULE`. -/
def CAPSULE : String := "ubl-capsule/v1"

/-- What the anchor signs for an adapter. -/
def attestPayload (wasmSha256 abiVersion : String) : Json :=
  .object [("wasm_sha256", .string wasmSha256), ("abi_version", .string abiVersion)]

def UnifiedReceipt.signaturePayloadValue (r : UnifiedReceipt) : Json :=
  ({ r with sig := "" } : UnifiedReceipt).toJson

section

variable (lib : RichUrlLib)

def UnifiedReceipt.verifySignature (domain : String) (mode : VerifyMode) (r : UnifiedReceipt) :
    Except ReceiptError VerifyReport :=
  if r.sig = "" then .error (.signature "receipt signature is empty")
  else
    match verifyingKeyFromDid lib.kms r.did with
    | .error e => .error (.signature e.text)
    | .ok vk =>
      match toNrf1Bytes lib.crypto.text r.signaturePayloadValue with
      | .error e => .error (.signature ("NRF encoding failed: " ++ e.text))
      | .ok nrf =>
        match canonVerify lib.kms vk (utf8 domain ++ nrf) r.sig with
        | .error e => .error (.signature e)
        | .ok v1Valid =>
          match canonVerify lib.kms vk (lib.crypto.blake3 (utf8 domain ++ nrf)) r.sig with
          | .error e => .error (.signature e)
          | .ok v2Valid => .ok
            { valid := match mode with
                | .v1Only => v1Valid
                | .v2Only => v2Valid
                | .dual => v1Valid || v2Valid
              v1Valid, v2Valid }

def SelfAttestation.issue (domain : String) (sk : Signer lib.kms) (now did kid : String)
    (runtime : RuntimeInfo) : Except RuntimeCertError SelfAttestation :=
  let att : SelfAttestation :=
    { attestationType := "ubl/runtime.attestation"
      ver := "1.0"
      issuedAt := now
      did := did
      kid := kid
      runtimeHash := runtime.getRuntimeHash
      runtime := runtime
      sig := "" }
  match toNrf1Bytes lib.crypto.text att.payloadValue with
  | .error e => .error (.signature ("NRF encoding failed: " ++ e.text))
  | .ok nrf => .ok { att with sig := signRawV1 lib nrf domain sk }

def SelfAttestation.verify (domain : String) (att : SelfAttestation) :
    Except RuntimeCertError Bool :=
  if att.runtimeHash ≠ att.runtime.getRuntimeHash then .ok false
  else
    match verifyingKeyFromDid lib.kms att.did with
    | .error e => .error (.didKey e.text)
    | .ok vk =>
      match toNrf1Bytes lib.crypto.text att.payloadValue with
      | .error e => .error (.signature ("NRF encoding failed: " ++ e.text))
      | .ok nrf =>
        match canonVerify lib.kms vk (utf8 domain ++ nrf) att.sig with
        | .error e => .error (.signature e)
        | .ok valid => .ok valid

/-- `ubl_kms::sign_bytes`. -/
def signBytes (sk : Signer lib.kms) (raw : List UInt8) (domain : String) : String :=
  sk.sign (utf8 domain ++ raw)

/-- `ubl_kms::sign_canonical`. -/
def signCanonical (sk : Signer lib.kms) (value : Json) (domain : String) :
    Except KmsError String :=
  match toNrf1Bytes lib.kms.text value with
  | .error e => .error (.nrf e.text)
  | .ok nrf => .ok (sk.sign (utf8 domain ++ nrf))

def SelfContainedUrl.signingPayload (url : SelfContainedUrl) : List UInt8 :=
  let payload := Json.object [("domain", .string URL_SIGN_DOMAIN), ("data_b64", .string url.dataB64),
    ("cid", .string url.cid), ("did", .string url.did)]
  (toNrf1Bytes lib.crypto.text payload).toOption.getD []

def Link.signingPayload : Link → List UInt8
  | .hosted url => url.signingPayload lib
  | .selfContained url => url.signingPayload lib

end

/-! ## What the holder of a key signs -/

inductive Purpose where
  | receipt
  | vmReceipt
  | attestation
  | capability
  | adapter
  | link
deriving DecidableEq

def Purpose.domain (d : SignDomains) : Purpose → String
  | .receipt => d.receipt
  | .vmReceipt => RB_VM
  | .attestation => d.attestation
  | .capability => CAPABILITY
  | .adapter => CAPSULE
  | .link => URL_SIGN_DOMAIN

def Purpose.tag (d : SignDomains) (purpose : Purpose) : List UInt8 := utf8 (purpose.domain d)

/-- Something that was given to be signed. -/
inductive Signing where
  | receipt (r : UnifiedReceipt) (mode : CryptoMode)
  | vmReceipt (payload : List UInt8)
  | attestation (att : SelfAttestation)
  | capability (cap : Capability)
  | adapter (wasmSha256 abiVersion : String)
  | link (l : Link) (mode : CryptoMode)

/-- The bytes with their purpose and mode; what cannot be encoded is not signed, but for a link,
which then has no bytes. -/
def Signing.entry (lib : RichUrlLib) : Signing → Option (Entry Purpose UInt8)
  | .receipt r mode => (toNrf1Bytes lib.crypto.text r.signaturePayloadValue).toOption.map
      fun nrf => ⟨.receipt, mode = .hashFirstV2, nrf⟩
  | .vmReceipt payload => some ⟨.vmReceipt, false, payload⟩
  | .attestation att => (toNrf1Bytes lib.crypto.text att.payloadValue).toOption.map
      fun nrf => ⟨.attestation, false, nrf⟩
  | .capability cap => (toNrf1Bytes lib.kms.text (capSigningPayload cap)).toOption.map
      fun nrf => ⟨.capability, false, nrf⟩
  | .adapter wasmSha256 abiVersion =>
    (toNrf1Bytes lib.kms.text (attestPayload wasmSha256 abiVersion)).toOption.map
      fun nrf => ⟨.adapter, false, nrf⟩
  | .link l mode => some ⟨.link, mode = .hashFirstV2, l.signingPayload lib⟩

/-! ## Canonical bytes are no digest -/

theorem memberLength_string_ge (k s : String) :
    (utf8 k).length + 4 ≤ memberLength (k, .string s) := by
  have hkey := Nrf.length_encodeString k
  have hpos := Nrf.length_encodeVarint32_pos (UInt32.ofNat k.utf8ByteSize)
  have hvalue := Nrf.length_encodeString s
  have hpos' := Nrf.length_encodeVarint32_pos (UInt32.ofNat s.utf8ByteSize)
  show _ ≤ (Nrf.encodeString k).length + (Nrf.encodeString s).length
  omega

/-- An object is as long as its text members make it. -/
theorem length_toNrf1Bytes_ge {t : Nrf.Text} {members : List (String × Json)}
    (hd : (Json.object members).DistinctKeys) (texts : List (String × String))
    (hsub : (texts.map fun e => (e.1, Json.string e.2)).Sublist members) {nrf : List UInt8}
    (h : toNrf1Bytes t (.object members) = .ok nrf) :
    ((texts.map Prod.fst).map fun k => (utf8 k).length + 4).sum + 6 ≤ nrf.length := by
  obtain ⟨-, rfl⟩ := (Nrf.toNrf1Bytes_eq_ok hd).mp h
  have hmembers : ((texts.map Prod.fst).map fun k => (utf8 k).length + 4).sum ≤
      (members.map memberLength).sum :=
    calc ((texts.map Prod.fst).map fun k => (utf8 k).length + 4).sum
        = (texts.map fun e => (utf8 e.1).length + 4).sum := by
          rw [List.map_map]
          rfl
      _ ≤ (texts.map fun e => memberLength (e.1, .string e.2)).sum :=
          List.sum_le_sum fun e _ => memberLength_string_ge e.1 e.2
      _ = ((texts.map fun e => (e.1, Json.string e.2)).map memberLength).sum := by
          rw [List.map_map]
          rfl
      _ ≤ (members.map memberLength).sum :=
          (hsub.map memberLength).sum_le_sum fun _ _ => Nat.zero_le _
  have hcount := Nrf.length_encodeVarint32_pos
    (UInt32.ofNat (members.countP fun e => !e.2.isNull))
  have hmagic : Nrf.MAGIC.length = 4 := rfl
  rw [List.length_append, Nrf.length_object (Json.everywhere_object.mp hd).1]
  omega

variable {t : Nrf.Text} {nrf : List UInt8}

theorem length_receipt {r : UnifiedReceipt}
    (h : toNrf1Bytes t r.signaturePayloadValue = .ok nrf) : 32 < nrf.length := by
  refine lt_of_lt_of_le ?_ (length_toNrf1Bytes_ge (UnifiedReceipt.toJson_distinct _)
    [("@type", r.receiptType), ("@id", r.id), ("@ver", r.ver), ("@world", r.world)] ?_ h)
  · show 32 < (["@type", "@id", "@ver", "@world"].map fun k => (utf8 k).length + 4).sum + 6
    decide
  · simp

theorem SelfAttestation.payloadValue_distinct (att : SelfAttestation) :
    att.payloadValue.DistinctKeys := by
  refine distinct_object ["@type", "@ver", "issued_at", "did", "kid", "runtime_hash", "runtime"]
    (by decide) (List.Sublist.refl _) ?_
  simp [att.runtime.toJson_distinct]

theorem length_attestation {att : SelfAttestation}
    (h : toNrf1Bytes t att.payloadValue = .ok nrf) : 32 < nrf.length := by
  refine lt_of_lt_of_le ?_ (length_toNrf1Bytes_ge att.payloadValue_distinct
    [("@type", att.attestationType), ("@ver", att.ver), ("issued_at", att.issuedAt),
      ("did", att.did)] ?_ h)
  · show 32 < (["@type", "@ver", "issued_at", "did"].map fun k => (utf8 k).length + 4).sum + 6
    decide
  · simp

/-- An object of texts under these keys. -/
theorem length_texts (texts : List (String × String)) (names : List String)
    (hnames : texts.map Prod.fst = names) (hnodup : names.Nodup)
    (hlong : 32 < (names.map fun k => (utf8 k).length + 4).sum + 6)
    (h : toNrf1Bytes t (.object (texts.map fun e => (e.1, Json.string e.2))) = .ok nrf) :
    32 < nrf.length := by
  subst hnames
  have hd : (Json.object (texts.map fun e => (e.1, Json.string e.2))).DistinctKeys := by
    refine distinct_object _ hnodup ?_ fun e he => ?_
    · rw [keys, List.map_map]
      exact List.Sublist.refl _
    · obtain ⟨text, -, rfl⟩ := List.mem_map.mp he
      exact distinct_string _
  exact hlong.trans_le (length_toNrf1Bytes_ge hd texts (List.Sublist.refl _) h)

theorem length_capability {cap : Capability}
    (h : toNrf1Bytes t (capSigningPayload cap) = .ok nrf) : 32 < nrf.length :=
  length_texts [("action", cap.action), ("audience", cap.audience),
    ("issued_by", cap.issuedBy), ("issued_at", cap.issuedAt), ("expires_at", cap.expiresAt)]
    ["action", "audience", "issued_by", "issued_at", "expires_at"] rfl (by decide)
    (by decide) h

theorem length_adapter {wasmSha256 abiVersion : String}
    (h : toNrf1Bytes t (attestPayload wasmSha256 abiVersion) = .ok nrf) : 32 < nrf.length :=
  length_texts [("wasm_sha256", wasmSha256), ("abi_version", abiVersion)]
    ["wasm_sha256", "abi_version"] rfl (by decide) (by decide) h

theorem length_toOption {value : Json} (h : ∀ nrf, toNrf1Bytes t value = .ok nrf → 32 < nrf.length) :
    (toNrf1Bytes t value).toOption.getD [] = [] ∨
      32 < ((toNrf1Bytes t value).toOption.getD []).length := by
  cases hnrf : toNrf1Bytes t value with
  | error e => exact .inl rfl
  | ok nrf => exact .inr (h nrf hnrf)

/-- The bytes of a link that cannot be encoded are none. -/
theorem length_link (lib : RichUrlLib) (l : Link) :
    l.signingPayload lib = [] ∨ 32 < (l.signingPayload lib).length := by
  cases l with
  | hosted url =>
    refine length_toOption fun nrf h => length_texts [("domain", URL_SIGN_DOMAIN),
      ("path", _), ("cid", url.cid), ("did", url.did), ("rt", url.rt)]
      ["domain", "path", "cid", "did", "rt"] rfl (by decide) (by decide) h
  | selfContained url =>
    refine length_toOption fun nrf h => length_texts [("domain", URL_SIGN_DOMAIN),
      ("data_b64", url.dataB64), ("cid", url.cid), ("did", url.did)]
      ["domain", "data_b64", "cid", "did"] rfl (by decide) (by decide) h

/-! ## What a machine gives to be signed -/

/-- The bytes that `EmitRc` signs, on some machine. -/
def Emitted (t : Nrf.Text) (toVec : Json → Except String (List UInt8)) (payload : List UInt8) :
    Prop :=
  ∃ (σ : Type) (env : VmEnv σ) (cfg : VmConfig) (vm : Machine σ),
    toVec (rho t (rcPayload env cfg vm)) = .ok payload

/-- The text of an object holds the names of its members. -/
def WritesKeys (toVec : Json → Except String (List UInt8)) : Prop :=
  ∀ members bytes, toVec (.object members) = .ok bytes →
    ((keys members).map fun k => (utf8 k).length).sum ≤ bytes.length

/-- The members of the receipt that are never null. -/
def rcKeys : List String :=
  ["engine", "ghost", "inputs", "proofs", "steps", "fuel_used", "policy_id", "decision"]

theorem length_emitted {toVec : Json → Except String (List UInt8)} (hkeys : WritesKeys toVec)
    {payload : List UInt8} (h : Emitted t toVec payload) : 32 < payload.length := by
  obtain ⟨σ, env, cfg, vm, h⟩ := h
  obtain ⟨members, hmembers⟩ : ∃ members, rcPayload env cfg vm = .object members := ⟨_, rfl⟩
  have hdistinct : DistinctKeys members := by
    obtain rfl := Json.object.inj hmembers.symm
    show List.Nodup ["subject_cid", "engine", "ghost", "inputs", "proofs", "steps", "fuel_used",
      "policy_id", "decision", "body"]
    decide
  have hkept : rcKeys ⊆ keys (rhoMembers t members) := by
    intro k hk
    rw [← lookup_isSome, lookup_rhoMembers t hdistinct, Option.isSome_map]
    obtain rfl := Json.object.inj hmembers.symm
    simp only [rcKeys, List.mem_cons, List.not_mem_nil, or_false] at hk
    rcases hk with rfl | rfl | rfl | rfl | rfl | rfl | rfl | rfl <;> rfl
  obtain ⟨names, hperm, hsub⟩ := List.subperm_of_subset (by decide : rcKeys.Nodup) hkept
  rw [hmembers] at h
  calc 32 < (rcKeys.map fun k => (utf8 k).length).sum := by decide
    _ = (names.map fun k => (utf8 k).length).sum := (hperm.map _).sum_eq.symm
    _ ≤ ((keys (rhoMembers t members)).map fun k => (utf8 k).length).sum :=
        (hsub.map _).sum_le_sum fun _ _ => Nat.zero_le _
    _ ≤ payload.length := hkeys _ _ h

/-! ## Accepted signatures -/

/-- Something that comes with a signature, and how it is checked. -/
inductive Shown where
  | receipt (r : UnifiedReceipt) (mode : VerifyMode)
  | attestation (att : SelfAttestation)
  | capability (cap : Capability)
  | adapter (wasmSha256 abiVersion sig : String)
  | link (l : Link) (app tenant : Option String)

def Link.sig : Link → String
  | .hosted url => url.sig
  | .selfContained url => url.sig

def Shown.sig : Shown → String
  | .receipt r _ => r.sig
  | .attestation att => att.sig
  | .capability cap => cap.signature
  | .adapter _ _ sig => sig
  | .link l _ _ => l.sig

/-- The modes in which a signature counts. -/
def VerifyMode.Allows : VerifyMode → CryptoMode → Prop
  | .v1Only, m => m = .compatV1
  | .v2Only, m => m = .hashFirstV2
  | .dual, _ => True

section

variable (lib : RichUrlLib) (d : SignDomains)

/-- The check passes, with this key. -/
def Shown.Accepted (key : Key) : Shown → Prop
  | .receipt r mode => verifyingKeyFromDid lib.kms r.did = .ok key ∧
      ∃ report, r.verifySignature lib d.receipt mode = .ok report ∧ report.valid = true
  | .attestation att => verifyingKeyFromDid lib.kms att.did = .ok key ∧
      att.verify lib d.attestation = .ok true
  | .capability cap => verifyingKeyFromDid lib.kms cap.issuedBy = .ok key ∧
      ∃ capLib : CapLib, capLib.kms = lib.kms ∧ validateSignature capLib cap = .ok ()
  | .adapter wasmSha256 abiVersion sig => Auth.verifyCanonical lib.kms key
      (attestPayload wasmSha256 abiVersion) CAPSULE sig = .ok true
  | .link l app tenant =>
      verifySignatureByEnv lib (l.signingPayload lib) key l.sig app tenant = true

/-- The value has these canonical bytes. -/
def Encodes (t : Nrf.Text) (value : Json) (nrf : List UInt8) : Prop := toNrf1Bytes t value = .ok nrf

/-- The bytes that the check is over. -/
def Shown.IsEntry : Shown → Entry Purpose UInt8 → Prop
  | .receipt r mode, e => ∃ m, mode.Allows m ∧ e.purpose = .receipt ∧
      e.hashed = decide (m = .hashFirstV2) ∧ Encodes lib.crypto.text r.signaturePayloadValue e.text
  | .attestation att, e => e.purpose = .attestation ∧ e.hashed = false ∧
      Encodes lib.crypto.text att.payloadValue e.text
  | .capability cap, e => e.purpose = .capability ∧ e.hashed = false ∧
      Encodes lib.kms.text (capSigningPayload cap) e.text
  | .adapter wasmSha256 abiVersion _, e => e.purpose = .adapter ∧ e.hashed = false ∧
      Encodes lib.kms.text (attestPayload wasmSha256 abiVersion) e.text
  | .link l _ _, e => e.purpose = .link ∧
      e.hashed = decide (envCryptoMode lib = .hashFirstV2) ∧ e.text = l.signingPayload lib

/-- It was given to be signed for the same purpose, over the same bytes and in a mode that
counts. -/
def Shown.SignedAs : Shown → Signing → Prop
  | .receipt r mode, .receipt r' m => mode.Allows m ∧ ∃ nrf,
      Encodes lib.crypto.text r.signaturePayloadValue nrf ∧
        Encodes lib.crypto.text r'.signaturePayloadValue nrf
  | .attestation att, .attestation att' => ∃ nrf,
      Encodes lib.crypto.text att.payloadValue nrf ∧ Encodes lib.crypto.text att'.payloadValue nrf
  | .capability cap, .capability cap' => ∃ nrf, Encodes lib.kms.text (capSigningPayload cap) nrf ∧
      Encodes lib.kms.text (capSigningPayload cap') nrf
  | .adapter wasmSha256 abiVersion _, .adapter wasmSha256' abiVersion' => ∃ nrf,
      Encodes lib.kms.text (attestPayload wasmSha256 abiVersion) nrf ∧
        Encodes lib.kms.text (attestPayload wasmSha256' abiVersion') nrf
  | .link l _ _, .link l' m => m = envCryptoMode lib ∧ l.signingPayload lib = l'.signingPayload lib
  | _, _ => False

end

section Accepted

variable {lib : RichUrlLib} {d : SignDomains} {key : Key} {shown : Shown}
  {e : Entry Purpose UInt8}

theorem canonVerify_eq_ok {kms : KmsLib} {message : List UInt8} {sig : String} {valid : Bool} :
    canonVerify kms key message sig = .ok valid ↔ verifyRaw kms key message sig = .ok valid := by
  unfold canonVerify verifyRaw
  cases Auth.stripPrefix "ed25519:" sig with
  | none => simp
  | some b64 =>
    dsimp only
    cases kms.base64 b64 with
    | error e => simp
    | ok bytes =>
      dsimp only
      split_ifs <;> simp

theorem verifySignature_eq_true {message : List UInt8} {sig : String} :
    verifySignature lib key message sig = true ↔ verifyRaw lib.kms key message sig = .ok true := by
  unfold verifySignature
  rcases verifyRaw lib.kms key message sig with _ | _ | _ <;> simp [Except.toOption]

/-- The message of the bytes that the check is over has the signature that is shown. -/
def Shown.Verifies (lib : RichUrlLib) (d : SignDomains) (key : Key) (shown : Shown)
    (e : Entry Purpose UInt8) : Prop :=
  verifyRaw lib.kms key (e.message (Purpose.tag d) lib.crypto.blake3) shown.sig = .ok true

theorem verifies_receipt {r : UnifiedReceipt} {mode : VerifyMode}
    (h : (Shown.receipt r mode).Accepted lib d key) :
    ∃ e, (Shown.receipt r mode).IsEntry lib e ∧ (Shown.receipt r mode).Verifies lib d key e := by
  obtain ⟨hkey, report, h, hvalid⟩ := h
  unfold UnifiedReceipt.verifySignature at h
  rw [hkey] at h
  split_ifs at h
  dsimp only at h
  split at h
  · cases h
  next nrf hnrf =>
  split at h
  · cases h
  next v1Valid hv1 =>
  split at h
  · cases h
  next v2Valid hv2 =>
  obtain rfl := Except.ok.inj h
  have hcompat (hv : v1Valid = true) (hmode : mode.Allows .compatV1) :
      ∃ e, (Shown.receipt r mode).IsEntry lib e ∧ (Shown.receipt r mode).Verifies lib d key e :=
    ⟨⟨.receipt, false, nrf⟩, ⟨.compatV1, hmode, rfl, rfl, hnrf⟩,
      canonVerify_eq_ok.mp (hv1.trans (congrArg _ hv))⟩
  have hhashed (hv : v2Valid = true) (hmode : mode.Allows .hashFirstV2) :
      ∃ e, (Shown.receipt r mode).IsEntry lib e ∧ (Shown.receipt r mode).Verifies lib d key e :=
    ⟨⟨.receipt, true, nrf⟩, ⟨.hashFirstV2, hmode, rfl, rfl, hnrf⟩,
      canonVerify_eq_ok.mp (hv2.trans (congrArg _ hv))⟩
  cases mode with
  | v1Only => exact hcompat hvalid rfl
  | v2Only => exact hhashed hvalid rfl
  | dual =>
    rcases Bool.or_eq_true_iff.mp hvalid with hv | hv
    · exact hcompat hv trivial
    · exact hhashed hv trivial

theorem verifies_attestation {att : SelfAttestation}
    (h : (Shown.attestation att).Accepted lib d key) :
    ∃ e, (Shown.attestation att).IsEntry lib e ∧ (Shown.attestation att).Verifies lib d key e := by
  obtain ⟨hkey, h⟩ := h
  unfold SelfAttestation.verify at h
  rw [hkey] at h
  split_ifs at h
  · cases h
  dsimp only at h
  split at h
  · cases h
  next nrf hnrf =>
  split at h
  · cases h
  next valid hverify =>
  obtain rfl := Except.ok.inj h
  exact ⟨⟨.attestation, false, nrf⟩, ⟨rfl, rfl, hnrf⟩, canonVerify_eq_ok.mp hverify⟩

theorem verifies_link {l : Link} {app tenant : Option String}
    (h : (Shown.link l app tenant).Accepted lib d key) :
    ∃ e, (Shown.link l app tenant).IsEntry lib e ∧ (Shown.link l app tenant).Verifies lib d key e := by
  have hmode : envCryptoMode lib = .compatV1 ∨ envCryptoMode lib = .hashFirstV2 := by
    cases envCryptoMode lib <;> simp
  simp only [Shown.Accepted, verifySignatureByEnv, verifySignatureWithMode] at h
  rcases hmode with hmode | hmode
  · rw [hmode] at h
    have hv1 : verifyRawV1 lib (l.signingPayload lib) URL_SIGN_DOMAIN key l.sig = true := by
      dsimp only at h
      split_ifs at h
      · exact (Bool.and_eq_true_iff.mp h).1
      · exact h
    exact ⟨⟨.link, false, l.signingPayload lib⟩, ⟨rfl, by rw [hmode]; rfl, rfl⟩,
      verifySignature_eq_true.mp hv1⟩
  · rw [hmode] at h
    exact ⟨⟨.link, true, l.signingPayload lib⟩, ⟨rfl, by rw [hmode]; rfl, rfl⟩,
      verifySignature_eq_true.mp h⟩

theorem Shown.Accepted.verifies (h : shown.Accepted lib d key) :
    ∃ e, shown.IsEntry lib e ∧ shown.Verifies lib d key e := by
  cases shown with
  | receipt r mode => exact verifies_receipt h
  | attestation att => exact verifies_attestation h
  | link l app tenant => exact verifies_link h
  | capability cap =>
    obtain ⟨hkey, capLib, hkms, h⟩ := h
    obtain ⟨-, found, msg, hfound, ⟨nrf, hnrf, rfl⟩, hverify⟩ :=
      Auth.validateSignature_eq_ok.mp h
    rw [hkms] at hfound hnrf hverify
    obtain rfl := Except.ok.inj (hkey.symm.trans hfound)
    exact ⟨⟨.capability, false, nrf⟩, ⟨rfl, rfl, hnrf⟩, hverify⟩
  | adapter wasmSha256 abiVersion sig =>
    have h : Auth.verifyCanonical lib.kms key (attestPayload wasmSha256 abiVersion) CAPSULE sig =
      .ok true := h
    unfold Auth.verifyCanonical at h
    split at h
    · cases h
    next nrf hnrf =>
    exact ⟨⟨.adapter, false, nrf⟩, ⟨rfl, rfl, hnrf⟩, h⟩

/-! ### What was signed -/

def Signing.purpose : Signing → Purpose
  | .receipt _ _ => .receipt
  | .vmReceipt _ => .vmReceipt
  | .attestation _ => .attestation
  | .capability _ => .capability
  | .adapter _ _ => .adapter
  | .link _ _ => .link

def Shown.purpose : Shown → Purpose
  | .receipt _ _ => .receipt
  | .attestation _ => .attestation
  | .capability _ => .capability
  | .adapter _ _ _ => .adapter
  | .link _ _ _ => .link

theorem purpose_of_isEntry (h : shown.IsEntry lib e) : e.purpose = shown.purpose := by
  cases shown with
  | receipt r mode =>
    obtain ⟨-, -, hpurpose, -⟩ := h
    exact hpurpose
  | attestation att => exact h.1
  | capability cap => exact h.1
  | adapter wasmSha256 abiVersion sig => exact h.1
  | link l app tenant => exact h.1

theorem encoded_of_map {t : Nrf.Text} {value : Json} {purpose : Purpose} {hashed : Bool}
    (h : (toNrf1Bytes t value).toOption.map (fun nrf => (⟨purpose, hashed, nrf⟩ : Entry ..)) =
      some e) : e.purpose = purpose ∧ e.hashed = hashed ∧ Encodes t value e.text := by
  obtain ⟨nrf, hnrf, rfl⟩ := Option.map_eq_some_iff.mp h
  refine ⟨rfl, rfl, ?_⟩
  show toNrf1Bytes t value = .ok nrf
  cases hvalue : toNrf1Bytes t value with
  | error e =>
    rw [hvalue] at hnrf
    cases hnrf
  | ok found =>
    rw [hvalue] at hnrf
    exact congrArg _ (Option.some.inj hnrf)

theorem purpose_of_entry {s : Signing} (h : s.entry lib = some e) : e.purpose = s.purpose := by
  cases s with
  | receipt r mode => exact (encoded_of_map h).1
  | attestation att => exact (encoded_of_map h).1
  | capability cap => exact (encoded_of_map h).1
  | adapter wasmSha256 abiVersion => exact (encoded_of_map h).1
  | vmReceipt payload => exact congrArg Entry.purpose (Option.some.inj h).symm
  | link l mode => exact congrArg Entry.purpose (Option.some.inj h).symm

/-- What is shown and what was signed have one entry only if they are of one purpose. -/
theorem signedAs_of_entry {s : Signing} (hs : s.entry lib = some e) (h : shown.IsEntry lib e) :
    shown.SignedAs lib s := by
  have hpurpose : s.purpose = shown.purpose :=
    (purpose_of_entry hs).symm.trans (purpose_of_isEntry h)
  cases shown with
  | receipt r mode =>
    obtain ⟨m, hmode, -, hhashed, henc⟩ := h
    cases s <;> cases hpurpose
    next r' m' =>
    obtain ⟨-, hhashed', henc'⟩ := encoded_of_map hs
    obtain rfl : m = m' := by
      have hsame := decide_eq_decide.mp (hhashed.symm.trans hhashed')
      cases m <;> cases m' <;> simp_all
    exact ⟨hmode, e.text, henc, henc'⟩
  | attestation att =>
    cases s <;> cases hpurpose
    exact ⟨e.text, h.2.2, (encoded_of_map hs).2.2⟩
  | capability cap =>
    cases s <;> cases hpurpose
    exact ⟨e.text, h.2.2, (encoded_of_map hs).2.2⟩
  | adapter wasmSha256 abiVersion sig =>
    cases s <;> cases hpurpose
    exact ⟨e.text, h.2.2, (encoded_of_map hs).2.2⟩
  | link l app tenant =>
    obtain ⟨-, hhashed, htext⟩ := h
    cases s <;> cases hpurpose
    next l' m' =>
    obtain rfl := Option.some.inj hs
    refine ⟨?_, htext.symm⟩
    have hsame := decide_eq_decide.mp hhashed
    cases m' <;> cases hmode : envCryptoMode lib <;> simp_all

/-- The calls that sign. -/
inductive Signs (lib : RichUrlLib) (d : SignDomains) (sk : Signer lib.kms) : Signing → String → Prop
  | receipt {r r' : UnifiedReceipt} {mode : CryptoMode}
      (h : r.finalizeAndSign lib d.receipt sk mode = .ok r') : Signs lib d sk (.receipt r' mode) r'.sig
  | vmReceipt (payload : List UInt8) :
      Signs lib d sk (.vmReceipt payload) (signBytes lib sk payload RB_VM)
  | attestation {now did kid : String} {runtime : RuntimeInfo} {att : SelfAttestation}
      (h : SelfAttestation.issue lib d.attestation sk now did kid runtime = .ok att) :
      Signs lib d sk (.attestation att) att.sig
  | capability {cap : Capability} {sig : String}
      (h : signCanonical lib sk (capSigningPayload cap) CAPABILITY = .ok sig) :
      Signs lib d sk (.capability cap) sig
  | adapter {wasmSha256 abiVersion sig : String}
      (h : signCanonical lib sk (attestPayload wasmSha256 abiVersion) CAPSULE = .ok sig) :
      Signs lib d sk (.adapter wasmSha256 abiVersion) sig
  | link (l : Link) (mode : CryptoMode) :
      Signs lib d sk (.link l mode) (signRaw lib mode (l.signingPayload lib) URL_SIGN_DOMAIN sk)

theorem signRaw_eq (purpose : Purpose) {sk : Signer lib.kms} {mode : CryptoMode} {nrf : List UInt8} :
    signRaw lib mode nrf (purpose.domain d) sk = sk.sign
      ((⟨purpose, decide (mode = .hashFirstV2), nrf⟩ : Entry ..).message (Purpose.tag d)
        lib.crypto.blake3) := by
  cases mode <;> rfl

theorem signCanonical_eq_ok {sk : Signer lib.kms} {value : Json} {domain sig : String}
    (h : signCanonical lib sk value domain = .ok sig) :
    ∃ nrf, toNrf1Bytes lib.kms.text value = .ok nrf ∧ sig = sk.sign (utf8 domain ++ nrf) := by
  unfold signCanonical at h
  split at h
  · cases h
  · next nrf hnrf => exact ⟨nrf, hnrf, (Except.ok.inj h).symm⟩

/-- Each signs the message of its entry. -/
theorem Signs.entry {sk : Signer lib.kms} {s : Signing} {sig : String} (h : Signs lib d sk s sig) :
    ∃ e, s.entry lib = some e ∧
      sig = sk.sign (e.message (Purpose.tag d) lib.crypto.blake3) := by
  have hmap {t : Nrf.Text} {value : Json} {nrf : List UInt8} (purpose : Purpose) (hashed : Bool)
      (hnrf : toNrf1Bytes t value = .ok nrf) : (toNrf1Bytes t value).toOption.map
        (fun nrf => (⟨purpose, hashed, nrf⟩ : Entry ..)) = some ⟨purpose, hashed, nrf⟩ := by
    rw [hnrf]
    rfl
  cases h with
  | @receipt r r' mode h =>
    unfold UnifiedReceipt.finalizeAndSign at h
    split at h
    · cases h
    · next nrf hnrf =>
      obtain rfl := Except.ok.inj h
      exact ⟨_, hmap .receipt (decide (mode = .hashFirstV2)) hnrf,
        signRaw_eq .receipt⟩
  | vmReceipt payload => exact ⟨_, rfl, rfl⟩
  | attestation h =>
    unfold SelfAttestation.issue at h
    dsimp only at h
    split at h
    · cases h
    · next nrf hnrf =>
      obtain rfl := Except.ok.inj h
      exact ⟨_, hmap .attestation false hnrf, rfl⟩
  | capability h =>
    obtain ⟨nrf, hnrf, rfl⟩ := signCanonical_eq_ok h
    exact ⟨_, hmap .capability false hnrf, rfl⟩
  | adapter h =>
    obtain ⟨nrf, hnrf, rfl⟩ := signCanonical_eq_ok h
    exact ⟨_, hmap .adapter false hnrf, rfl⟩
  | link l mode => exact ⟨_, rfl, signRaw_eq .link⟩

/-! ### The holder of a key -/

/-- One who holds the key, and what was given to be signed.  There is no signature under the key
but over the messages of these. -/
structure Holder (lib : RichUrlLib) (toVec : Json → Except String (List UInt8)) (d : SignDomains)
    (key : Key) where
  log : Set Signing
  /-- Only a machine signs as one. -/
  emitted : ∀ payload, .vmReceipt payload ∈ log → Emitted lib.crypto.text toVec payload
  made : ∀ msg sig, verifyRaw lib.kms key msg sig = .ok true → ∃ s ∈ log, ∃ e,
    s.entry lib = some e ∧ msg = e.message (Purpose.tag d) lib.crypto.blake3

/-- Between what is shown and what was signed there is no collision. -/
def Shown.Apart (lib : RichUrlLib) (d : SignDomains) (shown : Shown) (log : Set Signing) : Prop :=
  ∀ y x s, shown.IsEntry lib y → s ∈ log → s.entry lib = some x →
    lib.crypto.blake3 (y.tagged (Purpose.tag d)) = lib.crypto.blake3 (x.tagged (Purpose.tag d)) →
      y.tagged (Purpose.tag d) = x.tagged (Purpose.tag d)

theorem length_tagged (h : 32 < e.text.length) : (e.tagged (Purpose.tag d)).length ≠ 32 := by
  rw [Entry.tagged, List.length_append]
  omega

theorem length_tagged_link {l : Link} (hpurpose : e.purpose = .link)
    (htext : e.text = l.signingPayload lib) : (e.tagged (Purpose.tag d)).length ≠ 32 := by
  rcases length_link lib l with hnil | hlong
  · rw [Entry.tagged, hpurpose, htext, hnil]
    show (utf8 URL_SIGN_DOMAIN ++ []).length ≠ 32
    decide
  · exact length_tagged (htext ▸ hlong)

theorem length_isEntry (h : shown.IsEntry lib e) : (e.tagged (Purpose.tag d)).length ≠ 32 := by
  cases shown with
  | receipt r mode =>
    obtain ⟨m, -, -, -, henc⟩ := h
    exact length_tagged (length_receipt henc)
  | attestation att => exact length_tagged (length_attestation h.2.2)
  | capability cap => exact length_tagged (length_capability h.2.2)
  | adapter wasmSha256 abiVersion sig => exact length_tagged (length_adapter h.2.2)
  | link l app tenant => exact length_tagged_link h.1 h.2.2

theorem length_entry {s : Signing} (hvm : ∀ payload, s = .vmReceipt payload → 32 < payload.length)
    (h : s.entry lib = some e) : (e.tagged (Purpose.tag d)).length ≠ 32 := by
  cases s with
  | receipt r mode => exact length_tagged (length_receipt (encoded_of_map h).2.2)
  | attestation att => exact length_tagged (length_attestation (encoded_of_map h).2.2)
  | capability cap => exact length_tagged (length_capability (encoded_of_map h).2.2)
  | adapter wasmSha256 abiVersion => exact length_tagged (length_adapter (encoded_of_map h).2.2)
  | vmReceipt payload =>
    obtain rfl := Option.some.inj h
    exact length_tagged (hvm payload rfl)
  | link l mode =>
    obtain rfl := Option.some.inj h
    exact length_tagged_link rfl rfl

end Accepted

/-- What is accepted under the key of a holder has the entry of something that was given to be
signed. -/
theorem entry_of_accepted {lib : RichUrlLib} {toVec : Json → Except String (List UInt8)}
    (hkeys : WritesKeys toVec) {d : SignDomains} {key : Key} (holder : Holder lib toVec d key)
    (hfree : PrefixFree (Purpose.tag d))
    (hdigest : ∀ m, (lib.crypto.blake3 m).length = 32) {shown : Shown}
    (haccepted : shown.Accepted lib d key) (hapart : shown.Apart lib d holder.log) :
    ∃ s ∈ holder.log, ∃ e, s.entry lib = some e ∧ shown.IsEntry lib e := by
  obtain ⟨y, hy, hverifies⟩ := haccepted.verifies
  obtain ⟨s, hs, x, hx, hmessage⟩ := holder.made _ _ hverifies
  have hlong : (x.tagged (Purpose.tag d)).length ≠ 32 :=
    length_entry (fun payload heq => length_emitted hkeys (holder.emitted payload (heq ▸ hs))) hx
  obtain rfl : y = x := eq_of_message_eq hfree hdigest hlong (length_isEntry hy)
    (hapart y x s hy hs hx) hmessage
  exact ⟨s, hs, y, hx, hy⟩

/-- One key for all purposes, with domains of which none is the beginning of another: what is
accepted under the key was given to be signed for that purpose, over the same canonical bytes and
in a mode that counts. -/
theorem accepted_as_signed (lib : RichUrlLib) (toVec : Json → Except String (List UInt8))
    (hkeys : WritesKeys toVec) (d : SignDomains) (key : Key) (holder : Holder lib toVec d key)
    (hfree : PrefixFree (Purpose.tag d))
    (hdigest : ∀ m, (lib.crypto.blake3 m).length = 32) (shown : Shown)
    (haccepted : shown.Accepted lib d key) (hapart : shown.Apart lib d holder.log) :
    ∃ s ∈ holder.log, shown.SignedAs lib s := by
  obtain ⟨s, hs, e, hentry, hshown⟩ := entry_of_accepted hkeys holder hfree hdigest haccepted hapart
  exact ⟨s, hs, signedAs_of_entry hentry hshown⟩

theorem prefixFree_default : PrefixFree (Purpose.tag (SignDomains.fromEnv fun _ => none)) := by
  intro p q
  cases p <;> cases q <;> decide

/-- Sixty-four zeros in base64. -/
def zerosText : String :=
  "AAAAAAAAAAAAAAAAAAAAAAAAAAAAAAAAAAAAAAAAAAAAAAAAAAAAAAAAAAAAAAAAAAAAAAAAAAAAAAAAAAAAAA"

/-- Sixty-four ones in base64. -/
def onesText : String :=
  "AQEBAQEBAQEBAQEBAQEBAQEBAQEBAQEBAQEBAQEBAQEBAQEBAQEBAQEBAQEBAQEBAQEBAQEBAQEBAQEBAQEBAQ"

/-- The hash tells messages apart by their lengths. -/
def moduleLibOf (verify : Key → List UInt8 → List UInt8 → Bool) : RichUrlLib where
  crypto := ⟨Nrf.asciiText, fun m => List.replicate 32 (UInt8.ofNat m.length), fun _ _ => [],
    fun _ => ""⟩
  kms :=
    { text := Nrf.asciiText
      base58 := fun _ => .error ""
      point := fun _ => .ok ()
      base64 := fun s =>
        if s = zerosText then .ok (List.replicate 64 0)
        else if s = onesText then .ok (List.replicate 64 1)
        else .error "Invalid symbol"
      verify := verify }
  var := fun _ => none

def moduleLink : Link :=
  .hosted ⟨"https://ubl.example.com", "acme", "prod", "b3:01", "b3:01", "did:key:z1", "b3:02",
    "ed25519:" ++ onesText⟩

/-- The message for the module `ab`. -/
def moduleMessage : List UInt8 :=
  utf8 CAPSULE ++ (toNrf1Bytes Nrf.asciiText (attestPayload "ab" "1.0")).toOption.getD []

/-- The message for the link. -/
def moduleLinkMessage : List UInt8 :=
  utf8 URL_SIGN_DOMAIN ++ moduleLink.signingPayload (moduleLibOf fun _ _ _ => false)

/-- The zeros sign the module and the ones the link, and nothing else has a signature. -/
def moduleVerify (_ : Key) (msg sig : List UInt8) : Bool :=
  decide (sig = List.replicate 64 0 ∧ msg = moduleMessage ∨
    sig = List.replicate 64 1 ∧ msg = moduleLinkMessage)

def moduleLib : RichUrlLib := moduleLibOf moduleVerify

/-- The text of one object is known. -/
def moduleToVec : Json → Except String (List UInt8)
  | .object [("status", .string "ok")] => .ok (utf8 "\x7b\"status\":\"ok\"\x7d")
  | _ => .error ""

theorem writesKeys_module : WritesKeys moduleToVec := by
  intro members bytes h
  unfold moduleToVec at h
  split at h
  · next hmembers =>
    obtain rfl := Json.object.inj hmembers
    obtain rfl := Except.ok.inj h
    decide
  · cases h

theorem verify_module {verify : Key → List UInt8 → List UInt8 → Bool} {key : Key}
    {msg : List UInt8} {sig : String}
    (h : verifyRaw (moduleLibOf verify).kms key msg sig = .ok true) :
    ∃ b64 bytes, Auth.stripPrefix "ed25519:" sig = some b64 ∧
      (moduleLibOf verify).kms.base64 b64 = .ok bytes ∧ verify key msg bytes = true := by
  unfold verifyRaw at h
  split at h
  · cases h
  · next b64 hstrip =>
    split at h
    · cases h
    · next bytes hbytes =>
      split_ifs at h
      exact ⟨b64, bytes, hstrip, hbytes, Except.ok.inj h⟩

def moduleDomains : SignDomains := SignDomains.fromEnv fun _ => none

theorem moduleNrf_isSome :
    ((toNrf1Bytes Nrf.asciiText (attestPayload "ab" "1.0")).toOption).isSome := by
  decide

def moduleHolder (key : Key) : Holder moduleLib moduleToVec moduleDomains key where
  log := {.adapter "ab" "1.0", .link moduleLink .compatV1}
  emitted payload h := by simp at h
  made msg sig h := by
    obtain ⟨_, _, -, -, hverify⟩ := verify_module h
    rcases of_decide_eq_true hverify with ⟨-, hmsg⟩ | ⟨-, hmsg⟩
    · refine ⟨_, .inl rfl, ⟨.adapter, false,
        (toNrf1Bytes Nrf.asciiText (attestPayload "ab" "1.0")).toOption.getD []⟩, ?_, hmsg⟩
      obtain ⟨nrf, hnrf⟩ := Option.isSome_iff_exists.mp moduleNrf_isSome
      show (toNrf1Bytes Nrf.asciiText (attestPayload "ab" "1.0")).toOption.map _ = _
      rw [hnrf]
      rfl
    · exact ⟨_, .inr rfl, _, rfl, hmsg⟩

theorem accepted_as_signed_module : ∃ s ∈ (moduleHolder Auth.ownKey).log,
    (Shown.adapter "ab" "1.0" ("ed25519:" ++ zerosText)).SignedAs moduleLib s := by
  refine accepted_as_signed moduleLib moduleToVec writesKeys_module moduleDomains Auth.ownKey
    (moduleHolder Auth.ownKey) prefixFree_default (fun _ => List.length_replicate)
    (.adapter "ab" "1.0" ("ed25519:" ++ zerosText)) ?_ ?_
  · show Auth.verifyCanonical moduleLib.kms Auth.ownKey (attestPayload "ab" "1.0") CAPSULE
      ("ed25519:" ++ zerosText) = .ok true
    decide +kernel
  · rintro ⟨purpose, hashed, text⟩ x s ⟨rfl, -, henc⟩ (rfl | rfl) hx hsame
    · have hx : (toNrf1Bytes Nrf.asciiText (attestPayload "ab" "1.0")).toOption.map
        (fun nrf => (⟨.adapter, false, nrf⟩ : Entry Purpose UInt8)) = some x := hx
      obtain ⟨hpurpose, -, henc'⟩ := encoded_of_map hx
      have htext : text = x.text := Except.ok.inj (henc.symm.trans henc')
      rw [Entry.tagged, Entry.tagged, hpurpose, htext]
    · -- the messages differ in length, so the hashes differ
      obtain rfl := Option.some.inj hx
      have hmessage : utf8 CAPSULE ++ text = moduleMessage := by
        have henc : toNrf1Bytes Nrf.asciiText (attestPayload "ab" "1.0") = .ok text := henc
        rw [moduleMessage, henc]
        rfl
      have hapart : moduleLib.crypto.blake3 moduleMessage ≠
          moduleLib.crypto.blake3 moduleLinkMessage := by decide +kernel
      exact absurd (hmessage ▸ hsame) hapart

end Ubl.Receipt
