import Ubl.Auth.Capability
import Ubl.Knock.Stage
import Ubl.Nrf.Length
import Ubl.Receipt.Tamper

/-!
# `rich_url.rs`: hosted links to receipts

A hosted link names a receipt by its CID and is checked against the JSON that the path serves.
The CID of a receipt is the hash of its `payload`, in which `sig`, `receiptCid` and `id` are blank;
the check hashes the JSON as it stands, with the three filled in, which is longer.  So the link to a
genuine receipt is always rejected (`verifyHosted_toJson`), and would be accepted against the
payload (`verifyHosted_payload`).
-/

namespace Ubl.Receipt

open Utf8 AssocMap
open Ubl.Auth (KmsLib KmsError verifyingKeyFromDid verifyRaw)
open Ubl.Nrf (Rho Printable splitParts memberLength memberLength_empty_le)

/-! ## Signatures -/

inductive CryptoMode where
  | compatV1
  | hashFirstV2
deriving DecidableEq

def eqIgnoreAsciiCase (s t : String) : Bool :=
  decide (s.toList.map Char.toLower = t.toList.map Char.toLower)

/-- `CryptoMode::parse(raw).ok()`. -/
def CryptoMode.parse (raw : String) : Option CryptoMode :=
  if eqIgnoreAsciiCase raw "compat_v1" then some .compatV1
  else if eqIgnoreAsciiCase raw "hash_first_v2" then some .hashFirstV2
  else none

structure RichUrlLib where
  crypto : Crypto
  kms : KmsLib
  /-- `std::env::var(name).ok()`. -/
  var : String → Option String

/-- A signing key with the key it is checked with; Ed25519 accepts what it signed. -/
structure Signer (kms : KmsLib) where
  key : Key
  /-- The prefix `ed25519:` and the signature in base64. -/
  sign : List UInt8 → String
  verifies : ∀ msg, verifyRaw kms key msg (sign msg) = .ok true

section Signatures

variable (lib : RichUrlLib)

def signRawV1 (payload : List UInt8) (domain : String) (sk : Signer lib.kms) : String :=
  sk.sign (utf8 domain ++ payload)

def signRawV2HashFirst (payload : List UInt8) (domain : String) (sk : Signer lib.kms) : String :=
  sk.sign (lib.crypto.blake3 (utf8 domain ++ payload))

/-- The signature that a mode asks for. -/
def signRaw (mode : CryptoMode) (payload : List UInt8) (domain : String)
    (sk : Signer lib.kms) : String :=
  match mode with
  | .compatV1 => signRawV1 lib payload domain sk
  | .hashFirstV2 => signRawV2HashFirst lib payload domain sk

/-- `ubl_canon::verify_signature`; no caller here reads its errors, which are the only difference
to the one of `ubl_kms`. -/
def verifySignature (vk : Key) (message : List UInt8) (sig : String) : Bool :=
  (verifyRaw lib.kms vk message sig).toOption.getD false

def verifyRawV1 (payload : List UInt8) (domain : String) (vk : Key) (sig : String) : Bool :=
  verifySignature lib vk (utf8 domain ++ payload) sig

def verifyRawV2HashFirst (payload : List UInt8) (domain : String) (vk : Key)
    (sig : String) : Bool :=
  verifySignature lib vk (lib.crypto.blake3 (utf8 domain ++ payload)) sig

/-- `finalize_and_sign`; the domain is the one of `receipt_sign_domain`. -/
def UnifiedReceipt.finalizeAndSign (domain : String) (sk : Signer lib.kms) (mode : CryptoMode)
    (r : UnifiedReceipt) : Except ReceiptError UnifiedReceipt :=
  match Nrf.toNrf1Bytes lib.crypto.text ({ r with sig := "" } : UnifiedReceipt).toJson with
  | .error e => .error (.signature ("NRF encoding failed: " ++ e.text))
  | .ok nrf => .ok { r with sig := signRaw lib mode nrf domain sk }

end Signatures

/-! ## Building a receipt -/

def UnifiedReceipt.withRuntimeInfo (rt : RuntimeInfo) (r : UnifiedReceipt) : UnifiedReceipt :=
  { r with rt := some rt }

/-- `runtime_hash()`. -/
def RuntimeInfo.getRuntimeHash (rt : RuntimeInfo) : String :=
  if rt.runtimeHash = "" then rt.binaryHash else rt.runtimeHash

/-! ## Hosted links -/

def URL_SIGN_DOMAIN : String := "ubl/rich-url/v1"

structure HostedUrl where
  host : String
  app : String
  tenant : String
  receiptId : String
  cid : String
  did : String
  rt : String
  sig : String

inductive VerifyError where
  | invalidSignature
  | runtimeHashMismatch (expected got : String)
  | cidMismatch (expected got : String)
  | didKeyInvalid (msg : String)
  | decode (msg : String)
deriving DecidableEq

structure VerificationResult where
  cidValid : Bool
  sigValid : Bool
  rtValid : Bool
  verified : Bool
  summary : String
deriving DecidableEq

section Verify

variable (lib : RichUrlLib)

def HostedUrl.signingPayload (url : HostedUrl) : List UInt8 :=
  let path := url.host ++ "/" ++ url.app ++ "/" ++ url.tenant ++ "/receipts/" ++ url.receiptId ++
    ".json"
  let payload := Json.object [("domain", .string URL_SIGN_DOMAIN), ("path", .string path),
    ("cid", .string url.cid), ("did", .string url.did), ("rt", .string url.rt)]
  (Nrf.toNrf1Bytes lib.crypto.text payload).toOption.getD []

def envBool (name : String) : Bool :=
  match lib.var name with
  | none => false
  | some v => eqIgnoreAsciiCase v "true" || v == "1"

/-- `str::trim`. -/
def trim (s : String) : String :=
  String.ofList ((s.toList.dropWhile Knock.isWhitespace).reverse.dropWhile
    Knock.isWhitespace).reverse

/-- `s.split_once(sep)`. -/
def splitOnce (sep : Char) (s : String) : Option (String × String) :=
  match s.toList.dropWhile (· != sep) with
  | [] => none
  | _ :: rest => some (String.ofList (s.toList.takeWhile (· != sep)), String.ofList rest)

/-- One scope of the list, such as `acme/*`. -/
def scopeMatches (app tenant raw : String) : Bool :=
  raw == "*/*" ||
    match splitOnce '/' raw with
    | none => false
    | some (scopeApp, scopeTenant) =>
      (scopeApp == "*" || scopeApp == app) && (scopeTenant == "*" || scopeTenant == tenant)

def scopeMatchEnv (varName : String) : Option String → Option String → Bool
  | some app, some tenant =>
    match lib.var varName with
    | none => false
    | some scopes =>
      (((splitParts ',' scopes).map trim).filter fun s => !s.isEmpty).any (scopeMatches app tenant)
  | _, _ => false

def v2Enforce (app tenant : Option String) : Bool :=
  envBool lib "UBL_CRYPTO_V2_ENFORCE" || scopeMatchEnv lib "UBL_CRYPTO_V2_ENFORCE_SCOPES" app tenant

def verifySignatureWithMode (payload : List UInt8) (vk : Key) (sig : String)
    (cryptoMode : CryptoMode) (app tenant : Option String) : Bool :=
  let v1 := verifyRawV1 lib payload URL_SIGN_DOMAIN vk sig
  let v2 := verifyRawV2HashFirst lib payload URL_SIGN_DOMAIN vk sig
  match cryptoMode with
  | .hashFirstV2 => v2
  | .compatV1 => if v2Enforce lib app tenant then v1 && v2 else v1

/-- `UBL_CRYPTO_MODE`, read as in `CryptoMode::from_env`. -/
def envCryptoMode : CryptoMode :=
  ((lib.var "UBL_CRYPTO_MODE").bind CryptoMode.parse).getD .compatV1

def verifySignatureByEnv (payload : List UInt8) (vk : Key) (sig : String)
    (app tenant : Option String) : Bool :=
  verifySignatureWithMode lib payload vk sig (envCryptoMode lib) app tenant

/-- The hash that stands under `rt` in the receipt. -/
def expectedRt (receiptBody : Json) : String :=
  ((receiptBody.get "rt").bind fun rt =>
    ((rt.get "runtime_hash").or (rt.get "binary_hash")).bind Json.asStr).getD ""

def verifyHosted (url : HostedUrl) (receiptBody : Json) :
    Except VerifyError VerificationResult :=
  let computedCid := (cidOf lib.crypto receiptBody).toOption.getD ""
  let cidValid := !computedCid.isEmpty && computedCid == url.cid
  if !cidValid then .error (.cidMismatch url.cid computedCid)
  else
    match verifyingKeyFromDid lib.kms url.did with
    | .error e => .error (.didKeyInvalid e.text)
    | .ok vk =>
      let sigValid := verifySignatureByEnv lib (url.signingPayload lib) vk url.sig (some url.app)
        (some url.tenant)
      if !sigValid then .error .invalidSignature
      else
        let rtValid := expectedRt receiptBody == url.rt
        if !rtValid then .error (.runtimeHashMismatch (expectedRt receiptBody) url.rt)
        else .ok
          { cidValid := cidValid
            sigValid := sigValid
            rtValid := rtValid
            verified := true
            summary := "VERIFIED: CID=" ++ url.cid ++ ", DID=" ++ url.did }

end Verify

/-! ## Genuine receipts -/

section Genuine

variable {c : Crypto}

/-- What the runtime makes and accepts: the CID is none yet, the last thing that happened to the
receipt was an append or a denial, or the receipt passes the verification of its chain. -/
inductive Genuine (c : Crypto) : UnifiedReceipt → Prop
  | unhashed (r : UnifiedReceipt) (h : r.receiptCid = "") : Genuine c r
  | append (currentSecret : String) (previousSecret : Option String) (stage : StageExecution)
      (r r' : UnifiedReceipt)
      (h : r.appendStageWithSecrets c currentSecret previousSecret stage = (.ok (), r')) :
      Genuine c r'
  | deny (reason : String) (currentSecret : Option String) (r : UnifiedReceipt) :
      Genuine c (r.denyWithSecrets c reason currentSecret)
  | verified (currentKey : Key) (previousKey : Option Key) (r : UnifiedReceipt)
      (h : r.verifyAuthChainWithKeys c currentKey previousKey = .ok true) : Genuine c r

theorem cidOf_recomputeCid (r : UnifiedReceipt) : (r.recomputeCid c).2.receiptCid = "" ∨
    cidOf c (r.recomputeCid c).2.payload = .ok (r.recomputeCid c).2.receiptCid := by
  unfold UnifiedReceipt.recomputeCid
  split
  · exact Or.inl rfl
  · next cid hcid => exact Or.inr hcid

/-- The CID of a genuine receipt is that of its payload, once there is one. -/
theorem Genuine.cidOf_payload {r : UnifiedReceipt} (h : Genuine c r) :
    r.receiptCid = "" ∨ cidOf c r.payload = .ok r.receiptCid := by
  cases h with
  | unhashed _ h => exact Or.inl h
  | append currentSecret previousSecret stage r₀ _ h =>
    cases hkey : keyFromSecretStr c currentSecret with
    | error e =>
      rw [UnifiedReceipt.appendStageWithSecrets, hkey] at h
      cases h
    | ok key =>
      obtain ⟨henc, rfl⟩ := UnifiedReceipt.append_eq_ok hkey h
      exact Or.inr (UnifiedReceipt.cidAt_eq (List.append_ne_nil_of_right_ne_nil _
        (List.cons_ne_nil _ _)) henc)
  | deny reason currentSecret r₀ => exact cidOf_recomputeCid _
  | verified currentKey previousKey _ h =>
    have hv := UnifiedReceipt.verifyAuthChainWithKeys_eq_true.mp h
    by_cases hstages : r.stages = []
    · exact Or.inl (hv.receiptCid_of_no_stages hstages)
    · exact Or.inr (hv.cidOf_payload hstages)

theorem finalizeAndSign_eq_ok {lib : RichUrlLib} {domain : String} {sk : Signer lib.kms}
    {mode : CryptoMode} {r r' : UnifiedReceipt} (h : r.finalizeAndSign lib domain sk mode = .ok r') :
    ∃ sig, r' = { r with sig := sig } := by
  unfold UnifiedReceipt.finalizeAndSign at h
  split at h
  · cases h
  · exact ⟨_, (Except.ok.inj h).symm⟩

/-- What has been hashed can be signed. -/
theorem finalizeAndSign_ok {lib : RichUrlLib} {domain : String} {sk : Signer lib.kms}
    {mode : CryptoMode} {r : UnifiedReceipt} (h : Rho lib.crypto.text r.payload)
    (hid : lib.crypto.text.Clean r.id) (hcid : lib.crypto.text.Clean r.receiptCid) :
    ∃ r', r.finalizeAndSign lib domain sk mode = .ok r' := by
  have hrho : Rho lib.crypto.text ({ r with sig := "" } : UnifiedReceipt).toJson := by
    simp only [Rho, UnifiedReceipt.payload, UnifiedReceipt.toJson, Json.everywhere_object,
      List.forall_mem_append, List.forall_mem_cons, Json.everywhere_string] at h ⊢
    obtain ⟨hkeys, ⟨⟨⟨⟨⟨⟨htype, -, hhead⟩, hsubject⟩, hkid⟩, hprev⟩, ⟨-, hsig⟩⟩, hknock⟩, hrt⟩ := h
    exact ⟨hkeys, ⟨⟨⟨⟨⟨⟨htype, hid, hhead⟩, hsubject⟩, hkid⟩, hprev⟩, ⟨hcid, hsig⟩⟩, hknock⟩, hrt⟩
  unfold UnifiedReceipt.finalizeAndSign
  rw [(Nrf.toNrf1Bytes_eq_ok (UnifiedReceipt.toJson_distinct _)).mpr ⟨hrho, rfl⟩]
  exact ⟨_, rfl⟩

/-! ## The served receipt is longer than the hashed one -/

theorem length_payload_lt {r : UnifiedReceipt} (hcid : r.receiptCid ≠ "") :
    (Nrf.encodeValue (Nrf.nrfOf r.payload)).length <
      (Nrf.encodeValue (Nrf.nrfOf r.toJson)).length := by
  have hkeys {members : List (String × Json)} (hd : (Json.object members).DistinctKeys) :
      DistinctKeys members := (Json.everywhere_object.mp hd).1
  have hid := memberLength_empty_le "@id" r.id
  have hreceiptCid := memberLength_empty_le "receipt_cid" r.receiptCid
  have hsig := memberLength_empty_le "sig" r.sig
  have hpos : 0 < (utf8 r.receiptCid).length := by
    rw [List.length_pos_iff]
    intro hnil
    exact hcid (utf8_injective hnil)
  rw [UnifiedReceipt.payload, UnifiedReceipt.toJson, UnifiedReceipt.toJson,
    Nrf.length_object (hkeys (UnifiedReceipt.toJson_distinct _)),
    Nrf.length_object (hkeys r.toJson_distinct)]
  simp only [List.map_append, List.map_cons, List.map_nil, List.sum_append, List.sum_cons,
    List.sum_nil, List.countP_append, List.countP_cons, Json.isNull]
  omega

end Genuine

/-! ## What verification comes to -/

section Hosted

variable {lib : RichUrlLib}

/-- The link to a receipt: it carries the receipt's CID, DID and runtime hash, and the key of the
DID signed it in the mode in force. -/
structure HostedLink (lib : RichUrlLib) (sk : Signer lib.kms) (r : UnifiedReceipt)
    (url : HostedUrl) : Prop where
  cid : url.cid = r.receiptCid
  did : url.did = r.did
  rt : r.rt.map RuntimeInfo.getRuntimeHash = some url.rt
  key : verifyingKeyFromDid lib.kms r.did = .ok sk.key
  sig : url.sig = signRaw lib (envCryptoMode lib) (url.signingPayload lib) URL_SIGN_DOMAIN sk

theorem cidOf_toJson_ne {c : Crypto} (hhash : Function.Injective c.blake3) {r : UnifiedReceipt}
    (h : r.receiptCid = "" ∨ cidOf c r.payload = .ok r.receiptCid) :
    cidOf c r.toJson ≠ .ok r.receiptCid := by
  intro hserved
  rcases h with hnil | hpayload
  · exact cid_ne_empty hserved hnil
  · have hne := cid_ne_empty hserved
    obtain ⟨-, hx⟩ := (cidOf_eq_ok UnifiedReceipt.payload_distinct).mp hpayload
    obtain ⟨-, hy⟩ := (cidOf_eq_ok r.toJson_distinct).mp hserved
    have hbytes := hhash (Hex.encode_injective ((String.append_right_inj _).mp (hx.symm.trans hy)))
    have hlen := congrArg List.length (List.append_cancel_left hbytes)
    have := length_payload_lt hne
    omega

theorem verifyHosted_cidMismatch {url : HostedUrl} {body : Json}
    (h : cidOf lib.crypto body ≠ .ok url.cid) :
    verifyHosted lib url body =
      .error (.cidMismatch url.cid ((cidOf lib.crypto body).toOption.getD "")) := by
  have hinvalid : (!(!((cidOf lib.crypto body).toOption.getD "").isEmpty &&
      (cidOf lib.crypto body).toOption.getD "" == url.cid)) = true := by
    cases hcid : cidOf lib.crypto body with
    | error e => rfl
    | ok cid =>
      have hne : cid ≠ url.cid := fun heq => h (hcid.trans (congrArg Except.ok heq))
      simp [Except.toOption, hne]
  unfold verifyHosted
  exact if_pos hinvalid

/-- The link to a genuine receipt is rejected for its CID, whatever else it says. -/
theorem verifyHosted_toJson (lib : RichUrlLib) (hhash : Function.Injective lib.crypto.blake3)
    (domain : String) (sk : Signer lib.kms) (mode : CryptoMode) (r₀ r : UnifiedReceipt)
    (hgenuine : Genuine lib.crypto r₀) (hsign : r₀.finalizeAndSign lib domain sk mode = .ok r)
    (linkSk : Signer lib.kms) (url : HostedUrl) (hlink : HostedLink lib linkSk r url) :
    verifyHosted lib url r.toJson =
      .error (.cidMismatch url.cid ((cidOf lib.crypto r.toJson).toOption.getD "")) := by
  obtain ⟨sig, rfl⟩ := finalizeAndSign_eq_ok hsign
  apply verifyHosted_cidMismatch
  rw [hlink.cid]
  exact cidOf_toJson_ne hhash hgenuine.cidOf_payload

theorem verifySignatureByEnv_signRaw {sk : Signer lib.kms} {payload : List UInt8}
    {app tenant : Option String}
    (henforce : envCryptoMode lib = .compatV1 → v2Enforce lib app tenant = false) :
    verifySignatureByEnv lib payload sk.key (signRaw lib (envCryptoMode lib) payload URL_SIGN_DOMAIN
      sk) app tenant = true := by
  have hsigned (msg : List UInt8) : verifySignature lib sk.key msg (sk.sign msg) = true := by
    rw [verifySignature, sk.verifies]
    rfl
  unfold verifySignatureByEnv
  cases hmode : envCryptoMode lib with
  | compatV1 =>
    simp only [verifySignatureWithMode, henforce hmode, signRaw]
    exact hsigned _
  | hashFirstV2 => exact hsigned _

theorem expectedRt_payload {r : UnifiedReceipt} {rt : RuntimeInfo} (h : r.rt = some rt) :
    expectedRt r.payload = rt.getRuntimeHash := by
  have hrt : r.payload.get "rt" = some rt.toJson := by
    simp [UnifiedReceipt.payload, UnifiedReceipt.toJson, Json.get, List.lookup_append,
      lookup_optional, lookup_cons_eq, h]
  have hruntime : rt.toJson.get "runtime_hash" =
      unlessEmpty rt.runtimeHash.toList (.string rt.runtimeHash) := by
    simp [RuntimeInfo.toJson, Json.get, List.lookup_append, lookup_optional, lookup_cons_eq]
  have hbinary : rt.toJson.get "binary_hash" = some (.string rt.binaryHash) := by
    simp [RuntimeInfo.toJson, Json.get]
  rw [expectedRt, hrt, Option.bind_some, hruntime, hbinary, unlessEmpty,
    RuntimeInfo.getRuntimeHash]
  by_cases hempty : rt.runtimeHash = ""
  · simp [hempty, Json.asStr]
  · simp [hempty, Json.asStr]

/-- Against the bytes that were hashed the same link verifies. -/
theorem verifyHosted_payload {sk : Signer lib.kms} {r : UnifiedReceipt} {url : HostedUrl}
    (hcid : cidOf lib.crypto r.payload = .ok r.receiptCid) (hlink : HostedLink lib sk r url)
    (henforce : envCryptoMode lib = .compatV1 →
      v2Enforce lib (some url.app) (some url.tenant) = false) :
    verifyHosted lib url r.payload = .ok
      { cidValid := true
        sigValid := true
        rtValid := true
        verified := true
        summary := "VERIFIED: CID=" ++ url.cid ++ ", DID=" ++ url.did } := by
  obtain ⟨rt, hrt, hurl⟩ := Option.map_eq_some_iff.mp hlink.rt
  have hvalid : (!r.receiptCid.isEmpty && r.receiptCid == url.cid) = true := by
    simp [hlink.cid, cid_ne_empty hcid]
  have hsig : verifySignatureByEnv lib (url.signingPayload lib) sk.key url.sig (some url.app)
      (some url.tenant) = true := by
    rw [hlink.sig]
    exact verifySignatureByEnv_signRaw henforce
  have hcomputed : (cidOf lib.crypto r.payload).toOption.getD "" = r.receiptCid := by
    rw [hcid]
    rfl
  have hexpected : expectedRt r.payload = url.rt := (expectedRt_payload hrt).trans hurl
  simp [verifyHosted, hcomputed, hvalid, hlink.did, hlink.key, hsig, hexpected]

end Hosted

/-! ## Samples -/

section Samples

/-- The first 64 bytes stand for a signature. -/
def first64 (bytes : List UInt8) : List UInt8 := (bytes ++ List.replicate 64 0).take 64

/-- What is signed stands in the signature. -/
def sampleKms : KmsLib where
  text := Nrf.asciiText
  base58 _ := .ok (List.replicate 32 1)
  point _ := .ok ()
  base64 s := .ok (first64 (utf8 s))
  verify _ msg sig := decide (sig = first64 (utf8 (Hex.encode msg)))

def sampleSigner : Signer sampleKms where
  key := paddedKey (List.replicate 32 1)
  sign msg := "ed25519:" ++ Hex.encode msg
  verifies msg := by
    have hlen (bytes : List UInt8) : (first64 bytes).length = 64 := by
      simp [first64]
    simp [verifyRaw, Auth.stripPrefix_append, sampleKms, hlen]

def sampleLib : RichUrlLib := ⟨UnifiedReceipt.plainCrypto, sampleKms, fun _ => none⟩

def sampleRuntimeInfo : RuntimeInfo where
  binaryHash := "b3:01"
  runtimeHash := "b3:01"
  version := "0.1.0"
  build := ⟨"1.80", "linux", "x86_64", "release", none, none⟩
  env := .empty
  certs := .empty

/-- A receipt with runtime information and one stage. -/
def sampleGenuine : UnifiedReceipt :=
  UnifiedReceipt.withCid UnifiedReceipt.plainCrypto
    (UnifiedReceipt.emptyEffects.withRuntimeInfo sampleRuntimeInfo)

theorem sampleGenuine_genuine : Genuine UnifiedReceipt.plainCrypto sampleGenuine :=
  .verified UnifiedReceipt.sampleKey none _
    (UnifiedReceipt.verifies_withCid rfl UnifiedReceipt.sampleToken (by decide +kernel))

theorem sampleGenuine_signed : ∃ r,
    sampleGenuine.finalizeAndSign sampleLib "ubl/receipt/v1" sampleSigner .compatV1 = .ok r := by
  have hcid : (cidOf UnifiedReceipt.plainCrypto sampleGenuine.payload).isOk = true := by
    decide +kernel
  have hprintable : Printable sampleGenuine.receiptCid := by
    show Printable ((cidOf UnifiedReceipt.plainCrypto sampleGenuine.payload).toOption.getD "")
    cases hout : cidOf UnifiedReceipt.plainCrypto sampleGenuine.payload with
    | error e => simp [Printable, Except.toOption]
    | ok cid => exact printable_cidOf hout
  exact finalizeAndSign_ok (Evolution.encodes_of_isOk hcid)
    (Printable.clean Nrf.asciiText_lawful (fun c hc => absurd hc List.not_mem_nil))
    (Printable.clean Nrf.asciiText_lawful hprintable)

/-- A link to the receipt, still without its signature. -/
def unsignedUrl (r : UnifiedReceipt) : HostedUrl where
  host := "https://ubl.example.com"
  app := "acme"
  tenant := "prod"
  receiptId := r.receiptCid
  cid := r.receiptCid
  did := r.did
  rt := "b3:01"
  sig := ""

def sampleUrl (r : UnifiedReceipt) : HostedUrl :=
  { unsignedUrl r with
    sig := signRaw sampleLib (envCryptoMode sampleLib) ((unsignedUrl r).signingPayload sampleLib)
      URL_SIGN_DOMAIN sampleSigner }

theorem sampleLink {r : UnifiedReceipt}
    (h : sampleGenuine.finalizeAndSign sampleLib "ubl/receipt/v1" sampleSigner .compatV1 = .ok r) :
    HostedLink sampleLib sampleSigner r (sampleUrl r) := by
  obtain ⟨sig, hr⟩ := finalizeAndSign_eq_ok h
  have hrt : r.rt = some sampleRuntimeInfo := by
    rw [hr]
    rfl
  have hdid : r.did = "did:key:z1" := by
    rw [hr]
    rfl
  refine ⟨rfl, rfl, ?_, ?_, rfl⟩
  · rw [hrt]
    rfl
  · rw [hdid]
    rfl

theorem verifyHosted_toJson_sample : ∃ r,
    sampleGenuine.finalizeAndSign sampleLib "ubl/receipt/v1" sampleSigner .compatV1 = .ok r ∧
      verifyHosted sampleLib (sampleUrl r) r.toJson = .error (.cidMismatch (sampleUrl r).cid
        ((cidOf sampleLib.crypto r.toJson).toOption.getD "")) := by
  obtain ⟨r, hr⟩ := sampleGenuine_signed
  exact ⟨r, hr, verifyHosted_toJson sampleLib (fun _ _ h => h) "ubl/receipt/v1" sampleSigner
    .compatV1 sampleGenuine r sampleGenuine_genuine hr sampleSigner (sampleUrl r) (sampleLink hr)⟩

/-- A genuine, signed receipt whose link does not verify. -/
theorem hosted_link_rejected : ∃ (lib : RichUrlLib) (domain : String) (sk : Signer lib.kms)
    (mode : CryptoMode) (r₀ r : UnifiedReceipt) (url : HostedUrl),
    Function.Injective lib.crypto.blake3 ∧ Genuine lib.crypto r₀ ∧
      r₀.finalizeAndSign lib domain sk mode = .ok r ∧ HostedLink lib sk r url ∧
      (verifyHosted lib url r.toJson).isOk = false := by
  obtain ⟨r, hr⟩ := sampleGenuine_signed
  obtain ⟨sig, hsigned⟩ := finalizeAndSign_eq_ok hr
  refine ⟨sampleLib, "ubl/receipt/v1", sampleSigner, .compatV1, sampleGenuine, r, sampleUrl r,
    fun _ _ h => h, sampleGenuine_genuine, hr, sampleLink hr, ?_⟩
  have hcid : cidOf sampleLib.crypto r.toJson ≠ .ok (sampleUrl r).cid := by
    show cidOf sampleLib.crypto r.toJson ≠ .ok r.receiptCid
    rw [hsigned]
    exact cidOf_toJson_ne (fun _ _ h => h) sampleGenuine_genuine.cidOf_payload
  rw [verifyHosted_cidMismatch hcid]
  rfl

end Samples

end Ubl.Receipt
