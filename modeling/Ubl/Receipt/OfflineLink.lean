import Ubl.Auth.Audience
import Ubl.Lib.Base58
import Ubl.Receipt.HostedText
import Ubl.Receipt.Purposes

/-!
# Offline links

A self-contained link carries its chip along: the JSON, deflated and in base64, with the CID of the
chip, the DID of who signed the link, and the signature.  Nothing has to be fetched to check it.

    a link that was made and signed is read back from its text, and accepted exactly when its chip
    is not too deep for the parser, it was signed in the mode in force and that mode is enforced as
    the stronger one or not at all                                   (signed_accepted_iff)
    an accepted link carries the chip of a link that the holder of the key signed
                                                                     (accepted_was_signed)

For the second the bytes that are signed have to be there: a link that cannot be encoded has none, and
all such links share a signature.  What is accepted can always be encoded.
-/

namespace Ubl.Receipt

open AssocMap ExceptLemmas Split Tagged
open Ubl.Nrf (Printable Rho JsonFits Eqv present splitParts toNrf1Bytes)
open Ubl.Auth (KmsLib stripPrefix stripPrefix_eq_some splitParts_eq_iff verifyRaw
  verifyingKeyFromDid)

/-! ## Links and their texts -/

def MAX_SELF_CONTAINED_URL_BYTES : Nat := 2048

/-- The errors of `UrlError` that a self-contained link adds to those of its text. -/
inductive LinkError where
  | url (e : UrlError)
  | encoding (e : String)
  | tooLarge (size limit : Nat)
deriving DecidableEq

/-- The `Display` text of the error. -/
def LinkError.text : LinkError → String
  | .url e => e.text
  | .encoding e => "Encoding error: " ++ e
  | .tooLarge size limit => "URL too large: " ++ toString size ++ " bytes (limit " ++
      toString limit ++ " bytes)"

/-- What the links take from other crates; `kms.base64` is the decoder of `base64url_decode`. -/
structure LinkLib extends RichUrlLib where
  /-- `serde_json::to_vec`. -/
  toVec : Json → Except String (List UInt8)
  /-- `serde_json::from_slice`. -/
  fromSlice : List UInt8 → Except String Json
  /-- `deflate_compress`, with the text of its error. -/
  deflate : List UInt8 → Except String (List UInt8)
  /-- `read_to_end` of a `DeflateDecoder`. -/
  inflate : List UInt8 → Except String (List UInt8)
  /-- `base64url_encode`. -/
  base64Url : List UInt8 → String

namespace SelfContainedUrl

def toUrlString (url : SelfContainedUrl) : String :=
  "ubl://" ++ url.dataB64 ++ "?cid=" ++ url.cid ++ "&did=" ++ url.did ++ "&sig=" ++ url.sig

def parse (text : String) : Except UrlError SelfContainedUrl :=
  match stripPrefix "ubl://" text with
  | none => .error (.invalidFormat "Must start with ubl://")
  | some rest =>
    match splitOnce '?' rest with
    | none => .error (.invalidFormat "Missing ? query")
    | some (dataB64, query) => do
      let params := HostedUrl.parseQueryParams query
      let cid ← HostedUrl.getParam params "cid"
      let did ← HostedUrl.getParam params "did"
      let sig ← HostedUrl.getParam params "sig"
      .ok ⟨dataB64, cid, did, sig⟩

section

variable (lib : LinkLib)

def fromChip (chipJson : Json) (cid did sig : String) : Except LinkError SelfContainedUrl :=
  match lib.toVec chipJson with
  | .error e => .error (.encoding ("JSON serialize: " ++ e))
  | .ok jsonBytes =>
    match lib.deflate jsonBytes with
    | .error e => .error (.encoding e)
    | .ok compressed =>
      let url : SelfContainedUrl := ⟨lib.base64Url compressed, cid, did, sig⟩
      if MAX_SELF_CONTAINED_URL_BYTES < url.toUrlString.utf8ByteSize then
        .error (.tooLarge url.toUrlString.utf8ByteSize MAX_SELF_CONTAINED_URL_BYTES)
      else .ok url

def extractChip (url : SelfContainedUrl) : Except LinkError Json :=
  match lib.kms.base64 url.dataB64 with
  | .error e => .error (.encoding ("base64url decode: " ++ e))
  | .ok compressed =>
    match lib.inflate compressed with
    | .error e => .error (.encoding ("deflate decompress: " ++ e))
    | .ok decompressed =>
      match lib.fromSlice decompressed with
      | .error e => .error (.encoding ("JSON parse: " ++ e))
      | .ok chip => .ok chip

end

end SelfContainedUrl

/-! ## Verification -/

inductive RichUrlVerifyMode where
  | shadow
  | strict
deriving DecidableEq

def VerifyError.text : VerifyError → String
  | .invalidSignature => "invalid_signature"
  | .runtimeHashMismatch _ _ => "runtime_hash_mismatch"
  | .cidMismatch _ _ => "cid_mismatch"
  | .didKeyInvalid msg => "did_key_invalid: " ++ msg
  | .decode msg => "decode_error: " ++ msg

section

variable (lib : LinkLib)

def RichUrlVerifyMode.fromEnv : RichUrlVerifyMode :=
  match lib.var "UBL_RICHURL_VERIFY_MODE" with
  | some mode => if eqIgnoreAsciiCase mode "strict" then .strict else .shadow
  | none => .shadow

def verifySelfContained (url : SelfContainedUrl) : Except VerifyError VerificationResult :=
  match url.extractChip lib with
  | .error e => .error (.decode e.text)
  | .ok chip =>
    match cidOf lib.crypto chip with
    | .error e => .error (.decode ("CID computation: " ++ e))
    | .ok computedCid =>
      if computedCid ≠ url.cid then .error (.cidMismatch url.cid computedCid)
      else
        match verifyingKeyFromDid lib.kms url.did with
        | .error e => .error (.didKeyInvalid e.text)
        | .ok vk =>
          let sigValid := verifySignatureByEnv lib.toRichUrlLib
            (url.signingPayload lib.toRichUrlLib) vk url.sig none none
          if !sigValid then .error .invalidSignature
          else .ok
            { cidValid := true
              sigValid := sigValid
              rtValid := true
              verified := true
              summary := "VERIFIED: self-contained CID=" ++ url.cid }

/-- In shadow mode a failure is a result that is not verified. -/
def verifySelfContainedByMode (url : SelfContainedUrl) : Except VerifyError VerificationResult :=
  match verifySelfContained lib url with
  | .ok result => .ok result
  | .error e =>
    if RichUrlVerifyMode.fromEnv lib = .shadow then .ok
      { cidValid := false
        sigValid := false
        rtValid := false
        verified := false
        summary := "SHADOW_VERIFY_FAIL: " ++ e.text }
    else .error e

/-- The link is reported as verified. -/
def SelfContainedUrl.Accepted (url : SelfContainedUrl) : Prop :=
  ∃ result, verifySelfContainedByMode lib url = .ok result ∧ result.verified = true

end

/-- The link under its signature. -/
def SelfContainedUrl.signed (lib : LinkLib) (mode : CryptoMode) (sk : Signer lib.kms)
    (url : SelfContainedUrl) : SelfContainedUrl :=
  { url with
    sig := signRaw lib.toRichUrlLib mode (url.signingPayload lib.toRichUrlLib) URL_SIGN_DOMAIN sk }

/-! ## Alphabets -/

def BASE64_URL : List Char :=
  "ABCDEFGHIJKLMNOPQRSTUVWXYZabcdefghijklmnopqrstuvwxyz0123456789-_".toList

def isPlainChar (c : Char) : Bool :=
  c != '?' && c != '&' && decide (0x20 ≤ c.toNat) && decide (c.toNat < 0x80)

/-- Printable text without the marks of a link. -/
def PlainText (s : String) : Prop := s.toList.all isPlainChar = true

instance (s : String) : Decidable (PlainText s) :=
  inferInstanceAs (Decidable (s.toList.all isPlainChar = true))

theorem plainText_iff {s : String} : PlainText s ↔ ∀ c ∈ s.toList, isPlainChar c = true :=
  List.all_eq_true

theorem PlainText.printable {s : String} (h : PlainText s) : Printable s := by
  intro c hc
  have hplain := plainText_iff.mp h c hc
  simp only [isPlainChar, Bool.and_eq_true, decide_eq_true_eq] at hplain
  exact ⟨hplain.1.2, hplain.2⟩

theorem PlainText.marks {s : String} (h : PlainText s) : '?' ∉ s.toList ∧ '&' ∉ s.toList :=
  ⟨fun hc => absurd (plainText_iff.mp h _ hc) (by decide),
    fun hc => absurd (plainText_iff.mp h _ hc) (by decide)⟩

theorem PlainText.append {s t : String} (hs : PlainText s) (ht : PlainText t) :
    PlainText (s ++ t) := by
  rw [PlainText, String.toList_append, List.all_append, Bool.and_eq_true]
  exact ⟨hs, ht⟩

theorem plainText_of_alphabet {alphabet : List Char} (halphabet : alphabet.all isPlainChar = true)
    {s : String} (h : ∀ c ∈ s.toList, c ∈ alphabet) : PlainText s :=
  plainText_iff.mpr fun c hc => List.all_eq_true.mp halphabet c (h c hc)

mutual

/-- How many arrays and objects lie in one another. -/
def nesting : Json → Nat
  | .array items => nestingItems items + 1
  | .object members => nestingMembers members + 1
  | _ => 0

def nestingItems : List Json → Nat
  | [] => 0
  | v :: items => max (nesting v) (nestingItems items)

def nestingMembers : List (String × Json) → Nat
  | [] => 0
  | (_, v) :: members => max (nesting v) (nestingMembers members)

end

/-- The depth at which a `serde_json::Deserializer` gives up. -/
def RECURSION_LIMIT : Nat := 128

/-- What the decoders of the other crates promise. -/
structure LinkLib.Alphabets (lib : LinkLib) : Prop where
  text : lib.crypto.text.Lawful
  base64Alphabet : ∀ s bytes, lib.kms.base64 s = .ok bytes → ∀ c ∈ s.toList, c ∈ BASE64_URL
  base58Alphabet : ∀ s bytes, lib.kms.base58 s = .ok bytes → ∀ c ∈ s.toList, c ∈ Base58.alphabet

/-- What the other crates promise of what they have written themselves. -/
structure LinkLib.Lawful (lib : LinkLib) : Prop extends lib.Alphabets where
  json : ∀ value bytes, value.DistinctKeys → Rho lib.crypto.text value →
    nesting value < RECURSION_LIMIT → lib.toVec value = .ok bytes → lib.fromSlice bytes = .ok value
  deepJson : ∀ value bytes, RECURSION_LIMIT ≤ nesting value → lib.toVec value = .ok bytes →
    ∃ e, lib.fromSlice bytes = .error e
  inflate : ∀ bytes compressed, lib.deflate bytes = .ok compressed →
    lib.inflate compressed = .ok bytes
  base64 : ∀ bytes compressed, lib.deflate bytes = .ok compressed →
    lib.kms.base64 (lib.base64Url compressed) = .ok compressed

section Plain

variable {lib : LinkLib}

theorem plainText_base64 (hlib : lib.Alphabets) {s : String} {bytes : List UInt8}
    (h : lib.kms.base64 s = .ok bytes) : PlainText s :=
  plainText_of_alphabet (by decide) (hlib.base64Alphabet s bytes h)

theorem plainText_of_stripPrefix {mark s rest : String} (hmark : PlainText mark)
    (h : stripPrefix mark s = some rest) (hrest : PlainText rest) : PlainText s := by
  rw [PlainText, stripPrefix_eq_some.mp h, ← String.toList_append]
  exact hmark.append hrest

theorem plainText_sig (hlib : lib.Alphabets) {key : Key} {msg : List UInt8} {sig : String}
    (h : verifyRaw lib.kms key msg sig = .ok true) : PlainText sig := by
  unfold verifyRaw at h
  split at h
  · cases h
  · next b64 hstrip =>
    split at h
    · cases h
    · next bytes hbytes =>
      have hmark : PlainText "ed25519:" := by decide
      exact plainText_of_stripPrefix hmark hstrip (plainText_base64 hlib hbytes)

/-- A DID that names a key. -/
theorem plainText_did (hlib : lib.Alphabets) {did : String} {key : Key}
    (h : verifyingKeyFromDid lib.kms did = .ok key) : PlainText did := by
  have hmark : PlainText "did:key:z" := by decide
  have hplain {encoded : String} {bytes : List UInt8}
      (hstrip : stripPrefix "did:key:z" did = some encoded)
      (hbytes : lib.kms.base58 encoded = .ok bytes) : PlainText did :=
    plainText_of_stripPrefix hmark hstrip
      (plainText_of_alphabet (by decide) (hlib.base58Alphabet encoded bytes hbytes))
  unfold verifyingKeyFromDid Auth.verifyingKeyFromDidStrict at h
  cases hstrip : stripPrefix "did:key:z" did with
  | none =>
    rw [hstrip] at h
    cases h
  | some encoded =>
    rw [hstrip] at h
    cases hbytes : lib.kms.base58 encoded with
    | error e =>
      dsimp only at h
      rw [hbytes] at h
      cases h
    | ok bytes => exact hplain hstrip hbytes

theorem plainText_cid {j : Json} {cid : String} (h : cidOf lib.crypto j = .ok cid) :
    PlainText cid := by
  have hdigit : ∀ n < 16, isPlainChar (Hex.digit n) = true := by decide
  have hmark : PlainText "b3:" := by decide
  unfold cidOf at h
  split at h
  · cases h
  · obtain rfl := Except.ok.inj h
    refine hmark.append (plainText_iff.mpr fun c hc => ?_)
    obtain ⟨n, hn, rfl⟩ := Hex.mem_encode hc
    exact hdigit n hn

end Plain

/-! ## The text of a link -/

section Text

theorem mem_foldl_insertBack {entries params : List (String × String)} {e : String × String}
    (h : e ∈ entries.foldl (fun params e => insertBack e.1 e.2 params) params) :
    e ∈ params ∨ e ∈ entries := by
  induction entries generalizing params with
  | nil => exact .inl h
  | cons entry entries ih =>
    rcases ih h with h | h
    · rcases mem_insertBack h with rfl | h
      · exact .inr List.mem_cons_self
      · exact .inl h
    · exact .inr (List.mem_cons_of_mem _ h)

theorem foldl_insertBack {entries params : List (String × String)}
    (h : (keys (params ++ entries)).Nodup) :
    entries.foldl (fun params e => insertBack e.1 e.2 params) params = params ++ entries := by
  induction entries generalizing params with
  | nil => exact (List.append_nil params).symm
  | cons e entries ih =>
    have hnew : e.1 ∉ keys params := by
      rw [keys, List.map_append, List.nodup_append] at h
      exact fun hmem => h.2.2 _ hmem _ List.mem_cons_self rfl
    rw [List.foldl_cons, insertBack_new e.2 hnew, ih (by rwa [List.append_assoc]),
      List.append_assoc]
    rfl

/-- A value of a query has no `&` in it. -/
theorem mark_getParam {query name value : String}
    (h : HostedUrl.getParam (HostedUrl.parseQueryParams query) name = .ok value) :
    '&' ∉ value.toList := by
  unfold HostedUrl.getParam at h
  split at h
  · next found hlookup =>
    obtain rfl := Except.ok.inj h
    have hentry := (mem_foldl_insertBack (mem_of_lookup hlookup)).resolve_left List.not_mem_nil
    obtain ⟨part, hpart, hsplit⟩ := List.mem_filterMap.mp hentry
    obtain ⟨piece, hpiece, rfl⟩ := List.mem_map.mp hpart
    have htext := (splitOnce_eq_some_iff.mp hsplit).1
    rw [String.toList_ofList] at htext
    intro hmark
    refine not_mem_of_mem_splitOn hpiece ?_
    rw [htext]
    exact List.mem_append_right _ (List.mem_cons_of_mem _ hmark)
  · cases h

/-- A query of pairs under different names. -/
theorem parseQueryParams_pairs {pairs : List (String × String)} {query : String}
    (hne : pairs ≠ []) (hnames : (keys pairs).Nodup)
    (hmarks : ∀ e ∈ pairs, '=' ∉ e.1.toList ∧ '&' ∉ e.1.toList ∧ '&' ∉ e.2.toList)
    (hquery : query.toList =
      ['&'].intercalate (pairs.map fun e => e.1.toList ++ '=' :: e.2.toList)) :
    HostedUrl.parseQueryParams query = pairs := by
  have hsplit : splitParts '&' query = pairs.map fun e => e.1 ++ "=" ++ e.2 := by
    refine splitParts_eq_iff.mpr ⟨by simpa using hne, fun part hpart => ?_, ?_⟩
    · obtain ⟨e, he, rfl⟩ := List.mem_map.mp hpart
      obtain ⟨-, hname, hvalue⟩ := hmarks e he
      simp [hname, hvalue]
    · rw [hquery, List.map_map]
      congr 2
      funext e
      simp
  have hpairs : (pairs.map fun e => e.1 ++ "=" ++ e.2).filterMap (splitOnce '=') = pairs := by
    rw [List.filterMap_map]
    refine (List.filterMap_congr fun e he => ?_).trans List.filterMap_some
    exact splitOnce_eq_some_iff.mpr ⟨by simp, (hmarks e he).1⟩
  rw [HostedUrl.parseQueryParams, hsplit, hpairs]
  exact @foldl_insertBack pairs [] hnames

/-- A link is read back from its text exactly when its parts do not hold the marks between them. -/
theorem SelfContainedUrl.parse_text_iff (url : SelfContainedUrl) :
    SelfContainedUrl.parse url.toUrlString = .ok url ↔
      '?' ∉ url.dataB64.toList ∧ ∀ value ∈ [url.cid, url.did, url.sig], '&' ∉ value.toList := by
  set query := "cid=" ++ url.cid ++ "&did=" ++ url.did ++ "&sig=" ++ url.sig with hquery
  have hstrip : stripPrefix "ubl://" url.toUrlString = some (url.dataB64 ++ "?" ++ query) :=
    stripPrefix_eq_some.mpr (by simp [SelfContainedUrl.toUrlString, hquery])
  rw [SelfContainedUrl.parse, hstrip]
  dsimp only
  constructor
  · intro h
    split at h
    · cases h
    · next dataB64 found hsplit =>
      obtain ⟨cid, hcid, h⟩ := bind_eq_ok.mp h
      obtain ⟨did, hdid, h⟩ := bind_eq_ok.mp h
      obtain ⟨sig, hsig, h⟩ := bind_eq_ok.mp h
      rw [← Except.ok.inj h]
      refine ⟨(splitOnce_eq_some_iff.mp hsplit).2, ?_⟩
      simp only [List.forall_mem_cons, List.not_mem_nil, false_implies, implies_true, and_true]
      exact ⟨mark_getParam hcid, mark_getParam hdid, mark_getParam hsig⟩
  · rintro ⟨hdata, hvalues⟩
    have hsplit : splitOnce '?' (url.dataB64 ++ "?" ++ query) = some (url.dataB64, query) :=
      splitOnce_eq_some_iff.mpr ⟨by simp, hdata⟩
    have hparams : HostedUrl.parseQueryParams query =
        [("cid", url.cid), ("did", url.did), ("sig", url.sig)] := by
      have hnames : (keys [("cid", url.cid), ("did", url.did), ("sig", url.sig)]).Nodup := by
        show ["cid", "did", "sig"].Nodup
        decide
      refine parseQueryParams_pairs (List.cons_ne_nil _ _) hnames ?_
        (by simp [hquery, List.intercalate])
      simp only [List.forall_mem_cons, List.not_mem_nil, false_implies, implies_true, and_true]
        at hvalues ⊢
      exact ⟨⟨by decide, by decide, hvalues.1⟩, ⟨by decide, by decide, hvalues.2.1⟩,
        by decide, by decide, hvalues.2.2⟩
    rw [hsplit]
    dsimp only
    rw [hparams]
    rfl

end Text

/-! ## What is signed -/

section Payload

def Link.payloadValue : Link → Json
  | .hosted url => .object [("domain", .string URL_SIGN_DOMAIN), ("path", .string (url.host ++ "/" ++
      url.app ++ "/" ++ url.tenant ++ "/receipts/" ++ url.receiptId ++ ".json")),
      ("cid", .string url.cid), ("did", .string url.did), ("rt", .string url.rt)]
  | .selfContained url => .object [("domain", .string URL_SIGN_DOMAIN),
      ("data_b64", .string url.dataB64), ("cid", .string url.cid), ("did", .string url.did)]

/-- Texts shorter than four gibibytes. -/
def Link.Fits (l : Link) : Prop := JsonFits l.payloadValue

variable {t : Nrf.Text} {nrf : List UInt8}

theorem signingPayload_eq (lib : RichUrlLib) (l : Link) :
    l.signingPayload lib = (toNrf1Bytes lib.crypto.text l.payloadValue).toOption.getD [] := by
  cases l <;> rfl

theorem Link.payloadValue_distinct (l : Link) : l.payloadValue.DistinctKeys := by
  cases l with
  | hosted url =>
    refine distinct_object ["domain", "path", "cid", "did", "rt"] (by decide)
      (List.Sublist.refl _) ?_
    simp
  | selfContained url =>
    refine distinct_object ["domain", "data_b64", "cid", "did"] (by decide)
      (List.Sublist.refl _) ?_
    simp

theorem ne_nil_of_toNrf1Bytes {l : Link} (h : toNrf1Bytes t l.payloadValue = .ok nrf) :
    nrf ≠ [] := by
  obtain ⟨-, rfl⟩ := (Nrf.toNrf1Bytes_eq_ok l.payloadValue_distinct).mp h
  simp [Nrf.MAGIC]

/-- A link of plain texts has canonical bytes. -/
theorem encodes_selfContained (ht : t.Lawful) {url : SelfContainedUrl}
    (hdata : PlainText url.dataB64) (hcid : PlainText url.cid) (hdid : PlainText url.did) :
    ∃ nrf, toNrf1Bytes t (Link.selfContained url).payloadValue = .ok nrf := by
  have hplain {s : String} (h : PlainText s) : t.Clean s := Printable.clean ht h.printable
  have hkeys : ∀ key ∈ ["domain", "data_b64", "cid", "did", URL_SIGN_DOMAIN], t.Clean key := by
    have hall : ["domain", "data_b64", "cid", "did", URL_SIGN_DOMAIN].all
      (fun key => decide (PlainText key)) = true := by decide
    exact fun key hkey => hplain (of_decide_eq_true (List.all_eq_true.mp hall key hkey))
  refine ⟨_, (Nrf.toNrf1Bytes_eq_ok (Link.payloadValue_distinct _)).mpr ⟨?_, rfl⟩⟩
  simp only [List.forall_mem_cons] at hkeys
  simp only [Rho, Link.payloadValue, Json.everywhere_object, List.forall_mem_cons,
    Json.everywhere_string]
  exact ⟨⟨hkeys.1, hkeys.2.1, hkeys.2.2.1, hkeys.2.2.2.1, by simp⟩, hkeys.2.2.2.2.1, hplain hdata,
    hplain hcid, hplain hdid, by simp⟩

/-- A link with the payload of an encoded self-contained one carries the same. -/
theorem eq_of_payload_eq {lib : RichUrlLib} {url : SelfContainedUrl} {l : Link}
    (hfits : (Link.selfContained url).Fits) (hfits' : l.Fits)
    (hnrf : toNrf1Bytes lib.crypto.text (Link.selfContained url).payloadValue = .ok nrf)
    (h : (Link.selfContained url).signingPayload lib = l.signingPayload lib) :
    ∃ sig, l = .selfContained { url with sig := sig } := by
  have hnrf' : toNrf1Bytes lib.crypto.text l.payloadValue = .ok nrf := by
    rw [signingPayload_eq, signingPayload_eq, hnrf] at h
    cases hl : toNrf1Bytes lib.crypto.text l.payloadValue with
    | error e =>
      rw [hl] at h
      exact absurd h (ne_nil_of_toNrf1Bytes hnrf)
    | ok found =>
      rw [hl] at h
      exact congrArg Except.ok h.symm
  have heqv := Nrf.eqv_of_toNrf1Bytes (Link.payloadValue_distinct _) l.payloadValue_distinct
    hfits hfits' hnrf hnrf'
  cases l with
  | hosted hosted =>
    cases heqv with
    | object _ _ hkeys _ =>
      have hrt := hkeys "rt"
      simp [present, List.lookup, Json.isNull] at hrt
  | selfContained other =>
    cases heqv with
    | object _ _ _ hvalues =>
      have hstring {s s' : String} (h : Eqv (.string s) (.string s')) : s' = s := by
        cases h
        rfl
      have hdata := hstring (hvalues "data_b64" _ _ rfl rfl)
      have hcid := hstring (hvalues "cid" _ _ rfl rfl)
      have hdid := hstring (hvalues "did" _ _ rfl rfl)
      exact ⟨other.sig, by rw [← hdata, ← hcid, ← hdid]⟩

end Payload

/-! ## What is accepted -/

section Accepted

variable {lib : LinkLib} {url : SelfContainedUrl}

theorem accepted_iff : url.Accepted lib ↔ ∃ chip vk, url.extractChip lib = .ok chip ∧
    cidOf lib.crypto chip = .ok url.cid ∧ verifyingKeyFromDid lib.kms url.did = .ok vk ∧
      verifySignatureByEnv lib.toRichUrlLib (url.signingPayload lib.toRichUrlLib) vk url.sig
        none none = true := by
  have hmode : url.Accepted lib ↔ ∃ result, verifySelfContained lib url = .ok result ∧
      result.verified = true := by
    unfold SelfContainedUrl.Accepted verifySelfContainedByMode
    cases verifySelfContained lib url with
    | ok result => exact Iff.rfl
    | error e =>
      dsimp only
      split_ifs <;> simp
  rw [hmode]
  unfold verifySelfContained
  cases url.extractChip lib with
  | error e => simp
  | ok chip =>
    cases hcid : cidOf lib.crypto chip with
    | error e => simp [hcid]
    | ok computed =>
      by_cases hsame : computed = url.cid
      · cases hkey : verifyingKeyFromDid lib.kms url.did with
        | error e => simp [hcid, hsame]
        | ok vk =>
          by_cases hsig : verifySignatureByEnv lib.toRichUrlLib
            (url.signingPayload lib.toRichUrlLib) vk url.sig none none = true
          · simp [hcid, hsame, hsig]
          · simp [hcid, hsame, hsig]
      · simp [hcid, hsame]

/-- A link that was made carries its chip, as far as the parser reads it. -/
theorem extractChip_of_fromChip (hlib : lib.Lawful) {chip : Json} (hchip : chip.DistinctKeys)
    (hrho : Rho lib.crypto.text chip) {cid did sig : String} {made : SelfContainedUrl}
    (h : SelfContainedUrl.fromChip lib chip cid did sig = .ok made) :
    made.cid = cid ∧ made.did = did ∧ PlainText made.dataB64 ∧
      (nesting chip < RECURSION_LIMIT → made.extractChip lib = .ok chip) ∧
      (RECURSION_LIMIT ≤ nesting chip → ∃ e, made.extractChip lib = .error e) := by
  unfold SelfContainedUrl.fromChip at h
  split at h
  · cases h
  next jsonBytes hjson =>
  split at h
  · cases h
  next compressed hdeflate =>
  dsimp only at h
  split_ifs at h
  obtain rfl := Except.ok.inj h
  have hbase64 := hlib.base64 jsonBytes compressed hdeflate
  have hextract : (⟨lib.base64Url compressed, cid, did, sig⟩ : SelfContainedUrl).extractChip lib =
      (lib.fromSlice jsonBytes).mapError fun e => .encoding ("JSON parse: " ++ e) := by
    unfold SelfContainedUrl.extractChip
    dsimp only
    rw [hbase64]
    dsimp only
    rw [hlib.inflate jsonBytes compressed hdeflate]
    dsimp only
    cases lib.fromSlice jsonBytes <;> rfl
  refine ⟨rfl, rfl, plainText_base64 hlib.toAlphabets hbase64, fun hshallow => ?_, fun hdeep => ?_⟩
  · rw [hextract, hlib.json chip jsonBytes hchip hrho hshallow hjson]
    rfl
  · obtain ⟨e, he⟩ := hlib.deepJson chip jsonBytes hdeep hjson
    rw [hextract, he]
    exact ⟨_, rfl⟩

/-- Where no signature counts in both modes, one made in a mode counts in that one. -/
theorem verifySignatureWithMode_signRaw {lib : RichUrlLib} {payload : List UInt8}
    {sk : Signer lib.kms} {mode mode' : CryptoMode} {app tenant : Option String}
    (hone : ∀ sig, ¬ (verifyRawV1 lib payload URL_SIGN_DOMAIN sk.key sig = true ∧
      verifyRawV2HashFirst lib payload URL_SIGN_DOMAIN sk.key sig = true)) :
    verifySignatureWithMode lib payload sk.key (signRaw lib mode payload URL_SIGN_DOMAIN sk) mode'
        app tenant = true ↔
      mode = mode' ∧ (mode = .compatV1 → v2Enforce lib app tenant = false) := by
  have hv1 : verifyRawV1 lib payload URL_SIGN_DOMAIN sk.key
      (signRaw lib .compatV1 payload URL_SIGN_DOMAIN sk) = true :=
    verifySignature_eq_true.mpr (sk.verifies _)
  have hv2 : verifyRawV2HashFirst lib payload URL_SIGN_DOMAIN sk.key
      (signRaw lib .hashFirstV2 payload URL_SIGN_DOMAIN sk) = true :=
    verifySignature_eq_true.mpr (sk.verifies _)
  have hone := hone (signRaw lib mode payload URL_SIGN_DOMAIN sk)
  cases mode <;> cases mode' <;> simp_all [verifySignatureWithMode]

end Accepted

/-! ## Main results -/

/-- The link to a chip, made, signed and written as text. A chip as deep as the limit of the parser
goes into a link, and nobody can read it there. -/
theorem signed_accepted_iff (lib : LinkLib) (hlib : lib.Lawful) (chip : Json)
    (hchip : chip.DistinctKeys) (cid did placeholder : String)
    (hcid : cidOf lib.crypto chip = .ok cid) (made : SelfContainedUrl)
    (hmade : SelfContainedUrl.fromChip lib chip cid did placeholder = .ok made) (sk : Signer lib.kms)
    (hkey : verifyingKeyFromDid lib.kms did = .ok sk.key) (mode : CryptoMode)
    (hone : ∀ sig, ¬ (
      verifyRawV1 lib.toRichUrlLib (made.signingPayload lib.toRichUrlLib) URL_SIGN_DOMAIN sk.key
        sig = true ∧
      verifyRawV2HashFirst lib.toRichUrlLib (made.signingPayload lib.toRichUrlLib) URL_SIGN_DOMAIN
        sk.key sig = true)) :
    SelfContainedUrl.parse (made.signed lib mode sk).toUrlString = .ok (made.signed lib mode sk) ∧
      ((made.signed lib mode sk).Accepted lib ↔ nesting chip < RECURSION_LIMIT ∧
        mode = envCryptoMode lib.toRichUrlLib ∧
        (mode = .compatV1 → v2Enforce lib.toRichUrlLib none none = false)) := by
  have hrho := ((cidOf_eq_ok hchip).mp hcid).1
  obtain ⟨rfl, rfl, hdata, hextract, hunread⟩ := extractChip_of_fromChip hlib hchip hrho hmade
  constructor
  · rw [SelfContainedUrl.parse_text_iff]
    refine ⟨hdata.marks.1, ?_⟩
    simp only [List.forall_mem_cons, List.not_mem_nil, false_implies, implies_true, and_true]
    have hsig : PlainText (made.signed lib mode sk).sig := by
      cases mode <;> exact plainText_sig hlib.toAlphabets (sk.verifies _)
    exact ⟨(plainText_cid hcid).marks.2, (plainText_did hlib.toAlphabets hkey).marks.2,
      hsig.marks.2⟩
  · have hsigned : (made.signed lib mode sk).Accepted lib ↔ nesting chip < RECURSION_LIMIT ∧
        verifySignatureByEnv lib.toRichUrlLib (made.signingPayload lib.toRichUrlLib) sk.key
          (made.signed lib mode sk).sig none none = true := by
      rw [accepted_iff]
      constructor
      · rintro ⟨read, vk, hread, -, hvk, hsig⟩
        obtain rfl := Except.ok.inj (hkey.symm.trans hvk)
        refine ⟨not_le.mp fun hdeep => ?_, hsig⟩
        obtain ⟨e, he⟩ := hunread hdeep
        cases he.symm.trans hread
      · exact fun ⟨hshallow, hsig⟩ => ⟨chip, sk.key, hextract hshallow, hcid, hkey, hsig⟩
    rw [hsigned]
    exact and_congr_right fun _ => verifySignatureWithMode_signRaw hone

/-- What a link shows that is accepted under the key of a holder: the chip of a self-contained link
that was given to be signed, in the mode in force. -/
theorem accepted_was_signed (lib : LinkLib) (hlib : lib.Alphabets) (hkeys : WritesKeys lib.toVec)
    (d : SignDomains) (key : Key) (holder : Holder lib.toRichUrlLib lib.toVec d key)
    (hfree : PrefixFree (Purpose.tag d))
    (hdigest : ∀ m, (lib.crypto.blake3 m).length = 32) (url : SelfContainedUrl)
    (hkey : verifyingKeyFromDid lib.kms url.did = .ok key) (haccepted : url.Accepted lib)
    (hapart : (Shown.link (.selfContained url) none none).Apart lib.toRichUrlLib d holder.log)
    (hfits : (Link.selfContained url).Fits)
    (hfits' : ∀ l mode, .link l mode ∈ holder.log → l.Fits) :
    ∃ sig chip, .link (.selfContained { url with sig := sig }) (envCryptoMode lib.toRichUrlLib) ∈
        holder.log ∧
      url.extractChip lib = .ok chip ∧ cidOf lib.crypto chip = .ok url.cid := by
  obtain ⟨chip, vk, hextract, hcid, hvk, hsig⟩ := accepted_iff.mp haccepted
  obtain rfl := Except.ok.inj (hkey.symm.trans hvk)
  have hdata : PlainText url.dataB64 := by
    unfold SelfContainedUrl.extractChip at hextract
    split at hextract
    · cases hextract
    · next compressed hbase64 => exact plainText_base64 hlib hbase64
  obtain ⟨nrf, hnrf⟩ := encodes_selfContained hlib.text hdata (plainText_cid hcid)
    (plainText_did hlib hkey)
  obtain ⟨s, hs, e, hentry, hshown⟩ := entry_of_accepted hkeys holder hfree hdigest
    (show (Shown.link (.selfContained url) none none).Accepted lib.toRichUrlLib d key from hsig)
    hapart
  have hsigned := signedAs_of_entry hentry hshown
  cases s with
  | link l mode =>
    obtain ⟨rfl, hpayload⟩ := hsigned
    obtain ⟨sig, rfl⟩ := eq_of_payload_eq hfits (hfits' l _ hs) hnrf hpayload
    exact ⟨sig, chip, hs, hextract, hcid⟩
  | receipt r mode => exact hsigned.elim
  | vmReceipt payload => exact hsigned.elim
  | attestation att => exact hsigned.elim
  | capability cap => exact hsigned.elim
  | adapter wasmSha256 abiVersion => exact hsigned.elim

/-! ## The link to one document -/

def documentChip : Json := .object [("@type", .string "ubl/document")]

def documentBytes : List UInt8 := Utf8.utf8 "\x7b\"@type\":\"ubl/document\"\x7d"

def documentDeflated : List UInt8 :=
  [171, 86, 114, 40, 169, 44, 72, 85, 178, 82, 42, 77, 202, 209, 79, 201, 79, 46, 205, 77, 205, 43,
    81, 170, 5, 0]

def documentData : String := "q1ZyKKksSFWyUipNytFPyU8uzU3NK1GqBQA"

/-- The key of zeros, in base 58. -/
def zeroKeyText : String := "11111111111111111111111111111111"

def zeroKey : Key := Receipt.paddedKey (List.replicate 32 0)

def documentBase64 (s : String) : Except String (List UInt8) :=
  if s = documentData then .ok documentDeflated
  else if s = zerosText then .ok (List.replicate 64 0)
  else if s = onesText then .ok (List.replicate 64 1)
  else .error "Invalid symbol"

/-- The other crates on the document, one key and two signatures. -/
def documentLib (verify : Key → List UInt8 → List UInt8 → Bool) : LinkLib where
  crypto := ⟨Nrf.asciiText, fun _ => List.replicate 32 0, fun _ _ => [], fun _ => ""⟩
  kms :=
    { text := Nrf.asciiText
      base58 := fun s => if s = zeroKeyText then .ok (List.replicate 32 0) else .error ""
      point := fun _ => .ok ()
      base64 := documentBase64
      verify := verify }
  var := fun _ => none
  toVec
    | .object [("@type", .string "ubl/document")] => .ok documentBytes
    | _ => .error ""
  fromSlice bytes := if bytes = documentBytes then .ok documentChip else .error ""
  deflate bytes := if bytes = documentBytes then .ok documentDeflated else .error ""
  inflate bytes := if bytes = documentDeflated then .ok documentBytes else .error ""
  base64Url bytes := if bytes = documentDeflated then documentData else ""

theorem lawful_documentLib (verify : Key → List UInt8 → List UInt8 → Bool) :
    (documentLib verify).Lawful where
  text := Nrf.asciiText_lawful
  json value bytes _ _ _ h := by
    simp only [documentLib] at h
    split at h
    · obtain rfl := Except.ok.inj h
      simp [documentLib, documentChip]
    · cases h
  deepJson value bytes hdeep h := by
    simp only [documentLib] at h
    split at h
    · exact absurd hdeep (by decide)
    · cases h
  inflate bytes compressed h := by
    simp only [documentLib] at h
    split_ifs at h with hbytes
    obtain rfl := Except.ok.inj h
    simp [documentLib, hbytes]
  base64 bytes compressed h := by
    simp only [documentLib] at h
    split_ifs at h
    obtain rfl := Except.ok.inj h
    rfl
  base64Alphabet s bytes h := by
    simp only [documentLib, documentBase64] at h
    have hall : [documentData, zerosText, onesText].all (fun s => s.toList.all fun c =>
      decide (c ∈ BASE64_URL)) = true := by decide
    have hmem : s ∈ [documentData, zerosText, onesText] := by
      split_ifs at h <;> simp_all
    intro c hc
    exact of_decide_eq_true (List.all_eq_true.mp (List.all_eq_true.mp hall s hmem) c hc)
  base58Alphabet s bytes h := by
    simp only [documentLib] at h
    split_ifs at h with hs
    have hall : zeroKeyText.toList.all (fun c => decide (c ∈ Base58.alphabet)) = true := by
      decide
    subst hs
    intro c hc
    exact of_decide_eq_true (List.all_eq_true.mp hall c hc)

def documentCid : String := "b3:" ++ Hex.encode (List.replicate 32 0)

def documentDid : String := "did:key:z" ++ zeroKeyText

/-- A digest has the one signature, any other message the other. -/
def lengthVerify (_ : Key) (msg sig : List UInt8) : Bool :=
  decide (sig = List.replicate 64 (if msg.length = 32 then 1 else 0))

def lengthSigner : Signer (documentLib lengthVerify).kms where
  key := zeroKey
  sign msg := "ed25519:" ++ if msg.length = 32 then onesText else zerosText
  verifies msg := by
    unfold verifyRaw
    rw [Auth.stripPrefix_append]
    by_cases h : msg.length = 32
    · simp only [if_pos h]
      show (if (List.replicate 64 (1 : UInt8)).length ≠ 64 then _ else Except.ok _) = _
      simp [documentLib, lengthVerify, h]
    · simp only [if_neg h]
      show (if (List.replicate 64 (0 : UInt8)).length ≠ 64 then _ else Except.ok _) = _
      simp [documentLib, lengthVerify, h]

def documentMade : SelfContainedUrl := ⟨documentData, documentCid, documentDid, ""⟩

theorem fromChip_document :
    SelfContainedUrl.fromChip (documentLib lengthVerify) documentChip documentCid documentDid "" =
      .ok documentMade := by
  have hsize : ¬ MAX_SELF_CONTAINED_URL_BYTES < documentMade.toUrlString.utf8ByteSize := by
    decide +kernel
  simp only [SelfContainedUrl.fromChip, documentLib, documentChip, if_true]
  exact if_neg hsize

theorem verifyingKeyFromDid_document (verify : Key → List UInt8 → List UInt8 → Bool) :
    verifyingKeyFromDid (documentLib verify).kms documentDid = .ok zeroKey := by
  unfold verifyingKeyFromDid Auth.verifyingKeyFromDidStrict documentDid
  rw [Auth.stripPrefix_append]
  rfl

theorem verifyRaw_of_verifySignature {verify : Key → List UInt8 → List UInt8 → Bool} {key : Key}
    {msg : List UInt8} {sig : String}
    (h : verifySignature (documentLib verify).toRichUrlLib key msg sig = true) :
    ∃ bytes, (stripPrefix "ed25519:" sig).map (documentLib verify).kms.base64 = some (.ok bytes) ∧
      verify key msg bytes = true := by
  have h := verifySignature_eq_true.mp h
  unfold verifyRaw at h
  split at h
  · cases h
  · next b64 hstrip =>
    split at h
    · cases h
    · next bytes hbytes =>
      split_ifs at h
      exact ⟨bytes, by rw [hstrip, Option.map_some, hbytes], Except.ok.inj h⟩

theorem signed_accepted_iff_document :
    SelfContainedUrl.parse
        (documentMade.signed (documentLib lengthVerify) .compatV1 lengthSigner).toUrlString =
      .ok (documentMade.signed (documentLib lengthVerify) .compatV1 lengthSigner) ∧
    ((documentMade.signed (documentLib lengthVerify) .compatV1 lengthSigner).Accepted
        (documentLib lengthVerify) ↔ nesting documentChip < RECURSION_LIMIT ∧
      CryptoMode.compatV1 = envCryptoMode (documentLib lengthVerify).toRichUrlLib ∧
        (CryptoMode.compatV1 = .compatV1 →
          v2Enforce (documentLib lengthVerify).toRichUrlLib none none = false)) := by
  refine signed_accepted_iff (documentLib lengthVerify) (lawful_documentLib lengthVerify)
    documentChip ?_ documentCid documentDid "" ?_ documentMade fromChip_document lengthSigner
    (verifyingKeyFromDid_document lengthVerify) .compatV1 fun sig => ?_
  · exact distinct_object ["@type"] (by decide) (List.Sublist.refl _) (by simp)
  · decide
  · rintro ⟨hv1, hv2⟩
    obtain ⟨bytes, hbytes, h1⟩ := verifyRaw_of_verifySignature hv1
    obtain ⟨bytes', hbytes', h2⟩ := verifyRaw_of_verifySignature hv2
    obtain rfl : bytes = bytes' := Except.ok.inj (Option.some.inj (hbytes.symm.trans hbytes'))
    have hsame := (of_decide_eq_true h1).symm.trans (of_decide_eq_true h2)
    revert hsame
    decide +kernel

def documentLink : SelfContainedUrl :=
  ⟨documentData, documentCid, documentDid, "ed25519:" ++ zerosText⟩

/-- What is signed for the link. -/
def linkMessage : List UInt8 := Utf8.utf8 URL_SIGN_DOMAIN ++
  (toNrf1Bytes Nrf.asciiText (Link.selfContained documentLink).payloadValue).toOption.getD []

/-- Nothing but that message has a signature. -/
def linkVerify (_ : Key) (msg _ : List UInt8) : Bool := decide (msg = linkMessage)

theorem writesKeys_document (verify : Key → List UInt8 → List UInt8 → Bool) :
    WritesKeys (documentLib verify).toVec := by
  intro members bytes h
  simp only [documentLib] at h
  split at h
  · next hmembers =>
    obtain rfl := Json.object.inj hmembers
    obtain rfl := Except.ok.inj h
    decide
  · cases h

def linkHolder : Holder (documentLib linkVerify).toRichUrlLib (documentLib linkVerify).toVec
    moduleDomains zeroKey where
  log := {.link (.selfContained documentLink) .compatV1}
  emitted _ h := by cases h
  made msg sig h := by
    obtain ⟨bytes, -, hverify⟩ := verifyRaw_of_verifySignature (verifySignature_eq_true.mpr h)
    exact ⟨_, rfl, _, rfl, of_decide_eq_true hverify⟩

theorem accepted_was_signed_document :
    ∃ sig chip, .link (.selfContained { documentLink with sig := sig })
        (envCryptoMode (documentLib linkVerify).toRichUrlLib) ∈ linkHolder.log ∧
      documentLink.extractChip (documentLib linkVerify) = .ok chip ∧
        cidOf (documentLib linkVerify).crypto chip = .ok documentLink.cid := by
  refine accepted_was_signed (documentLib linkVerify) (lawful_documentLib linkVerify).toAlphabets
    (writesKeys_document linkVerify) moduleDomains zeroKey linkHolder prefixFree_default
    (fun _ => List.length_replicate) documentLink (verifyingKeyFromDid_document linkVerify) ?_ ?_ ?_
    ?_
  · refine accepted_iff.mpr ⟨documentChip, zeroKey, ?_, ?_,
      verifyingKeyFromDid_document linkVerify, ?_⟩
    · simp [SelfContainedUrl.extractChip, documentLib, documentBase64, documentLink]
    · decide
    · decide +kernel
  · rintro ⟨purpose, hashed, text⟩ x s ⟨rfl, -, htext⟩ hs hx -
    obtain rfl := Set.mem_singleton_iff.mp hs
    obtain rfl := Option.some.inj hx
    rw [Entry.tagged, Entry.tagged]
    exact congrArg _ htext
  · unfold Link.Fits
    decide
  · rintro l mode hl
    obtain ⟨rfl, -⟩ := Signing.link.inj (Set.mem_singleton_iff.mp hl)
    unfold Link.Fits
    decide

end Ubl.Receipt
