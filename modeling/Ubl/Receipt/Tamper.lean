import Ubl.Receipt.Evolution

/-!
# Tamper evidence

The CID of a receipt with stages is the hash of its canonical bytes, and the canonical bytes
determine every hashed field: no field is dropped or normalised on the way, except that null
members inside `effects` do not count.  A receipt without stages has not been hashed yet.

    same CID, both verify, a stage is there  →  same fields        (sameFields_of_receiptCid)
-/

namespace Ubl.Receipt

open AssocMap
open Ubl.Nrf (Eqv present JsonFits)

/-! ## Reading the members back -/

section Members

theorem lookup_optional (key k : String) (value : Option Json) :
    (optional key value).lookup k = if k = key then value else none := by
  cases value with
  | none => simp [optional]
  | some v =>
    simp only [optional, Option.map_some, Option.toList_some]
    rw [lookup_cons_eq, List.lookup_nil]

theorem eqv_present {ms ns : List (String × Json)} (h : Eqv (.object ms) (.object ns))
    (k : String) : Option.Rel Eqv (present ms k) (present ns k) := by
  cases h with
  | object _ _ hkeys hvalues =>
    have hk := hkeys k
    cases hm : present ms k with
    | none =>
      rw [hm, Option.isSome_none, eq_comm, Option.isSome_eq_false_iff,
        Option.isNone_iff_eq_none] at hk
      rw [hk]
      exact .none
    | some u =>
      rw [hm, Option.isSome_some, eq_comm, Option.isSome_iff_exists] at hk
      obtain ⟨v, hv⟩ := hk
      rw [hv]
      exact .some (hvalues k u v hm hv)

/-- `f` can be read back from the JSON value. -/
def Readable {α : Type} (f : α → Json) : Prop :=
  (∀ a, (f a).isNull = false) ∧ ∀ a b, Eqv (f a) (f b) → a = b

theorem readable_string : Readable .string := by
  refine ⟨fun _ => rfl, fun a b h => ?_⟩
  cases h
  rfl

theorem readable_bool : Readable .bool := by
  refine ⟨fun _ => rfl, fun a b h => ?_⟩
  cases h
  rfl

theorem readable_number {α : Type} {f : α → Number} (hf : Function.Injective f) :
    Readable fun a => .number (f a) := by
  have hnumber {m n : Number} (h : Eqv (.number m) (.number n)) : m = n := by
    cases h
    rfl
  exact ⟨fun _ => rfl, fun a b h => hf (hnumber h)⟩

theorem readable_array {α : Type} {f : α → Json} (hf : Readable f) :
    Readable fun items : List α => .array (items.map f) := by
  refine ⟨fun _ => rfl, fun xs ys h => ?_⟩
  cases h with
  | array _ _ hlen hitems =>
    rw [List.length_map, List.length_map] at hlen
    refine List.ext_getElem hlen fun i hi hi' => hf.2 _ _ (hitems i _ _ ?_ ?_)
    · rw [List.getElem?_map, List.getElem?_eq_getElem hi, Option.map_some]
    · rw [List.getElem?_map, List.getElem?_eq_getElem hi', Option.map_some]

theorem ofI64_injective : Function.Injective Number.ofI64 := by
  intro i j h
  unfold Number.ofI64 at h
  split_ifs at h
  · exact (Number.negInt.inj h)
  · have h := Number.posInt.inj h
    have := congrArg UInt64.toInt64 h
    simpa using this

theorem posInt_injective : Function.Injective Number.posInt := fun _ _ h => Number.posInt.inj h

/-- A member that is written with `f` whenever it is there. -/
theorem read_optional {α : Type} {f : α → Json} (hf : Readable f) {ms ns : List (String × Json)}
    (h : Eqv (.object ms) (.object ns)) (k : String) {o o' : Option α}
    (hm : ms.lookup k = o.map f) (hn : ns.lookup k = o'.map f) : o = o' := by
  have hpresent {l : List (String × Json)} {p : Option α} (hl : l.lookup k = p.map f) :
      present l k = p.map f := by
    rw [present, hl]
    cases p with
    | none => rfl
    | some a => simp [Option.filter, hf.1 a]
  have hrel := eqv_present h k
  rw [hpresent hm, hpresent hn] at hrel
  cases o with
  | none =>
    cases o' with
    | none => rfl
    | some b => cases hrel
  | some a =>
    cases o' with
    | none => cases hrel
    | some b =>
      cases hrel with
      | some heqv => rw [hf.2 a b heqv]

theorem read_member {α : Type} {f : α → Json} (hf : Readable f) {ms ns : List (String × Json)}
    (h : Eqv (.object ms) (.object ns)) (k : String) {a b : α}
    (hm : ms.lookup k = some (f a)) (hn : ns.lookup k = some (f b)) : a = b :=
  Option.some.inj (@read_optional α f hf ms ns h k (some a) (some b) hm hn)

/-- A member that is left out when `g` of the value is empty. -/
theorem read_unlessEmpty {α β : Type} {f : α → Json} (hf : Readable f) {g : α → List β}
    (hg : ∀ a b, g a = [] → g b = [] → a = b) {ms ns : List (String × Json)}
    (h : Eqv (.object ms) (.object ns)) (k : String) {a b : α}
    (hm : ms.lookup k = unlessEmpty (g a) (f a)) (hn : ns.lookup k = unlessEmpty (g b) (f b)) :
    a = b := by
  have hmap (x : α) : unlessEmpty (g x) (f x) = (if g x = [] then none else some x).map f := by
    unfold unlessEmpty
    split_ifs <;> rfl
  rw [hmap] at hm hn
  have heq := read_optional hf h k hm hn
  by_cases ha : g a = [] <;> by_cases hb : g b = []
  · exact hg a b ha hb
  · simp [ha, hb] at heq
  · simp [ha, hb] at heq
  · simpa [ha, hb] using heq

end Members

/-! ## Every field can be read back -/

section Fields

theorem readable_decision : Readable decisionJson := by
  refine ⟨fun _ => rfl, fun a b h => ?_⟩
  have h := readable_string.2 _ _ h
  cases a <;> cases b <;> first | rfl | exact absurd h (by decide)

theorem RbResult.readable : Readable RbResult.toJson := by
  refine ⟨fun _ => rfl, fun a b h => ?_⟩
  exact RbResult.ext (read_member readable_string h "rb_id" (by rfl) (by rfl))
    (read_member readable_decision h "decision" (by rfl) (by rfl))
    (read_member readable_string h "reason" (by rfl) (by rfl))
    (read_member (readable_array readable_string) h "inputs_used" (by rfl) (by rfl))
    (read_member (readable_number posInt_injective) h "duration_nanos" (by rfl) (by rfl))

theorem PolicyTraceEntry.readable : Readable PolicyTraceEntry.toJson := by
  refine ⟨fun _ => rfl, fun a b h => ?_⟩
  exact PolicyTraceEntry.ext (read_member readable_string h "level" (by rfl) (by rfl))
    (read_member readable_string h "policy_id" (by rfl) (by rfl))
    (read_member readable_decision h "result" (by rfl) (by rfl))
    (read_member readable_string h "reason" (by rfl) (by rfl))
    (read_member (readable_array RbResult.readable) h "rb_results" (by rfl) (by rfl))
    (read_member (readable_number ofI64_injective) h "duration_ms" (by rfl) (by rfl))

theorem PipelineStage.asStr_injective : Function.Injective PipelineStage.asStr := by
  intro a b h
  cases a <;> cases b <;> first | rfl | exact absurd h (by decide)

theorem readable_stage : Readable fun s : PipelineStage => .string s.asStr :=
  ⟨fun _ => rfl, fun _ _ h => PipelineStage.asStr_injective (readable_string.2 _ _ h)⟩

/-- `None` written as null reads like a missing member. -/
theorem read_stringOrNull {ms ns : List (String × Json)} (h : Eqv (.object ms) (.object ns))
    (k : String) {o o' : Option String} (hm : ms.lookup k = some (stringOrNull o))
    (hn : ns.lookup k = some (stringOrNull o')) : o = o' := by
  have hrel := eqv_present h k
  rw [present, present, hm, hn] at hrel
  cases o with
  | none =>
    cases o' with
    | none => rfl
    | some b => cases hrel
  | some a =>
    cases o' with
    | none => cases hrel
    | some b =>
      cases hrel with
      | some heqv => rw [readable_string.2 a b heqv]

theorem StageExecution.readable : Readable StageExecution.toJson := by
  refine ⟨fun _ => rfl, fun a b h => ?_⟩
  have hlookup (s : StageExecution) : ∃ ms, s.toJson = .object ms ∧
      ms.lookup "stage" = some (.string s.stage.asStr) ∧
      ms.lookup "timestamp" = some (.string s.timestamp) ∧
      ms.lookup "input_cid" = some (.string s.inputCid) ∧
      ms.lookup "output_cid" = some (stringOrNull s.outputCid) ∧
      ms.lookup "fuel_used" = s.fuelUsed.map (fun n => .number (.posInt n)) ∧
      ms.lookup "policy_trace" =
        unlessEmpty s.policyTrace (.array (s.policyTrace.map PolicyTraceEntry.toJson)) ∧
      ms.lookup "vm_sig" = s.vmSig.map .string ∧
      ms.lookup "vm_sig_payload_cid" = s.vmSigPayloadCid.map .string ∧
      ms.lookup "auth_token" = some (.string s.authToken) ∧
      ms.lookup "duration_ms" = some (.number (.ofI64 s.durationMs)) := by
    refine ⟨_, rfl, ?_⟩
    simp [List.lookup_append, lookup_optional, lookup_cons_eq]
  obtain ⟨ms, hms, a1, a2, a3, a4, a5, a6, a7, a8, a9, a10⟩ := hlookup a
  obtain ⟨ns, hns, b1, b2, b3, b4, b5, b6, b7, b8, b9, b10⟩ := hlookup b
  rw [hms, hns] at h
  exact StageExecution.ext (read_member readable_stage h _ a1 b1)
    (read_member readable_string h _ a2 b2) (read_member readable_string h _ a3 b3)
    (read_stringOrNull h _ a4 b4) (read_optional (readable_number posInt_injective) h _ a5 b5)
    (read_unlessEmpty (readable_array PolicyTraceEntry.readable) (g := id)
      (fun _ _ ha hb => ha.trans hb.symm) h _ a6 b6)
    (read_optional readable_string h _ a7 b7) (read_optional readable_string h _ a8 b8)
    (read_member readable_string h _ a9 b9)
    (read_member (readable_number ofI64_injective) h _ a10 b10)

theorem Labels.readable : Readable Labels.toJson := by
  refine ⟨fun _ => rfl, fun a b h => Labels.ext ?_⟩
  have hlookup (l : Labels) (k : String) :
      (l.entries.map fun e => (e.1, Json.string e.2)).lookup k = (l.entries.lookup k).map .string := by
    induction l.entries with
    | nil => rfl
    | cons e entries ih =>
      rw [List.map_cons, lookup_cons_eq, lookup_cons_eq, ih]
      split_ifs <;> rfl
  exact a.ascending.ext_lookup b.ascending fun k =>
    read_optional readable_string h k (hlookup a k) (hlookup b k)

theorem BuildMeta.readable : Readable BuildMeta.toJson := by
  refine ⟨fun _ => rfl, fun a b h => ?_⟩
  have hlookup (m : BuildMeta) : ∃ ms, m.toJson = .object ms ∧
      ms.lookup "rustc" = some (.string m.rustc) ∧ ms.lookup "os" = some (.string m.os) ∧
      ms.lookup "arch" = some (.string m.arch) ∧ ms.lookup "profile" = some (.string m.profile) ∧
      ms.lookup "git_commit" = m.gitCommit.map .string ∧
      ms.lookup "git_dirty" = m.gitDirty.map .bool := by
    refine ⟨_, rfl, ?_⟩
    simp [List.lookup_append, lookup_optional, lookup_cons_eq]
  obtain ⟨ms, hms, a1, a2, a3, a4, a5, a6⟩ := hlookup a
  obtain ⟨ns, hns, b1, b2, b3, b4, b5, b6⟩ := hlookup b
  rw [hms, hns] at h
  exact BuildMeta.ext (read_member readable_string h _ a1 b1)
    (read_member readable_string h _ a2 b2) (read_member readable_string h _ a3 b3)
    (read_member readable_string h _ a4 b4) (read_optional readable_string h _ a5 b5)
    (read_optional readable_bool h _ a6 b6)

theorem RuntimeInfo.readable : Readable RuntimeInfo.toJson := by
  refine ⟨fun _ => rfl, fun a b h => ?_⟩
  have hlookup (rt : RuntimeInfo) : ∃ ms, rt.toJson = .object ms ∧
      ms.lookup "binary_hash" = some (.string rt.binaryHash) ∧
      ms.lookup "runtime_hash" = unlessEmpty rt.runtimeHash.toList (.string rt.runtimeHash) ∧
      ms.lookup "version" = some (.string rt.version) ∧
      ms.lookup "build" = some rt.build.toJson ∧
      ms.lookup "env" = unlessEmpty rt.env.entries rt.env.toJson ∧
      ms.lookup "certs" = unlessEmpty rt.certs.entries rt.certs.toJson := by
    refine ⟨_, rfl, ?_⟩
    simp [List.lookup_append, lookup_optional, lookup_cons_eq]
  have hempty (a b : Labels) (ha : a.entries = []) (hb : b.entries = []) : a = b :=
    Labels.ext (ha.trans hb.symm)
  obtain ⟨ms, hms, a1, a2, a3, a4, a5, a6⟩ := hlookup a
  obtain ⟨ns, hns, b1, b2, b3, b4, b5, b6⟩ := hlookup b
  rw [hms, hns] at h
  exact RuntimeInfo.ext (read_member readable_string h _ a1 b1)
    (read_unlessEmpty readable_string (g := String.toList)
      (fun _ _ ha hb => String.toList_injective (ha.trans hb.symm)) h _ a2 b2)
    (read_member readable_string h _ a3 b3) (read_member BuildMeta.readable h _ a4 b4)
    (read_unlessEmpty Labels.readable hempty h _ a5 b5)
    (read_unlessEmpty Labels.readable hempty h _ a6 b6)

/-- The same in every field but `sig`, `receiptCid` and `id`; null members inside `effects` and
the order of members do not count. -/
structure SameFields (a b : UnifiedReceipt) : Prop where
  receiptType : a.receiptType = b.receiptType
  ver : a.ver = b.ver
  world : a.world = b.world
  v : a.v = b.v
  t : a.t = b.t
  did : a.did = b.did
  subjectDid : a.subjectDid = b.subjectDid
  kid : a.kid = b.kid
  nonce : a.nonce = b.nonce
  stages : a.stages = b.stages
  decision : a.decision = b.decision
  effects : Eqv a.effects b.effects
  prevReceiptCid : a.prevReceiptCid = b.prevReceiptCid
  knockCid : a.knockCid = b.knockCid
  rt : a.rt = b.rt

theorem read_effects {ms ns : List (String × Json)} (h : Eqv (.object ms) (.object ns))
    (k : String) {x y : Json} (hm : ms.lookup k = some x) (hn : ns.lookup k = some y) :
    Eqv x y := by
  have hrel := eqv_present h k
  rw [present, present, hm, hn] at hrel
  by_cases hx : x.isNull <;> by_cases hy : y.isNull
  · rw [Json.isNull_iff.mp hx, Json.isNull_iff.mp hy]
    exact .null
  all_goals
    simp only [Option.filter, hx, hy] at hrel
    cases hrel
  assumption

theorem sameFields_of_eqv {a b : UnifiedReceipt} (h : Eqv a.payload b.payload) :
    SameFields a b := by
  have hlookup (r : UnifiedReceipt) : ∃ ms, r.payload = .object ms ∧
      ms.lookup "@type" = some (.string r.receiptType) ∧ ms.lookup "@ver" = some (.string r.ver) ∧
      ms.lookup "@world" = some (.string r.world) ∧
      ms.lookup "v" = some (.number (.posInt r.v.toUInt64)) ∧ ms.lookup "t" = some (.string r.t) ∧
      ms.lookup "did" = some (.string r.did) ∧
      ms.lookup "subject_did" = r.subjectDid.map .string ∧
      ms.lookup "kid" = some (.string r.kid) ∧ ms.lookup "nonce" = some (.string r.nonce) ∧
      ms.lookup "stages" = some (.array (r.stages.map StageExecution.toJson)) ∧
      ms.lookup "decision" = some (decisionJson r.decision) ∧
      ms.lookup "effects" = some r.effects ∧
      ms.lookup "prev_receipt_cid" = r.prevReceiptCid.map .string ∧
      ms.lookup "knock_cid" = r.knockCid.map .string ∧
      ms.lookup "rt" = r.rt.map RuntimeInfo.toJson := by
    refine ⟨_, rfl, ?_⟩
    simp [List.lookup_append, lookup_optional, lookup_cons_eq]
  have hv : Function.Injective fun n : UInt32 => Number.posInt n.toUInt64 := by
    intro m n hmn
    have hmn := congrArg UInt64.toNat (posInt_injective hmn)
    exact UInt32.toNat_inj.mp (by simpa using hmn)
  obtain ⟨ms, hms, a1, a2, a3, a4, a5, a6, a7, a8, a9, a10, a11, a12, a13, a14, a15⟩ := hlookup a
  obtain ⟨ns, hns, b1, b2, b3, b4, b5, b6, b7, b8, b9, b10, b11, b12, b13, b14, b15⟩ := hlookup b
  rw [hms, hns] at h
  exact
    { receiptType := read_member readable_string h _ a1 b1
      ver := read_member readable_string h _ a2 b2
      world := read_member readable_string h _ a3 b3
      v := read_member (readable_number hv) h _ a4 b4
      t := read_member readable_string h _ a5 b5
      did := read_member readable_string h _ a6 b6
      subjectDid := read_optional readable_string h _ a7 b7
      kid := read_member readable_string h _ a8 b8
      nonce := read_member readable_string h _ a9 b9
      stages := read_member (readable_array StageExecution.readable) h _ a10 b10
      decision := read_member readable_decision h _ a11 b11
      effects := read_effects h _ a12 b12
      prevReceiptCid := read_optional readable_string h _ a13 b13
      knockCid := read_optional readable_string h _ a14 b14
      rt := read_optional RuntimeInfo.readable h _ a15 b15 }

end Fields

/-! ## The CID binds the receipt -/

namespace UnifiedReceipt

/-- What passes verification and has a stage carries the CID of its payload. -/
theorem Verified.cidOf_payload {c : Crypto} {r : UnifiedReceipt} {K : Set Key}
    (h : Verified c r K) (hstages : r.stages ≠ []) : cidOf c r.payload = .ok r.receiptCid := by
  rw [← h.cid]
  exact cidAt_eq hstages (h.encodes hstages)

theorem bytes_of_cidOf {c : Crypto} {j : Json} {cid : String} (h : cidOf c j = .ok cid) :
    ∃ bytes, Nrf.toNrf1Bytes c.text j = .ok bytes ∧ cid = "b3:" ++ Hex.encode (c.blake3 bytes) := by
  unfold cidOf at h
  split at h
  · cases h
  · next bytes hbytes => exact ⟨bytes, hbytes, (Except.ok.inj h).symm⟩

/-- Two verified receipts with the same CID are the same receipt, once there is a stage. -/
theorem sameFields_of_receiptCid (c : Crypto) (hhash : Function.Injective c.blake3)
    (a b : UnifiedReceipt) (hfa : JsonFits a.payload) (hfb : JsonFits b.payload)
    (currentKey : Key) (previousKey : Option Key)
    (ha : verifyAuthChainWithKeys c a currentKey previousKey = .ok true)
    (hb : verifyAuthChainWithKeys c b currentKey previousKey = .ok true)
    (hcid : a.receiptCid = b.receiptCid) (hstages : a.stages ≠ []) : SameFields a b := by
  have ha := verifyAuthChainWithKeys_eq_true.mp ha
  have hb := verifyAuthChainWithKeys_eq_true.mp hb
  have hca := ha.cidOf_payload hstages
  have hstages' : b.stages ≠ [] := by
    intro hnil
    exact cid_ne_empty hca (hcid.trans (hb.receiptCid_of_no_stages hnil))
  obtain ⟨x, hx, hax⟩ := bytes_of_cidOf hca
  obtain ⟨y, hy, hby⟩ := bytes_of_cidOf (hb.cidOf_payload hstages')
  have hbytes : x = y := by
    have heq := hax.symm.trans (hcid.trans hby)
    exact hhash (Hex.encode_injective (String.append_right_inj _ |>.mp heq))
  subst hbytes
  exact sameFields_of_eqv (Nrf.eqv_of_toNrf1Bytes payload_distinct payload_distinct hfa hfb hx hy)

/-! ## Samples -/

/-- With the bytes themselves in place of their hash. -/
def plainCrypto : Crypto := { Evolution.sampleCrypto with blake3 := fun bytes => bytes }

/-- The key of the secret `s0`. -/
def sampleKey : Key := paddedKey (Utf8.utf8 "s0")

/-- A receipt with one stage under `sampleKey`, still without its CID. -/
def sampleBody (effects : Json) (heffects : effects.DistinctKeys) (sig : String) :
    UnifiedReceipt :=
  { Evolution.sampleReceipt with
    stages := [{ Evolution.sampleStage with
      authToken := "hmac:41577c7c736973656e65670000000000" }]
    effects := effects
    effects_distinct := heffects
    sig := sig }

/-- The receipt with the CID of its payload. -/
def withCid (c : Crypto) (r : UnifiedReceipt) : UnifiedReceipt :=
  { r with receiptCid := (cidOf c r.payload).toOption.getD "" }

theorem verifies_withCid {c : Crypto} {r : UnifiedReceipt} {stage : StageExecution} {key : Key}
    (hstages : r.stages = [stage])
    (htoken : stage.authToken = computeAuthTokenWithKey c "genesis" stage.stage.asStr key)
    (henc : (cidOf c r.payload).isOk = true) :
    verifyAuthChainWithKeys c (withCid c r) key none = .ok true := by
  have hencodes : Encodes c (withCid c r) (withCid c r).stages := Evolution.encodes_of_isOk henc
  have hstages' : (withCid c r).stages = [stage] := hstages
  refine verifyAuthChainWithKeys_eq_true.mpr ⟨fun _ => hencodes, ?_, ?_⟩
  · rw [hstages']
    exact ⟨⟨key, Or.inl rfl, htoken⟩, trivial⟩
  · have hne : (withCid c r).stages ≠ [] := by simp [hstages']
    rw [cidAt, if_neg hne]
    rfl

def emptyEffects : UnifiedReceipt := sampleBody (.object []) noEffects_distinct ""

def signedEffects : UnifiedReceipt := sampleBody (.object []) noEffects_distinct "ed25519:00"

/-- `effects` is `{"note": null}`. -/
def nullEffects : UnifiedReceipt :=
  sampleBody (.object [("note", .null)]) (.object _ (List.nodup_singleton _) (by simp)) ""

theorem sampleToken : "hmac:41577c7c736973656e65670000000000" =
    computeAuthTokenWithKey plainCrypto "genesis" PipelineStage.writeAhead.asStr sampleKey := by
  decide

theorem verifies_emptyEffects :
    verifyAuthChainWithKeys plainCrypto (withCid plainCrypto emptyEffects) sampleKey none =
      .ok true :=
  verifies_withCid rfl sampleToken (by decide)

theorem sameFields_of_receiptCid_signed :
    (withCid plainCrypto emptyEffects).receiptCid = (withCid plainCrypto signedEffects).receiptCid ∧
      SameFields (withCid plainCrypto emptyEffects) (withCid plainCrypto signedEffects) := by
  have hsigned : verifyAuthChainWithKeys plainCrypto (withCid plainCrypto signedEffects) sampleKey
      none = .ok true := verifies_withCid rfl sampleToken (by decide)
  have hcid : (withCid plainCrypto emptyEffects).receiptCid =
      (withCid plainCrypto signedEffects).receiptCid := rfl
  exact ⟨hcid, sameFields_of_receiptCid plainCrypto (fun _ _ h => h) _ _ (by decide)
    (by decide) sampleKey none verifies_emptyEffects hsigned hcid (by simp [withCid,
      emptyEffects, sampleBody])⟩

/-- Receipts without stages all share the empty CID, whatever their fields; and a null member
of `effects` leaves the CID as it is. -/
theorem receiptCid_not_binding :
    Function.Injective plainCrypto.blake3 ∧
    (∃ a b : UnifiedReceipt, verifyAuthChainWithKeys plainCrypto a sampleKey none = .ok true ∧
      verifyAuthChainWithKeys plainCrypto b sampleKey none = .ok true ∧
      a.receiptCid = b.receiptCid ∧ a.world ≠ b.world) ∧
    ∃ a b : UnifiedReceipt, verifyAuthChainWithKeys plainCrypto a sampleKey none = .ok true ∧
      verifyAuthChainWithKeys plainCrypto b sampleKey none = .ok true ∧
      a.receiptCid = b.receiptCid ∧
      (a.effects.get "note").isSome ≠ (b.effects.get "note").isSome := by
  have hnull : verifyAuthChainWithKeys plainCrypto (withCid plainCrypto nullEffects) sampleKey
      none = .ok true := verifies_withCid rfl sampleToken (by decide)
  have hbytes : (Nrf.toNrf1Bytes plainCrypto.text emptyEffects.payload).toOption =
      (Nrf.toNrf1Bytes plainCrypto.text nullEffects.payload).toOption := by
    decide +kernel
  have hcid (r : UnifiedReceipt) : (withCid plainCrypto r).receiptCid =
      ((Nrf.toNrf1Bytes plainCrypto.text r.payload).toOption.map
        fun nrf => "b3:" ++ Hex.encode (plainCrypto.blake3 nrf)).getD "" := by
    simp only [withCid, cidOf]
    cases Nrf.toNrf1Bytes plainCrypto.text r.payload <;> rfl
  refine ⟨fun _ _ h => h, ⟨Evolution.sampleReceipt, { Evolution.sampleReceipt with
    world := "a/other/t/prod" }, rfl, rfl, rfl, by decide⟩, _, _, verifies_emptyEffects, hnull, ?_,
    by decide⟩
  rw [hcid, hcid, hbytes]

end UnifiedReceipt

end Ubl.Receipt
