import Ubl.Pipeline.Commits
import Ubl.Receipt.ReadBack

/-!
# `receipt.rs` of the gate: serving committed receipts

The gate checks the token chain of a receipt before it serves it.  It takes the secrets from the
environment (`verify_auth_chain`), while the pipeline signs under secrets that start out from the
environment, the durable row or the signing key, and that every `ubl/key.rotate` replaces.

    the stages of a run are signed under keys of the gate  →  its receipts are served
                                                              (receipts_served)
-/

namespace Ubl.Gate

open Ubl.Pipeline
open Ubl.Receipt (Crypto Key StageSecrets UnifiedReceipt keyFromSecretStr STAGE_SECRET_ENV
  STAGE_SECRET_PREV_ENV)
open Ubl.Receipt.UnifiedReceipt (Verified keySet invalidSecret)
open Relation (ReflTransGen)

/-! ## The environment -/

/-- `std::env::VarError`. -/
inductive VarError where
  | notPresent
  | notUnicode
deriving DecidableEq

/-- The two variables of the stage secrets. -/
structure StageEnv where
  stageSecret : Except VarError String
  stageSecretPrev : Except VarError String

def loadRequiredStageSecretKey (c : Crypto) (env : StageEnv) :
    Except Receipt.ReceiptError Key :=
  match env.stageSecret with
  | .error _ => .error (.authChainBroken
      (STAGE_SECRET_ENV ++ " is not set; configure a stage secret"))
  | .ok raw => (keyFromSecretStr c raw).mapError (invalidSecret STAGE_SECRET_ENV)

def loadOptionalStageSecretKey (c : Crypto) (env : StageEnv) :
    Except Receipt.ReceiptError (Option Key) :=
  match env.stageSecretPrev with
  | .ok raw => ((keyFromSecretStr c raw).map some).mapError (invalidSecret STAGE_SECRET_PREV_ENV)
  | .error .notPresent => .ok none
  | .error .notUnicode => .error (.authChainBroken
      ("failed reading " ++ STAGE_SECRET_PREV_ENV ++ ": environment variable was not valid unicode"))

def verifyAuthChain (c : Crypto) (env : StageEnv) (r : UnifiedReceipt) : Bool :=
  match loadRequiredStageSecretKey c env with
  | .error _ => false
  | .ok currentKey =>
    match loadOptionalStageSecretKey c env with
    | .error _ => false
    | .ok previousKey =>
      (r.verifyAuthChainWithKeys c currentKey previousKey).toOption.getD false

/-! ## The gate -/

/-- `TAMPER_DETECTED`, with the reason among its details. -/
structure TamperError where
  message : String
  receiptCid : String
  reason : String
deriving DecidableEq

section

variable (rt : Runtime) (env : StageEnv)

def verifyReceiptAuthChain (receiptCid : String) (receiptJson : Json) : Except TamperError Unit :=
  match rt.fromJson receiptJson with
  | .error e => .error ⟨"receipt " ++ receiptCid ++ " parse failed: " ++ e, receiptCid,
      "receipt_parse_failed"⟩
  | .ok receipt =>
    if verifyAuthChain rt.crypto env receipt then .ok ()
    else .error ⟨"receipt " ++ receiptCid ++ " auth chain broken", receiptCid, "auth_chain_broken"⟩

/-- The answers of `GET /v1/receipts/:cid`. -/
inductive GetReceipt where
  | invalidCid
  | notModified
  | unavailable
  | tamperDetected (e : TamperError)
  | served (receipt : Json)
  | notFound
  | internalError (message : String)

/-- `s.trim_matches('"')`. -/
def trimQuotes (s : String) : String :=
  String.ofList (((s.toList.dropWhile (· == '"')).reverse.dropWhile (· == '"')).reverse)

/-- `ifNoneMatch` is the header where it is text. -/
def getReceipt (store : Option (DurableStore Json)) (fault : Option DurableError)
    (ifNoneMatch : Option String) (cid : String) : GetReceipt :=
  if !"b3:".toList.isPrefixOf cid.toList then .invalidCid
  else if ifNoneMatch.any fun inm => inm == "\"" ++ cid ++ "\"" || trimQuotes inm == cid then
    .notModified
  else
    match store with
    | none => .unavailable
    | some store =>
      match store.getReceipt .values fault cid with
      | .error e => .internalError ("Receipt fetch failed: " ++ e.text)
      | .ok none => .notFound
      | .ok (some receipt) =>
        match verifyReceiptAuthChain rt env cid receipt with
        | .error e => .tamperDetected e
        | .ok () => .served receipt

/-! ## Starting up, and running -/

/-- `PipelineConfig::from_env`. -/
def configFromEnv : StageSecrets :=
  ⟨env.stageSecret.toOption.getD "", env.stageSecretPrev.toOption⟩

/-- `row` is what the durable store answers; a failure counts as no row. -/
def applyPersistedStageSecrets (row : Option StageSecrets) (config : StageSecrets) : StageSecrets :=
  row.getD config

def ensureStageSecretConfig (config : StageSecrets) : StageSecrets :=
  if config.current = "" then
    { config with current := deriveStageSecret rt.crypto rt.signingSeed }
  else config

/-- The secrets after a start; `readable` says whether the durable row could be read. -/
def startupSecrets (readable : Bool) (d : DurableStore Json) : StageSecrets :=
  ensureStageSecretConfig rt (applyPersistedStageSecrets
    (if rt.hasDurableStore && readable then d.stageSecrets else none) (configFromEnv env))

/-- What a restart leaves of the state: the stores. -/
def restarted (readable : Bool) (s : PipelineState) : PipelineState where
  chips := s.chips
  stageSecrets := startupSecrets rt env readable s.durable
  idempotency := []
  durable := s.durable
  seenNonces := []
  advisoryCounter := 0

inductive PipelineRequest where
  | chip (out : Outside) (ctx : AuthorshipContext) (request : ChipRequest)
  | knockRejection (out : Outside) (knockCid reasonCode reason anonymous : String)
      (subjectDidHint : Option String)

def PipelineRequest.body : PipelineRequest → Process PipelineResult
  | .chip out ctx request => processChipWithContext rt out ctx request
  | .knockRejection out knockCid reasonCode reason anonymous hint =>
    processKnockRejection rt out knockCid reasonCode reason anonymous hint

abbrev GateState := Pool PipelineRequest Action PipelineState PipelineError PipelineResult

/-- A request comes in, a request acts, or the gate is started again and drops what was under
way.  The label is that of the act. -/
inductive Step (p : GateState) : Option Action → GateState → Prop
  | arrives (request : PipelineRequest) :
      Step p none (p.arrive (PipelineRequest.body rt) request)
  | acts {i : Nat} {label : Action} {p' : GateState} (h : p.Act i label p') : Step p (some label) p'
  | restarts (readable : Bool) : Step p none ⟨[], restarted rt env readable p.shared⟩

/-- A run in which every act finds a state with `R`. -/
def Run (R : Action → PipelineState → Prop) : GateState → GateState → Prop :=
  ReflTransGen fun p p' => ∃ label, Step rt env p label p' ∧ ∀ a ∈ label, R a p.shared

/-- The keys the gate verifies with. -/
def gateKeys (c : Crypto) (env : StageEnv) : Set Key :=
  {k | ∃ current previous, loadRequiredStageSecretKey c env = .ok current ∧
    loadOptionalStageSecretKey c env = .ok previous ∧ k ∈ keySet current previous}

/-- The gate answers for the receipt: it serves it, and in no circumstances takes it for tampered
with. -/
structure Served (d : DurableStore Json) (row : ReceiptRow Json) : Prop where
  verifies : verifyReceiptAuthChain rt env row.receiptCid row.bodyJson = .ok ()
  served : getReceipt rt env (some d) none none row.receiptCid = .served row.bodyJson
  not_tampered : ∀ fault ifNoneMatch e,
    getReceipt rt env (some d) fault ifNoneMatch row.receiptCid ≠ .tamperDetected e

end

/-! ## Committed receipts are served -/

section

variable {rt : Runtime} {env : StageEnv}

/-- A receipt with a stage under the keys of the gate passes at the gate. -/
theorem verifyAuthChain_of_verified {c : Crypto} {r : UnifiedReceipt}
    (h : Verified c r (gateKeys c env)) (hstages : r.stages ≠ []) :
    verifyAuthChain c env r = true := by
  obtain ⟨stage, rest, hcons⟩ := List.exists_cons_of_ne_nil hstages
  have hchained := h.chained
  rw [hcons] at hchained
  obtain ⟨-, ⟨current, previous, hcurrent, hprevious, -⟩, -⟩ := hchained.1
  have hkeys : gateKeys c env ⊆ keySet current previous := by
    rintro k ⟨current', previous', hcurrent', hprevious', hk⟩
    obtain rfl := Except.ok.inj (hcurrent.symm.trans hcurrent')
    obtain rfl := Except.ok.inj (hprevious.symm.trans hprevious')
    exact hk
  rw [verifyAuthChain, hcurrent, hprevious]
  simp only
  rw [UnifiedReceipt.verifyAuthChainWithKeys_eq_true.mpr (h.mono hkeys)]
  rfl

variable (hround : ∀ r : UnifiedReceipt, rt.fromJson r.toJson = .ok r)

include hround

theorem verifyReceiptAuthChain_of_attested {row : ReceiptRow Json}
    (h : Attested rt.crypto (gateKeys rt.crypto env) row) :
    verifyReceiptAuthChain rt env row.receiptCid row.bodyJson = .ok () := by
  obtain ⟨r, hjson, -, hv, hstages⟩ := h
  rw [verifyReceiptAuthChain, hjson, hround]
  simp only
  rw [if_pos (verifyAuthChain_of_verified hv hstages)]

omit hround in
theorem isPrefixOf_append_left (l l' : List Char) : l.isPrefixOf (l ++ l') = true := by
  rw [List.isPrefixOf_iff_prefix]
  exact List.prefix_append l l'

omit hround in
theorem prefix_of_attested {c : Crypto} {K : Set Key} {row : ReceiptRow Json} (h : Attested c K row) :
    "b3:".toList.isPrefixOf row.receiptCid.toList = true := by
  obtain ⟨r, -, hcid, hv, hstages⟩ := h
  obtain ⟨bytes, -, hb3⟩ := UnifiedReceipt.bytes_of_cidOf (hv.cidOf_payload hstages)
  rw [hcid, hb3, String.toList_append]
  exact isPrefixOf_append_left _ _

/-- The invariant of a run: what was not in the store at its start is attested, and is what the
store has under its CID. -/
def NewAttested (c : Crypto) (K : Set Key) (start : List (ReceiptRow Json)) (s : PipelineState) : Prop :=
  ∀ row ∈ s.durable.receipts, row ∈ start ∨
    Attested c K row ∧ s.durable.receiptOf row.receiptCid = some row.bodyJson

omit hround in
theorem NewAttested.step {c : Crypto} {K : Set Key} {start : List (ReceiptRow Json)}
    {s s' : PipelineState} (h : NewAttested c K start s) (hG : CommitsAttested c K s s') :
    NewAttested c K start s' := by
  rcases hG with hsame | ⟨row, hrows, hattested, hold⟩
  · intro row hrow
    rw [hsame] at hrow
    rcases h row hrow with hstart | ⟨hattested, hfind⟩
    · exact .inl hstart
    · exact .inr ⟨hattested, by rw [DurableStore.receiptOf, hsame]; exact hfind⟩
  · intro row' hrow'
    rw [hrows] at hrow'
    rcases List.mem_append.mp hrow' with hrow' | hrow'
    · rcases h row' hrow' with hstart | ⟨hattested', hfind⟩
      · exact .inl hstart
      · refine .inr ⟨hattested', ?_⟩
        rw [DurableStore.receiptOf, Option.map_eq_some_iff] at hfind
        obtain ⟨found, hfound, hbody⟩ := hfind
        rw [DurableStore.receiptOf, hrows, List.find?_append, hfound]
        exact congrArg some hbody
    · obtain rfl := List.mem_singleton.mp hrow'
      refine .inr ⟨hattested, ?_⟩
      have hnone : (s.durable.receipts.find? fun old => old.receiptCid == row'.receiptCid) = none :=
        List.find?_eq_none.mpr fun old hmem heq => hold old hmem (eq_of_beq heq)
      rw [DurableStore.receiptOf, hrows, List.find?_append, hnone]
      simp

omit hround in
/-- The invariant along a run, together with what the requests under way still promise. -/
theorem newAttested_run (hlawful : rt.crypto.text.Lawful) {start : List (ReceiptRow Json)}
    {p p' : GateState}
    (hrun : Run rt env (SignsUnder rt.crypto (gateKeys rt.crypto env)) p p')
    (hthreads : p.threads = [])
    (h : NewAttested rt.crypto (gateKeys rt.crypto env) start p.shared) :
    p'.Promising (SignsUnder rt.crypto (gateKeys rt.crypto env))
        (CommitsAttested rt.crypto (gateKeys rt.crypto env)) (fun _ => True) ∧
      NewAttested rt.crypto (gateKeys rt.crypto env) start p'.shared := by
  have hbody (request : PipelineRequest) :
      Attesting rt (gateKeys rt.crypto env) (fun _ => True) (request.body rt) := by
    cases request with
    | chip out ctx request => exact attesting_processChipWithContext hlawful
    | knockRejection out knockCid code reason anonymous hint =>
      exact attesting_processKnockRejection hlawful
  induction hrun with
  | refl =>
    refine ⟨fun t ht => ?_, h⟩
    rw [hthreads] at ht
    cases ht
  | tail _ hstep ih =>
    obtain ⟨hp, hrows⟩ := ih
    obtain ⟨label, hstep, hR⟩ := hstep
    cases hstep with
    | arrives request => exact ⟨hp.arrive (hbody request), hrows⟩
    | acts hact =>
      obtain ⟨hp', hG⟩ := hp.act (hR _ rfl) hact
      exact ⟨hp', hrows.step hG⟩
    | restarts readable => exact ⟨fun t ht => (by cases ht), hrows⟩

/-- Every receipt committed in a run whose stages are signed under keys of the gate passes there
and is served. -/
theorem receipts_served (hlawful : rt.crypto.text.Lawful) {p p' : GateState}
    (hthreads : p.threads = [])
    (hrun : Run rt env (SignsUnder rt.crypto (gateKeys rt.crypto env)) p p') :
    ∀ row ∈ p'.shared.durable.receipts, row ∈ p.shared.durable.receipts ∨
      Served rt env p'.shared.durable row := by
  intro row hrow
  have hstart : NewAttested rt.crypto (gateKeys rt.crypto env) p.shared.durable.receipts
      p.shared := fun _ h => .inl h
  rcases (newAttested_run hlawful hrun hthreads hstart).2 row hrow with h | ⟨hattested, hfind⟩
  · exact .inl h
  · have hverify := verifyReceiptAuthChain_of_attested hround hattested
    have hprefix := prefix_of_attested hattested
    refine .inr ⟨hverify, ?_, fun fault ifNoneMatch e => ?_⟩
    · simp only [getReceipt, hprefix, DurableStore.getReceipt_values, hfind, hverify]
      rfl
    · cases fault with
      | none =>
        simp only [getReceipt, hprefix, DurableStore.getReceipt_values, hfind, hverify]
        split_ifs <;> simp
      | some fault =>
        simp only [getReceipt, hprefix, DurableStore.getReceipt]
        split_ifs <;> simp

end

/-! ## A gate with and without its secret -/

section Sample

/-- A rejection at KNOCK touches no secret. -/
theorem knockRejection_keepsSecrets {rt : Runtime} {out : Outside} {secrets : StageSecrets}
    {knockCid reasonCode reason anonymous : String} {hint : Option String} :
    (processKnockRejection rt out knockCid reasonCode reason anonymous hint).Promises
      (fun _ s => s.stageSecrets = secrets) (fun _ s' => s'.stageSecrets = secrets)
      (fun _ => True) := by
  have hreads {α : Type} {label : Action} {f : PipelineState → Except PipelineError α} :
      (Prog.reads label f).Promises (fun _ s => s.stageSecrets = secrets)
        (fun _ s' => s'.stageSecrets = secrets) (fun _ => True) :=
    Prog.promises_atomic fun s hs => ⟨hs, fun _ _ => trivial⟩
  refine Prog.Promises.bind hreads fun _ _ => Prog.Promises.bind hreads fun _ _ =>
    Prog.Promises.bind hreads fun _ _ =>
    Prog.Promises.bind (Q := fun _ => True) (Prog.promises_ofExcept fun _ _ => trivial) fun _ _ =>
    Prog.Promises.bind (Q := fun _ => True) ?_ fun _ _ => trivial
  unfold persistFinalResult
  split_ifs
  · refine Prog.promises_atomic fun s hs => ⟨?_, fun _ _ => trivial⟩
    split <;> exact hs
  · trivial

/-- The request of the samples. -/
def sampleRejection : PipelineRequest :=
  .knockRejection (sampleOutside "n1" "n2") "b3:0a" "KNOCK-001" "bad" "did:ubl:anon" none

noncomputable def sampleGate : Runtime := sampleRuntime Receipt.readBack true

noncomputable def started (env : StageEnv) : PipelineState :=
  restarted sampleGate env true (sampleState "")

/-- The gate after it has been started and has rejected one request. -/
noncomputable def rejected (env : StageEnv) : PipelineState :=
  ((sampleRejection.body sampleGate).run (started env)).2

theorem run_rejected (env : StageEnv) {R : Action → PipelineState → Prop}
    (hR : ∀ label s, s.stageSecrets = (started env).stageSecrets → R label s) :
    ∃ p, Run sampleGate env R ⟨[], started env⟩ p ∧ p.shared = rejected env := by
  have harrive : Run sampleGate env R ⟨[], started env⟩
      (Pool.arrive (PipelineRequest.body sampleGate) ⟨[], started env⟩ sampleRejection) :=
    .single ⟨none, .arrives sampleRejection, fun _ h => (by cases h)⟩
  obtain ⟨s, hrun⟩ := Pool.reaches_run (κ := PipelineRequest)
    (p := Pool.arrive (PipelineRequest.body sampleGate) ⟨[], started env⟩ sampleRejection)
    (sampleRejection.body sampleGate) knockRejection_keepsSecrets rfl (i := 0) rfl
  refine ⟨_, harrive.trans (hrun.lift id ?_), rfl⟩
  rintro p p' ⟨⟨label, hact⟩, hsecrets⟩
  exact ⟨some label, .acts hact, fun a ha => Option.some.inj ha ▸ hR _ _ hsecrets⟩

/-- The secret is set, and no other secret was set before it. -/
def secretSet : StageEnv := ⟨.ok "s0", .error .notPresent⟩

/-- The pipeline falls back on the secret derived from its signing key. -/
def secretUnset : StageEnv := ⟨.error .notPresent, .error .notPresent⟩

/-- A rejection leaves one receipt, whether the secret is set or not. -/
theorem rejected_receipts : (rejected secretSet).durable.receipts.length = 1 ∧
    (rejected secretUnset).durable.receipts.length = 1 := by
  constructor <;> decide +kernel

theorem receipts_served_sample :
    ∃ p row, Run sampleGate secretSet (SignsUnder sumCrypto (gateKeys sumCrypto secretSet))
        ⟨[], started secretSet⟩ p ∧
      row ∈ p.shared.durable.receipts ∧ Served sampleGate secretSet p.shared.durable row := by
  obtain ⟨p, hrun, hp⟩ := run_rejected secretSet
    (R := SignsUnder sumCrypto (gateKeys sumCrypto secretSet)) fun label s hs _ =>
      ⟨Receipt.paddedKey (Utf8.utf8 "s0"), ⟨_, none, rfl, rfl, .inl rfl⟩, by rw [hs]; rfl⟩
  obtain ⟨row, hrow⟩ := List.length_eq_one_iff.mp (hp ▸ rejected_receipts.1)
  have hmem : row ∈ p.shared.durable.receipts := hrow ▸ List.mem_cons_self
  have hserved : row ∈ (started secretSet).durable.receipts ∨
      Served sampleGate secretSet p.shared.durable row :=
    @receipts_served sampleGate secretSet Receipt.readBack_toJson Nrf.asciiText_lawful _ _ rfl hrun
      row hmem
  exact ⟨p, row, hrun, hmem, hserved.resolve_left fun h => (by cases h)⟩

/-- Without the variable the gate takes every receipt for tampered with; this one was signed under
the secret that is still in force. -/
theorem receipt_not_served :
    ∃ p row e, Run sampleGate secretUnset (fun _ _ => True) ⟨[], started secretUnset⟩ p ∧
      row ∈ p.shared.durable.receipts ∧
      verifyReceiptAuthChain sampleGate secretUnset row.receiptCid row.bodyJson = .error e := by
  obtain ⟨p, hrun, hp⟩ := run_rejected secretUnset (R := fun _ _ => True) fun _ _ _ => trivial
  obtain ⟨row, hrow⟩ := List.length_eq_one_iff.mp (hp ▸ rejected_receipts.2)
  have hunset (r : UnifiedReceipt) : verifyAuthChain sampleGate.crypto secretUnset r = false := rfl
  cases hread : sampleGate.fromJson row.bodyJson with
  | error e =>
    exact ⟨p, row, _, hrun, hrow ▸ List.mem_cons_self, by rw [verifyReceiptAuthChain, hread]⟩
  | ok r =>
    refine ⟨p, row, ⟨"receipt " ++ row.receiptCid ++ " auth chain broken", row.receiptCid,
      "auth_chain_broken"⟩, hrun, hrow ▸ List.mem_cons_self, ?_⟩
    rw [verifyReceiptAuthChain, hread]
    simp only [hunset]
    rfl

end Sample

end Ubl.Gate
