import Ubl.Gate.Receipts
import Ubl.Pipeline.Replay

/-!
# What a replay answers

A request that is executed answers with the body of its last stage, and remembers the JSON of its
receipt; a replay answers with what is remembered.  So in every run of the gate, whatever its
requests do in between, a replay shows a receipt where the first answer shows a stage body:

    r answers an execution  →  r' answers a request under the same key  →  ¬ Repeats r r'

Where the calls come one after the other, the receipt, the chain and the decision are the same.
-/

namespace Ubl.Gate

open Ubl.Pipeline
open Ubl.Receipt (UnifiedReceipt)
open Relation (ReflTransGen)

/-! ## Two kinds of bodies -/

section Bodies

def IsReceipt (j : Json) : Prop := ∃ r : UnifiedReceipt, j = r.toJson

/-- A stage body has no type. -/
def IsUntyped (j : Json) : Prop := j.get "@type" = none

theorem IsReceipt.typed {j : Json} (h : IsReceipt j) : ¬ IsUntyped j := by
  obtain ⟨r, rfl⟩ := h
  have htype : r.toJson.get "@type" = some (.string r.receiptType) := rfl
  rw [IsUntyped, htype]
  exact Option.some_ne_none _

theorem isUntyped_wfBody {out : Outside} {decision : Policy.Decision} {waCid : String}
    {trCid : Option String} {artifacts : List (String × Json)} {durationMs : Int64}
    {trace : List PolicyTraceEntry} {shortCircuited : Bool} :
    IsUntyped (wfBody out decision waCid trCid artifacts durationMs trace shortCircuited) :=
  rfl

theorem body_of_stageReceipt {rt : Runtime} {label receiptType : String} {body : Json}
    {receipt : PipelineReceipt} (h : stageReceipt rt label receiptType body = .ok receipt) :
    receipt.receiptType = receiptType ∧ receipt.body = body := by
  unfold stageReceipt at h
  split at h
  · cases h
  · obtain rfl := Except.ok.inj h
    exact ⟨rfl, rfl⟩

/-- The last stage of a request that is not denied. -/
theorem wf_of_stageWriteFinished {rt : Runtime} {out : Outside} {request : ParsedChipRequest}
    {wa tr wf : PipelineReceipt} {check : CheckResult}
    (h : stageWriteFinished rt out request wa tr check = .ok wf) :
    wf.receiptType = "ubl/wf" ∧ IsUntyped wf.body := by
  unfold stageWriteFinished at h
  split at h
  · cases h
  · obtain ⟨htype, hbody⟩ := body_of_stageReceipt h
    exact ⟨htype, by rw [hbody]; exact isUntyped_wfBody⟩

theorem wf_of_createDenyReceipt {rt : Runtime} {out : Outside} {wa wf : PipelineReceipt}
    {check : CheckResult} (h : createDenyReceipt rt out wa check = .ok wf) :
    wf.receiptType = "ubl/wf" ∧ IsUntyped wf.body := by
  obtain ⟨htype, hbody⟩ := body_of_stageReceipt h
  exact ⟨htype, by rw [hbody]; exact isUntyped_wfBody⟩

end Bodies

/-! ## What is remembered -/

section Memory

variable {rt : Runtime} {out : Outside} {request : ParsedChipRequest}

/-- The invariant of a run: what is remembered under any key is a receipt. -/
structure RemembersReceipts (s : PipelineState) : Prop where
  memory : ∀ e ∈ s.idempotency, IsReceipt e.2.responseJson
  rows : ∀ row ∈ s.durable.idempotency, IsReceipt row.responseJson

theorem RemembersReceipts.same {s s' : PipelineState} (h : RemembersReceipts s)
    (hs : SameMemory s s') : RemembersReceipts s' :=
  ⟨by rw [hs.1]; exact h.memory, by rw [hs.2]; exact h.rows⟩

/-- The program keeps the invariant, and comes to answers with `Q`, whatever the others do that
keep it. -/
abbrev Answering {α : Type} (Q : α → Prop) (x : Process α) : Prop :=
  x.Promises (fun _ s => RemembersReceipts s) (fun _ s' => RemembersReceipts s') Q

theorem answering_of_acts {α : Type} {x : Process α} (h : x.Acts (StillEffect rt out request)) :
    Answering (fun _ => True) x :=
  h.promises fun _ _ _ hs hl => hs.same hl.1.sameMemory

theorem answering_persistChip {check : CheckResult} {receiptCid : String} :
    Answering (fun _ => True) (persistChip rt out request check receiptCid) :=
  acts_persistChip.promises fun _ _ _ hs hl => hs.same (hl.1.sameMemory hl.2)

theorem answering_persistFinalResult {idemKey : Option IdempotencyKey} {world : String}
    {result : PipelineResult} :
    Answering (fun _ => True) (persistFinalResult rt out idemKey world result) := by
  unfold persistFinalResult
  split
  · refine Prog.promises_atomic fun s hs => ⟨?_, fun _ _ => trivial⟩
    rcases hcommit : s.durable.commitWfAtomically .values out.commitFault
      (commitInput rt out idemKey world result) with ⟨r, d⟩
    have hrows : ∀ row ∈ d.idempotency, IsReceipt row.responseJson := by
      cases r with
      | error e =>
        have h := DurableStore.commitWfAtomically_error (congrArg Prod.fst hcommit)
        rw [hcommit] at h
        obtain rfl : d = s.durable := h
        exact hs.rows
      | ok u =>
        obtain ⟨-, -, hkey⟩ := DurableStore.commitTx_cases
          (DurableStore.commitWfAtomically_ok hcommit)
        cases idemKey with
        | none =>
          have hsame : d.idempotency = s.durable.idempotency := hkey
          rw [hsame]
          exact hs.rows
        | some key =>
          intro row hrow
          rw [hkey.2] at hrow
          rcases List.mem_append.mp hrow with hrow | hrow
          · exact hs.rows row hrow
          · obtain rfl := List.mem_singleton.mp hrow
            exact ⟨result.receipt, rfl⟩
    rcases r with e | u
    · cases e <;> exact ⟨hs.memory, hrows⟩
    · exact ⟨hs.memory, hrows⟩
  · cases idemKey with
    | none => trivial
    | some key =>
      refine Prog.promises_atomic fun s hs => ⟨⟨fun e he => ?_, hs.rows⟩, fun _ _ => trivial⟩
      rcases List.mem_cons.mp he with rfl | he
      · exact ⟨result.receipt, rfl⟩
      · exact hs.memory e he

theorem answering_lookup {key : IdempotencyKey} :
    Answering (fun cached => ∀ c ∈ cached, IsReceipt c.responseJson) (lookup rt out key) := by
  refine Prog.promises_atomic fun s hs => ⟨hs, fun cached hcached c hc => ?_⟩
  obtain rfl : cached = some c := hc
  have hrun : (lookup rt out key).run s = (.ok (some c), s) := by
    rw [lookup, Prog.run_reads]
    exact Prod.ext hcached rfl
  have hcached := run_lookup_ok hrun
  rw [remembered] at hcached
  split at hcached
  · obtain ⟨row, hrow, rfl⟩ := Option.map_eq_some_iff.mp hcached.symm
    exact hs.rows row (List.mem_of_find?_eq_some hrow)
  · exact hs.memory (key, c) (AssocMap.mem_of_lookup hcached.symm)

/-! ## What is answered -/

/-- A replay answers with a receipt, an execution with a stage body. -/
structure Shows (r : PipelineResult) : Prop where
  replay : r.replayed = true → IsReceipt r.finalReceipt.body
  execution : r.replayed = false → IsUntyped r.finalReceipt.body

theorem shows_executed {wf : PipelineReceipt} {chain : List String} {decision : Policy.Decision}
    {receipt : UnifiedReceipt} (h : IsUntyped wf.body) :
    Shows ⟨wf, chain, decision, receipt, false⟩ :=
  ⟨nofun, fun _ => h⟩

theorem answering_finishDenied {key : IdempotencyKey} {wa : PipelineReceipt} {check : CheckResult}
    {receipt : UnifiedReceipt} :
    Answering Shows (finishDenied rt out request key wa check receipt) := by
  refine Prog.Promises.bind (Q := fun _ => True)
    (@answering_of_acts rt out request _ _ (acts_reads (show Action.Looks .deny from trivial)))
    fun _ _ => ?_
  refine Prog.Promises.bind (Prog.promises_ofExcept fun wf hwf => wf_of_createDenyReceipt hwf)
    fun wf hwf => ?_
  refine Prog.Promises.bind (@answering_of_acts rt out request _ _ acts_appendStageReceipt)
    fun _ _ => ?_
  refine Prog.Promises.bind (Q := fun _ => True) (Prog.promises_ofExcept fun _ _ => trivial)
    fun _ _ => ?_
  exact Prog.Promises.bind answering_persistFinalResult fun _ _ => shows_executed hwf.2

theorem answering_finishAllowed {key : IdempotencyKey} {wa : PipelineReceipt}
    {check : CheckResult} {receipt : UnifiedReceipt} :
    Answering Shows (finishAllowed rt out request key wa check receipt) := by
  refine Prog.Promises.bind (answering_of_acts acts_stageTransition) fun tr _ => ?_
  refine Prog.Promises.bind (@answering_of_acts rt out request _ _ acts_appendStageReceipt)
    fun _ _ => ?_
  refine Prog.Promises.bind (Prog.promises_ofExcept fun wf hwf => wf_of_stageWriteFinished hwf)
    fun wf hwf => ?_
  refine Prog.Promises.bind (@answering_of_acts rt out request _ _ acts_appendStageReceipt)
    fun _ _ => ?_
  refine Prog.Promises.bind (Q := fun _ => True) (Prog.promises_ofExcept fun _ _ => trivial)
    fun _ _ => ?_
  refine Prog.Promises.bind answering_persistChip fun _ _ => ?_
  refine Prog.Promises.bind (@answering_of_acts rt out request _ _ (acts_advise (.inr rfl)))
    fun _ _ => ?_
  exact Prog.Promises.bind answering_persistFinalResult fun _ _ => shows_executed hwf.2

theorem answering_execute {ctx : AuthorshipContext} {key : IdempotencyKey} :
    Answering Shows (execute rt out ctx request key) := by
  refine Prog.Promises.bind (@answering_of_acts rt out request _ _ acts_markNonce) fun _ _ => ?_
  refine Prog.Promises.bind (answering_of_acts acts_stageWriteAhead) fun wa _ => ?_
  refine Prog.Promises.bind (@answering_of_acts rt out request _ _ acts_appendStageReceipt)
    fun _ _ => ?_
  refine Prog.Promises.bind (answering_of_acts acts_stageCheck) fun check _ => ?_
  refine Prog.Promises.bind (@answering_of_acts rt out request _ _ acts_appendStageReceipt)
    fun _ _ => ?_
  refine Prog.Promises.bind (@answering_of_acts rt out request _ _ (acts_advise (.inl rfl)))
    fun _ _ => ?_
  split_ifs
  · exact answering_finishDenied
  · exact answering_finishAllowed

theorem answering_processChipWithContext {ctx : AuthorshipContext} {request : ChipRequest} :
    Answering Shows (processChipWithContext rt out ctx request) := by
  refine Prog.Promises.bind (Q := fun _ => True) (Prog.promises_ofExcept fun _ _ => trivial)
    fun parsed _ => ?_
  refine Prog.Promises.bind (Q := fun _ => True) (Prog.promises_ofExcept fun _ _ => trivial)
    fun key _ => ?_
  refine Prog.Promises.bind answering_lookup fun cached hcached => ?_
  cases cached with
  | none => exact answering_execute
  | some cached => exact ⟨fun _ => hcached cached rfl, nofun⟩

theorem answering_processKnockRejection {knockCid reasonCode reason anonymous : String}
    {hint : Option String} : Answering (fun _ => True)
      (processKnockRejection rt out knockCid reasonCode reason anonymous hint) := by
  have hreads {α : Type} {label : Action} {f : PipelineState → Except PipelineError α} :
      Answering (fun _ => True) (Prog.reads label f) :=
    Prog.promises_atomic fun s hs => ⟨hs, fun _ _ => trivial⟩
  refine Prog.Promises.bind hreads fun _ _ => Prog.Promises.bind hreads fun _ _ =>
    Prog.Promises.bind hreads fun _ _ =>
    Prog.Promises.bind (Q := fun _ => True) (Prog.promises_ofExcept fun _ _ => trivial) fun _ _ =>
    Prog.Promises.bind answering_persistFinalResult fun _ _ => trivial

end Memory

/-! ## Along a run -/

section Runs

variable {rt : Runtime} {env : StageEnv}

/-- What the answer to a request shows. -/
def ShowsFor : PipelineRequest → PipelineResult → Prop
  | .chip _ _ _, r => Shows r
  | .knockRejection .., _ => True

theorem answering_body (request : PipelineRequest) :
    Answering (ShowsFor request) (request.body rt) := by
  cases request with
  | chip out ctx request => exact answering_processChipWithContext
  | knockRejection out knockCid code reason anonymous hint => exact answering_processKnockRejection

abbrev Showing (p : GateState) : Prop :=
  p.PromisingEach (fun _ s => RemembersReceipts s) (fun _ s' => RemembersReceipts s') ShowsFor ∧
    RemembersReceipts p.shared

theorem showing_run {p p' : GateState} (hrun : Run rt env (fun _ _ => True) p p')
    (h : Showing p) : Showing p' := by
  induction hrun with
  | refl => exact h
  | tail _ hstep ih =>
    obtain ⟨label, hstep, -⟩ := hstep
    obtain ⟨hp, hs⟩ := ih
    cases hstep with
    | arrives request => exact ⟨hp.arrive (answering_body request), hs⟩
    | acts hact => exact hp.act hs hact
    | restarts readable =>
      refine ⟨fun t ht => absurd ht List.not_mem_nil, fun e he => absurd he List.not_mem_nil, ?_⟩
      exact hs.rows

/-- A request with this key has come to this answer. -/
def Answered (key : IdempotencyKey) (p : GateState) (r : PipelineResult) : Prop :=
  ∃ out ctx request started, IdempotencyKey.fromChipBody request.body = some key ∧
    (⟨.chip out ctx request, started, .ret r⟩ :
      Thread PipelineRequest Action PipelineState PipelineError PipelineResult) ∈ p.threads

/-- `r'` is the answer `r` again. -/
structure Repeats (r r' : PipelineResult) : Prop where
  replayed : r'.replayed = true
  decision : r'.decision = r.decision
  chain : r'.chain = r.chain
  receipt : r'.receipt = r.receipt
  finalReceipt : r'.finalReceipt = r.finalReceipt

theorem Showing.shows {p : GateState} (h : Showing p) {key : IdempotencyKey}
    {r : PipelineResult} (hr : Answered key p r) : Shows r := by
  obtain ⟨out, ctx, request, started, -, hmem⟩ := hr
  exact h.1 _ hmem

/-- At the start nothing is under way, and nothing is remembered. -/
theorem Showing.start {p : GateState} (hthreads : p.threads = [])
    (hmemory : p.shared.idempotency = []) (hrows : p.shared.durable.idempotency = []) :
    Showing p := by
  refine ⟨fun t ht => ?_, fun e he => ?_, fun row hrow => ?_⟩
  · rw [hthreads] at ht
    exact absurd ht List.not_mem_nil
  · rw [hmemory] at he
    exact absurd he List.not_mem_nil
  · rw [hrows] at hrow
    exact absurd hrow List.not_mem_nil

theorem bodies_differ {p p' : GateState} (h : Showing p) (h' : Showing p') {key : IdempotencyKey}
    {r r' : PipelineResult} (hr : Answered key p r) (hfirst : r.replayed = false)
    (hr' : Answered key p' r') (hreplayed : r'.replayed = true) :
    r'.finalReceipt.body ≠ r.finalReceipt.body := by
  intro heq
  have hstage : IsUntyped r.finalReceipt.body := (h.shows hr).execution hfirst
  have hreceipt : IsReceipt r'.finalReceipt.body := (h'.shows hr').replay hreplayed
  rw [← heq] at hstage
  exact hreceipt.typed hstage

/-- In no run from empty stores does a replay repeat the answer to a request that was executed. -/
theorem not_repeats_of_run (rt : Runtime) (env : StageEnv) (p p₁ p₂ : GateState)
    (hthreads : p.threads = []) (hmemory : p.shared.idempotency = [])
    (hrows : p.shared.durable.idempotency = []) (hrun₁ : Run rt env (fun _ _ => True) p p₁)
    (hrun₂ : Run rt env (fun _ _ => True) p₁ p₂) (key : IdempotencyKey) (r r' : PipelineResult)
    (hr : Answered key p₁ r) (hfirst : r.replayed = false) (hr' : Answered key p₂ r') :
    ¬ Repeats r r' := by
  intro hrepeats
  have h₁ := showing_run hrun₁ (Showing.start hthreads hmemory hrows)
  exact bodies_differ h₁ (showing_run hrun₂ h₁) hr hfirst hr' hrepeats.replayed
    (congrArg PipelineReceipt.body hrepeats.finalReceipt)

end Runs

/-! ## One call after the other -/

section Sequence

variable {rt : Runtime} {out : Outside} {key : IdempotencyKey} {request : ParsedChipRequest}
  {check : CheckResult} {receipt : UnifiedReceipt} {s s' : PipelineState} {r : PipelineResult}

/-- What an execution answers: a requirement stands in the answer only, not in the receipt. -/
structure Executed (r : PipelineResult) : Prop where
  replayed : r.replayed = false
  receiptType : r.finalReceipt.receiptType = "ubl/wf"
  decision : r.receipt.decision = if r.decision = .deny then .deny else .allow

/-- The answer is remembered, and what is remembered says allow only where the answer does. -/
def Kept (rt : Runtime) (key : IdempotencyKey) (r : PipelineResult) (s : PipelineState) : Prop :=
  ∃ cached, remembered rt key s = some cached ∧ cached.responseJson = r.receipt.toJson ∧
    cached.receiptCid = r.receipt.receiptCid ∧ cached.chain = r.chain ∧
    cached.decision = if rt.hasDurableStore then r.receipt.decision.debug
      else decisionToWire r.decision

theorem get_decision_toJson (receipt : UnifiedReceipt) :
    receipt.toJson.get "decision" = some (Receipt.decisionJson receipt.decision) := by
  simp [UnifiedReceipt.toJson, Json.get, List.lookup_append, Receipt.lookup_optional,
    AssocMap.lookup_cons_eq]

theorem kept_persistFinalResult {world : String}
    (h : (persistFinalResult rt out (some key) world r).run s = (.ok (), s')) :
    Kept rt key r s' := by
  unfold persistFinalResult at h
  split at h
  · next hdurable =>
    rw [Prog.run_atomic] at h
    rcases hcommit : s.durable.commitWfAtomically .values out.commitFault
      (commitInput rt out (some key) world r) with ⟨outcome, d⟩
    rw [hcommit] at h
    cases outcome with
    | error e => cases e <;> cases (Prod.mk.inj h).1
    | ok u =>
      obtain rfl := (Prod.mk.inj h).2
      obtain ⟨-, -, hnew, hrows⟩ := DurableStore.commitTx_cases
        (DurableStore.commitWfAtomically_ok hcommit)
      have hfound := findIdempotent_append hnew hrows
      refine ⟨_, by rw [remembered, if_pos hdurable]; exact congrArg _ hfound, rfl, rfl, rfl, ?_⟩
      rw [if_pos hdurable]
      show ((r.receipt.toJson.get "decision").bind Json.asStr).getD "Allow" = _
      rw [get_decision_toJson]
      rfl
  · next hdurable =>
    obtain rfl := (Prod.mk.inj h).2
    refine ⟨cachedResult out r, ?_, rfl, rfl, rfl, (if_neg hdurable).symm⟩
    rw [remembered, if_neg hdurable]
    exact List.lookup_cons_self

theorem decision_append {label : String} {stage : Receipt.StageExecution}
    {receipt' : UnifiedReceipt}
    (h : (appendStageReceipt rt label stage receipt).run s = (.ok receipt', s')) :
    receipt'.decision = receipt.decision := by
  obtain ⟨stages, -, -, rfl⟩ := run_append_ok h
  rfl

theorem decision_sign {label : String} {receipt' : UnifiedReceipt}
    (h : finalizeAndSign rt label receipt = .ok receipt') :
    receipt'.decision = receipt.decision := by
  obtain ⟨sig, rfl⟩ := finalizeAndSign_eq_ok h
  rfl

theorem run_ofExcept_ok {α : Type} {x : Except PipelineError α} {a : α}
    (h : (Prog.ofExcept x : Process α).run s = (.ok a, s')) : x = .ok a ∧ s = s' := by
  rw [Prog.run_ofExcept] at h
  exact Prod.mk.inj h

theorem decision_recomputeCid {c : Receipt.Crypto} :
    (receipt.recomputeCid c).2.decision = receipt.decision := by
  unfold UnifiedReceipt.recomputeCid
  split <;> rfl

theorem decision_rebuild {c : Receipt.Crypto} {secret : Option String} :
    (receipt.rebuildAuthChainWithCurrentKey c secret).decision = receipt.decision := by
  unfold UnifiedReceipt.rebuildAuthChainWithCurrentKey
  split
  · rfl
  · split
    · rfl
    · split_ifs
      · rfl
      · split <;> rfl

theorem decision_deny {c : Receipt.Crypto} {reason : String} {secret : Option String} :
    (receipt.denyWithSecrets c reason secret).decision = .deny := by
  show (UnifiedReceipt.recomputeCid c (UnifiedReceipt.rebuildAuthChainWithCurrentKey c secret
    (UnifiedReceipt.denied reason receipt))).2.decision = .deny
  rw [decision_recomputeCid, decision_rebuild]
  rfl

theorem executed_finishDenied {wa : PipelineReceipt}
    (h : (finishDenied rt out request key wa check receipt).run s = (.ok r, s')) :
    Executed r ∧ Kept rt key r s' := by
  obtain ⟨denied, t, hdenied, h⟩ := Prog.run_bind_ok h
  obtain ⟨wf, t, hwf, h⟩ := Prog.run_bind_ok h
  obtain ⟨appended, t, happended, h⟩ := Prog.run_bind_ok h
  obtain ⟨signed, t, hsigned, h⟩ := Prog.run_bind_ok h
  obtain ⟨u, t, hpersist, h⟩ := Prog.run_bind_ok h
  obtain ⟨hr, rfl⟩ := Prod.mk.inj h
  obtain rfl := Except.ok.inj hr
  have hdeny : denied.decision = .deny := by
    obtain rfl := Except.ok.inj (Prod.mk.inj hdenied).1
    exact decision_deny
  have hdecision : signed.decision = .deny := by
    rw [decision_sign (run_ofExcept_ok hsigned).1, decision_append happended, hdeny]
  exact ⟨⟨rfl, (wf_of_createDenyReceipt (run_ofExcept_ok hwf).1).1, hdecision⟩,
    kept_persistFinalResult hpersist⟩

theorem executed_finishAllowed {wa : PipelineReceipt} (hcheck : check.decision ≠ .deny)
    (hallow : receipt.decision = .allow)
    (h : (finishAllowed rt out request key wa check receipt).run s = (.ok r, s')) :
    Executed r ∧ Kept rt key r s' := by
  obtain ⟨tr, t, -, h⟩ := Prog.run_bind_ok h
  obtain ⟨receipt₁, t, happend₁, h⟩ := Prog.run_bind_ok h
  obtain ⟨wf, t, hwf, h⟩ := Prog.run_bind_ok h
  obtain ⟨receipt₂, t, happend₂, h⟩ := Prog.run_bind_ok h
  obtain ⟨signed, t, hsigned, h⟩ := Prog.run_bind_ok h
  obtain ⟨u, t, -, h⟩ := Prog.run_bind_ok h
  obtain ⟨u, t, -, h⟩ := Prog.run_bind_ok h
  obtain ⟨u, t, hpersist, h⟩ := Prog.run_bind_ok h
  obtain ⟨hr, rfl⟩ := Prod.mk.inj h
  obtain rfl := Except.ok.inj hr
  have hdecision : signed.decision = .allow := by
    rw [decision_sign (run_ofExcept_ok hsigned).1, decision_append happend₂,
      decision_append happend₁, hallow]
  exact ⟨⟨rfl, (wf_of_stageWriteFinished (run_ofExcept_ok hwf).1).1,
    hdecision.trans (if_neg hcheck).symm⟩, kept_persistFinalResult hpersist⟩

theorem executed_execute {ctx : AuthorshipContext}
    (h : (execute rt out ctx request key).run s = (.ok r, s')) : Executed r ∧ Kept rt key r s' := by
  obtain ⟨u, t, -, h⟩ := Prog.run_bind_ok h
  obtain ⟨wa, t, -, h⟩ := Prog.run_bind_ok h
  obtain ⟨receipt₁, t, happend₁, h⟩ := Prog.run_bind_ok h
  obtain ⟨check, t, -, h⟩ := Prog.run_bind_ok h
  obtain ⟨receipt₂, t, happend₂, h⟩ := Prog.run_bind_ok h
  obtain ⟨u, t, -, h⟩ := Prog.run_bind_ok h
  have hallow : receipt₂.decision = .allow := by
    rw [decision_append happend₂, decision_append happend₁]
    rfl
  split_ifs at h with hcheck
  · exact executed_finishDenied h
  · exact executed_finishAllowed hcheck hallow h

/-- A call that has found nothing and ends well is an execution that is remembered. -/
theorem executed_body {call : KeyedCall key} (hnew : remembered rt key s = none)
    (h : (call.body rt).run s = (.ok r, s')) : Executed r ∧ Kept rt key r s' := by
  obtain ⟨parsed, t, hrun, h⟩ := Prog.run_bind_ok h
  obtain ⟨hparse, rfl⟩ := run_ofExcept_ok hrun
  obtain ⟨key', t, hrun, h⟩ := Prog.run_bind_ok h
  obtain ⟨hkey, rfl⟩ := run_ofExcept_ok hrun
  have hkeyed : idemKeyOf parsed.body = .ok key := by
    rw [idemKeyOf, ParsedChipRequest.body, parse_request hparse, call.hasKey]
  obtain rfl := Except.ok.inj (hkeyed.symm.trans hkey)
  obtain ⟨cached, t, hlookup, h⟩ := Prog.run_bind_ok h
  obtain rfl := run_lookup_ok hlookup
  rw [lookup, Prog.run_reads] at hlookup
  obtain rfl := (Prod.mk.inj hlookup).2
  rw [hnew] at h
  exact executed_execute h

/-- Where something is remembered, a call that can look it up answers with it. -/
theorem run_body_of_remembered {call : KeyedCall key} {cached : CachedResult}
    (hcached : remembered rt key s = some cached) (hfault : call.out.idempotencyFault = none)
    (hparse : ∃ parsed, ParsedChipRequest.parse rt.crypto.text call.request = .ok parsed) :
    (call.body rt).run s = (.ok (replay rt call.out cached), s) := by
  obtain ⟨parsed, hparse⟩ := hparse
  have hkeyed : idemKeyOf parsed.body = .ok key := by
    rw [idemKeyOf, ParsedChipRequest.body, parse_request hparse, call.hasKey]
  have hlookup : (lookup rt call.out key).run s = (.ok (some cached), s) := by
    rw [lookup, Prog.run_reads]
    split_ifs with hdurable
    · rw [hfault, getIdempotent_eq hdurable, hcached]
    · rw [remembered, if_neg hdurable] at hcached
      rw [hcached]
  rw [KeyedCall.body, processChipWithContext, hparse, Prog.ofExcept_ok, Prog.ret_bind, hkeyed,
    Prog.ofExcept_ok, Prog.ret_bind, Prog.run_bind, hlookup]
  rfl

theorem saysAllow_debug (decision : Policy.Decision) :
    saysAllow decision.debug = true ↔ decision = .allow := by
  cases decision <;> decide

theorem saysAllow_wire (decision : Policy.Decision) :
    saysAllow (decisionToWire decision) = true ↔ decision = .allow := by
  cases decision <;> decide

/-- A later call under the key answers with the same receipt and chain, and with the same decision
unless that was a requirement; the final receipt is the whole receipt. -/
theorem replay_of_executed (hround : ∀ r : UnifiedReceipt, rt.fromJson r.toJson = .ok r)
    {call call' : KeyedCall key} {t : PipelineState} (hnew : remembered rt key s = none)
    (hrun : (call.body rt).run s = (.ok r, s'))
    (hkept : remembered rt key t = remembered rt key s')
    (hfault : call'.out.idempotencyFault = none)
    (hparse : ∃ parsed, ParsedChipRequest.parse rt.crypto.text call'.request = .ok parsed) :
    ∃ r', (call'.body rt).run t = (.ok r', t) ∧ r'.replayed = true ∧ r'.receipt = r.receipt ∧
      r'.chain = r.chain ∧ (r.decision ≠ .require → r'.decision = r.decision) ∧
      r'.finalReceipt = ⟨r.receipt.receiptCid, r.finalReceipt.receiptType, r.receipt.toJson⟩ := by
  obtain ⟨hexecuted, cached, hcached, hjson, hcid, hchain, hdecision⟩ := executed_body hnew hrun
  refine ⟨_, run_body_of_remembered (hkept.trans hcached) hfault hparse, rfl, ?_, hchain,
    fun hrequire => ?_, ?_⟩
  · rw [replay, hjson, hround]
    rfl
  · have hallow : saysAllow cached.decision = true ↔ r.decision = .allow := by
      rw [hdecision]
      split_ifs
      · rw [saysAllow_debug, hexecuted.decision]
        cases hr : r.decision with
        | require => exact absurd hr hrequire
        | _ => simp
      · exact saysAllow_wire r.decision
    show (if saysAllow cached.decision = true then Policy.Decision.allow else .deny) = r.decision
    cases hr : r.decision with
    | allow => exact if_pos (hallow.mpr hr)
    | deny => exact if_neg fun h => absurd (hr.symm.trans (hallow.mp h)) (by decide)
    | require => exact absurd hr hrequire
  · rw [replay, hjson, hcid, hexecuted.receiptType]

end Sequence

/-! ## A call, and the same call again -/

section Sample

/-- The sample call as a request of the gate. -/
def sampleChip (nonce waNonce : String) : PipelineRequest :=
  .chip (sampleOutside nonce waNonce) ⟨none, none⟩ (sampleRequest "ubl/document")

theorem promises_true {α : Type} (x : Process α) :
    x.Promises (fun _ _ => True) (fun _ _ => True) (fun _ => True) := by
  induction x with
  | ret a => trivial
  | fail e => trivial
  | act label update next ih => exact fun s _ => ⟨trivial, ih s⟩

/-- A request may come in and run to its end while the others stand still. -/
theorem run_alone_ok {rt : Runtime} {env : StageEnv} {p : GateState} {request : PipelineRequest}
    {r : PipelineResult} {s : PipelineState} (h : (request.body rt).run p.shared = (.ok r, s)) :
    ∃ started, Run rt env (fun _ _ => True) p
      ⟨p.threads ++ [⟨request, started, .ret r⟩], s⟩ := by
  have harrive : Run rt env (fun _ _ => True) p (p.arrive (PipelineRequest.body rt) request) :=
    .single ⟨none, .arrives request, fun _ h => (by cases h)⟩
  have hi : (p.arrive (PipelineRequest.body rt) request).threads[p.threads.length]? =
      some ⟨request, false, request.body rt⟩ := by
    simp [Pool.arrive]
  obtain ⟨started, hrun⟩ := Pool.reaches_run (request.body rt) (promises_true _) trivial hi
  have hend : (⟨(p.arrive (PipelineRequest.body rt) request).threads.set p.threads.length
      ⟨request, started, Pool.ended ((request.body rt).run p.shared).1⟩,
      ((request.body rt).run p.shared).2⟩ : GateState) =
      ⟨p.threads ++ [⟨request, started, .ret r⟩], s⟩ := by
    rw [h]
    simp [Pool.arrive, Pool.ended]
  refine ⟨started, harrive.trans ?_⟩
  rw [← hend]
  exact hrun.lift id fun p p' hact => by
    obtain ⟨⟨label, hact⟩, -⟩ := hact
    exact ⟨some label, .acts hact, fun _ _ => trivial⟩

/-- In a run from the sample state `r` answers the sample key, and later `r'` does. -/
def TwiceAnswered (rt : Runtime) (r r' : PipelineResult) : Prop :=
  ∃ p₁ p₂, Run rt secretSet (fun _ _ => True) ⟨[], sampleState "s0"⟩ p₁ ∧
    Run rt secretSet (fun _ _ => True) p₁ p₂ ∧ Answered sampleKey p₁ r ∧ Answered sampleKey p₂ r'

/-- A call that ends well, and then another one under its key. -/
theorem twiceAnswered_of_isOk {rt : Runtime}
    (hnew : remembered rt sampleKey (sampleState "s0") = none)
    (hparse : ∃ parsed, ParsedChipRequest.parse rt.crypto.text (sampleRequest "ubl/document") =
      .ok parsed)
    (hok : (((sampleChip "n1" "n2").body rt).run (sampleState "s0")).1.isOk = true) :
    ∃ r r', TwiceAnswered rt r r' ∧ r.replayed = false ∧ r'.replayed = true := by
  rcases hrun : ((sampleChip "n1" "n2").body rt).run (sampleState "s0") with ⟨outcome, t⟩
  rw [hrun] at hok
  cases outcome with
  | error e => cases hok
  | ok r =>
    have hbody : ((sampleCall "n1" "n2").body rt).run (sampleState "s0") = (.ok r, t) := hrun
    obtain ⟨hexecuted, cached, hcached, -⟩ := executed_body hnew hbody
    have hreplay : ((sampleCall "m1" "m2").body rt).run t = _ :=
      run_body_of_remembered hcached rfl hparse
    obtain ⟨started₁, hrun₁⟩ := @run_alone_ok rt secretSet ⟨[], _⟩ (sampleChip "n1" "n2") r t hrun
    obtain ⟨started₂, hrun₂⟩ := @run_alone_ok rt secretSet ⟨_, t⟩ (sampleChip "m1" "m2") _ t hreplay
    exact ⟨r, _, ⟨_, _, hrun₁, hrun₂,
      ⟨_, _, _, _, (sampleCall "n1" "n2").hasKey, List.mem_append_right _ List.mem_cons_self⟩,
      ⟨_, _, _, _, (sampleCall "m1" "m2").hasKey, List.mem_append_right _ List.mem_cons_self⟩⟩,
      hexecuted.replayed, rfl⟩

theorem sampleChip_ok (durable : Bool) :
    (((sampleChip "n1" "n2").body (sampleRuntime Receipt.readBack durable)).run
      (sampleState "s0")).1.isOk = true := by
  obtain ⟨r, r', hboth, -⟩ := replayRun_sample durable
  have hfirst : (((sampleCall "n1" "n2").body (sampleRuntime Receipt.readBack durable)).run
      (sampleState "s0")).1 = .ok r :=
    (Prog.spend_fst bodyStored _ _ 0).symm.trans (congrArg Prod.fst hboth)
  exact congrArg Except.isOk hfirst

theorem twiceAnswered_sample (durable : Bool) :
    ∃ r r', TwiceAnswered (sampleRuntime Receipt.readBack durable) r r' ∧ r.replayed = false ∧
      r'.replayed = true :=
  twiceAnswered_of_isOk (by cases durable <;> rfl) ⟨sampleParsed, rfl⟩ (sampleChip_ok durable)

theorem not_repeats_of_run_sample :
    ∃ r r', TwiceAnswered (sampleRuntime Receipt.readBack true) r r' ∧ r'.replayed = true ∧
      ¬ Repeats r r' := by
  obtain ⟨r, r', hanswered, hfirst, hreplayed⟩ := twiceAnswered_sample true
  obtain ⟨p₁, p₂, hrun₁, hrun₂, hr, hr'⟩ := id hanswered
  exact ⟨r, r', hanswered, hreplayed,
    not_repeats_of_run _ _ _ p₁ p₂ rfl rfl rfl hrun₁ hrun₂ sampleKey r r' hr hfirst hr'⟩

theorem bodies_differ_sample (durable : Bool) :
    ∃ r r', TwiceAnswered (sampleRuntime Receipt.readBack durable) r r' ∧ r.replayed = false ∧
      r'.replayed = true ∧ r'.finalReceipt.body ≠ r.finalReceipt.body := by
  obtain ⟨r, r', hanswered, hfirst, hreplayed⟩ := twiceAnswered_sample durable
  obtain ⟨p₁, p₂, hrun₁, hrun₂, hr, hr'⟩ := id hanswered
  have h₁ := showing_run hrun₁ (Showing.start rfl rfl rfl)
  exact ⟨r, r', hanswered, hfirst, hreplayed,
    bodies_differ h₁ (showing_run hrun₂ h₁) hr hfirst hr' hreplayed⟩

/-- A document, and the same document again, with the in-memory and with the durable store. -/
theorem replay_shows_receipt :
    (∃ r r', TwiceAnswered (sampleRuntime Receipt.readBack false) r r' ∧ r.replayed = false ∧
      r'.replayed = true ∧ r'.finalReceipt.body ≠ r.finalReceipt.body) ∧
    ∃ r r', TwiceAnswered (sampleRuntime Receipt.readBack true) r r' ∧ r.replayed = false ∧
      r'.replayed = true ∧ r'.finalReceipt.body ≠ r.finalReceipt.body :=
  ⟨bodies_differ_sample false, bodies_differ_sample true⟩

end Sample

end Ubl.Gate
