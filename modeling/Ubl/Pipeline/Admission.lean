import Ubl.Lib.Serial
import Ubl.Pipeline.Effects
import Ubl.Pipeline.Policies

/-!
# What gets into the chip store

CHECK looks at a request in one state of the store, and its chip is put into another, after any
number of steps of other requests.  There is still no way around CHECK and TR:

    each chip that comes into the store is the body of a request that CHECK has admitted and TR has
    taken to its end, or such a request brings it along, or it is an advisory       (stored_owed)

What CHECK admits the genesis policy admits: nineteen types, an id, a megabyte of JSON.  Its rule on
malicious content denies nothing, since CHECK does not set the variables that it asks for
(`genesis_decides_deny_iff`).
-/

namespace Ubl.Pipeline

open Ubl.Chipstore
open Ubl.Policy
open Ubl.Receipt (UnifiedReceipt StageExecution)

/-! ## The genesis rules -/

section Genesis

variable {context : EvalContext}

/-- The types that the genesis policy lets in. -/
def GENESIS_TYPES : List String :=
  ["ubl/app", "ubl/tenant", "ubl/user", "ubl/policy", "ubl/token", "ubl/invite", "ubl/ai.passport",
    "ubl/wasm.module", "ubl/verification", "ubl/advisory", "ubl/adapter", "ubl/membership",
    "ubl/revoke", "ubl/key.rotate", "ubl/document", "audit/report.request.v1",
    "audit/ledger.snapshot.request.v1", "ledger/segment.compact.v1", "audit/advisory.request.v1"]

/-- What the genesis policy asks of a request. -/
structure UblPipeline.GenesisRules (p : UblPipeline) (request : ParsedChipRequest) : Prop where
  type : ∃ chipType ∈ GENESIS_TYPES, bodyStr request.body "@type" = some chipType
  id : request.chipId.isSome = true
  size : (p.evalContext request).bodySize ≤ 1048576

theorem evaluateAny_typeEquals (chipTypes : List String) :
    Expression.evaluateAny context (chipTypes.map .typeEquals) = true ↔
      ∃ chipType ∈ chipTypes, bodyStr context.chip "@type" = some chipType := by
  induction chipTypes with
  | nil => simp [Expression.evaluateAny]
  | cons chipType chipTypes ih =>
    rw [List.map_cons, Expression.evaluateAny, Bool.or_eq_true, ih, List.exists_mem_cons_iff,
      Expression.evaluate]
    refine or_congr ?_ Iff.rfl
    show Option.getD (Option.map _ (bodyStr context.chip "@type")) false = true ↔ _
    cases bodyStr context.chip "@type" <;> simp

theorem sequentialDecision_all_eq_deny {ds : List Decision} :
    sequentialDecision .all ds = .deny ↔ .deny ∈ ds := by
  unfold sequentialDecision aggregateDecision
  split_ifs with hdeny <;> simp [hdeny]

theorem genesisRb_decision (id name : String) (condition : Expression) (ctx : List String) :
    ((genesisRb id name condition ctx).evaluate context).decision = .deny ↔
      ¬ condition.evaluate context = true := by
  unfold ReasoningBit.evaluate genesisRb
  dsimp only
  split_ifs with h <;> simp [h]

/-- The genesis policy denies a request unless it keeps to the rules, and for no other reason. -/
theorem genesis_decides_deny_iff (p : UblPipeline) (request : ParsedChipRequest) :
    createGenesisPolicy.Decides (p.evalContext request) .deny ↔ ¬ p.GenesisRules request := by
  have htype : Expression.evaluate (p.evalContext request) createTypeValidationRb.condition =
      true ↔ ∃ chipType ∈ GENESIS_TYPES, bodyStr request.body "@type" = some chipType :=
    evaluateAny_typeEquals GENESIS_TYPES
  have hid : Expression.evaluate (p.evalContext request) createIdRequiredRb.condition = true ↔
      request.chipId.isSome = true := by
    show ((p.evalContext request).vars.lookup "chip.id").isSome = true ↔ _
    unfold UblPipeline.evalContext
    cases request.chipId <;> simp [List.lookup]
  have hsize : Expression.evaluate (p.evalContext request) createSizeLimitRb.condition = true ↔
      (p.evalContext request).bodySize ≤ 1048576 := decide_eq_true_iff
  have hcontent : Expression.evaluate (p.evalContext request)
      createNoMaliciousContentRb.condition = true := by
    unfold UblPipeline.evalContext
    cases request.chipId <;> rfl
  have hdeny : createGenesisPolicy.Decides (p.evalContext request) .deny ↔
      .deny ∈ decisions (p.evalContext request) [createTypeValidationRb, createIdRequiredRb,
        createSizeLimitRb, createNoMaliciousContentRb] := by
    rw [← sequentialDecision_all_eq_deny]
    show (∃ circuit ∈ [createGenesisCircuit], _) ↔ _
    simp only [List.mem_singleton, exists_eq_left, evaluate_decision]
    rfl
  have hbits : ¬ p.GenesisRules request ↔ ¬ ((∃ chipType ∈ GENESIS_TYPES,
      bodyStr request.body "@type" = some chipType) ∧ request.chipId.isSome = true ∧
        (p.evalContext request).bodySize ≤ 1048576) :=
    not_congr ⟨fun h => ⟨h.type, h.id, h.size⟩, fun h => ⟨h.1, h.2.1, h.2.2⟩⟩
  rw [hdeny, hbits, ← htype, ← hid, ← hsize]
  unfold decisions
  simp only [List.map_cons, List.map_nil, List.mem_cons, List.not_mem_nil, or_false,
    eq_comm (a := Decision.deny), createTypeValidationRb, createIdRequiredRb, createSizeLimitRb,
    createNoMaliciousContentRb, genesisRb_decision]
  simp only [createNoMaliciousContentRb, genesisRb] at hcontent
  rw [hcontent]
  simp only [genesisRb]
  tauto

end Genesis

/-! ## What CHECK admits -/

section Check

variable {p : UblPipeline} {request : ParsedChipRequest}

/-- The stage comes to the policies, and none of them denies the request. -/
structure UblPipeline.Admits (p : UblPipeline) (request : ParsedChipRequest) : Prop where
  goesOn : p.GoesOn request
  genesis : p.GenesisRules request
  attached : ∃ policies, p.attachedPolicies request = .ok policies ∧
    ∀ policy ∈ policies, ¬ policy.Decides (p.evalContext request) .deny

/-- What the gate answers with is a denial. -/
theorem gateCheck_deny {check : CheckResult} (h : p.gateCheck request = .ok (some check)) :
    check.decision = .deny := by
  unfold UblPipeline.gateCheck at h
  split at h
  · split at h
    · cases h
    split at h
    · cases h
    split at h
    · cases h
    unfold UblPipeline.gateVerdict at h
    split at h
    · exact congrArg CheckResult.decision (Option.some.inj (Except.ok.inj h)).symm
    · cases h
    · cases h
  · cases h

theorem admits_of_stageCheck {check : CheckResult} (h : p.stageCheck request = .ok check)
    (hallow : check.decision ≠ .deny) : p.Admits request := by
  unfold UblPipeline.stageCheck at h
  split at h
  · cases h
  next hpre =>
  split at h
  · cases h
  · next result hgate =>
    obtain rfl := Except.ok.inj h
    exact absurd (gateCheck_deny hgate) hallow
  · next hgate =>
    unfold UblPipeline.evaluatePolicies UblPipeline.loadPolicyChain at h
    cases hattached : p.attachedPolicies request with
    | error e =>
      rw [hattached] at h
      cases h
    | ok policies =>
      rw [hattached] at h
      obtain rfl := Except.ok.inj h
      have hchain : ∀ policy ∈ createGenesisPolicy :: policies,
          ¬ policy.Decides (p.evalContext request) .deny := by
        intro policy hpolicy hdeny
        rw [(UblPipeline.policiesLoop_eq ..).2] at hallow
        exact hallow (UblPipeline.chainDecision_eq_deny_iff.mpr ⟨policy, hpolicy, hdeny⟩)
      obtain ⟨hgenesis, hothers⟩ := List.forall_mem_cons.mp hchain
      exact ⟨⟨hpre, hgate⟩, not_not.mp (mt (genesis_decides_deny_iff p request).mpr hgenesis),
        policies, hattached, hothers⟩

end Check

/-! ## What a request puts -/

/-- A call of `process_chip_with_context`. -/
structure ChipCall where
  out : Outside
  ctx : AuthorshipContext
  request : ChipRequest

def ChipCall.body (rt : Runtime) (call : ChipCall) : Process PipelineResult :=
  processChipWithContext rt call.out call.ctx call.request

section Owed

variable (rt : Runtime) (pipeline : Option ChipStore → UblPipeline) (last : ChipStore)

/-- Stage CHECK of the runtime is that of a pipeline over the store that it finds. -/
def Runtime.ChecksBy : Prop := ∀ store request check, rt.stageCheck store request = .ok check →
  (pipeline store).stageCheck request = .ok check

/-- A state of the store on the way to the last one. -/
def Passed (store : Option ChipStore) : Prop :=
  ∃ s : PipelineState, s.chips <:+ last ∧ chipStore rt s = store

/-- CHECK admits the request, in some state on the way. -/
def Admitted (request : ParsedChipRequest) : Prop :=
  ∃ store, Passed rt last store ∧ (pipeline store).Admits request

/-- TR makes this of the request, in some state on the way. -/
def Makes (request : ParsedChipRequest) (transition : Transition) : Prop :=
  ∃ store check, Passed rt last store ∧ rt.stageTransition store request check = .ok transition

/-- TR has come to its receipt. -/
def Transitioned (request : ParsedChipRequest) : Prop :=
  ∃ transition receipt, Makes rt last request transition ∧ transition.receipt = .ok receipt

/-- Why a request may put a chip with this data. -/
inductive OwedTo (request : ParsedChipRequest) : Json → Prop
  | body (hadmitted : Admitted rt pipeline last request)
      (htransitioned : Transitioned rt last request) : OwedTo request request.body
  | mapping {req : KeyRotateRequest} {material : KeyRotationMaterial}
      (createdAt rotationChipCid receiptCid : String) (hadmitted : Admitted rt pipeline last request)
      (htransitioned : Transitioned rt last request)
      (hrotate : request.chipType = "ubl/key.rotate")
      (hreq : KeyRotateRequest.parse request.body = .ok req)
      (hmaterial : deriveMaterial rt.crypto rt.kms req request.body rt.signingSeed = .ok material) :
      OwedTo request (mappingChip rt.crypto createdAt request.world rotationChipCid receiptCid
        req.reason material)
  | artifact {transition : Transition} {artifact : Artifact}
      (hadmitted : Admitted rt pipeline last request) (hmakes : Makes rt last request transition)
      (hmem : artifact ∈ transition.artifacts) : OwedTo request artifact.payload
  /-- What the engine says of any request after CHECK. -/
  | explained {engine : AdvisoryEngine} (inputCid decision reason id : String) (policyCount : Nat)
      (hengine : rt.advisoryEngine = some engine) : OwedTo request
        ((engine.postCheckAdvisory inputCid decision reason policyCount).toChipBody id engine.world)
  /-- What the engine says of an allowed request. -/
  | classified {engine : AdvisoryEngine} (inputCid id : String) (durationMs : Int64)
      (hadmitted : Admitted rt pipeline last request)
      (htransitioned : Transitioned rt last request) (hengine : rt.advisoryEngine = some engine) :
      OwedTo request ((engine.postWfAdvisory inputCid request.chipType "allow" durationMs).toChipBody
        id engine.world)

/-- Each chip of the one state is one of the other, or the request may put it. -/
def Owes (request : ParsedChipRequest) (s s' : PipelineState) : Prop :=
  ∀ put ∈ s'.chips, put ∈ s.chips ∨ OwedTo rt pipeline last request put.chip.chipData

end Owed

section Acts

variable {rt : Runtime} {pipeline : Option ChipStore → UblPipeline} {out : Outside}
  {request : ParsedChipRequest} {last : ChipStore} {α : Type}

theorem owes_of_eq {s s' : PipelineState} (h : s'.chips = s.chips) :
    Owes rt pipeline last request s s' := fun _ hput => .inl (h ▸ hput)

theorem owes_storeExecutedChip {now : String} {fault : Option PutFault} {data : Json}
    {receiptCid : String} {metadata : ExecutionMetadata} {s s' : PipelineState}
    (hs : s'.chips = (storeExecutedChip rt.lib now fault data receiptCid metadata s.chips).2)
    (howed : OwedTo rt pipeline last request data) : Owes rt pipeline last request s s' := by
  intro put hput
  rw [hs] at hput
  rcases @storeExecutedChip_cases rt.lib now fault data receiptCid metadata s.chips with
    heq | ⟨cid, indexed, -, heq⟩
  · exact .inl (heq ▸ hput)
  · rw [heq] at hput
    rcases List.mem_cons.mp hput with rfl | hput
    · exact .inr howed
    · exact .inl hput

/-- On the way to the last state the program puts what the request may put; a value that comes out
has `Q`. -/
abbrev Puts (rt : Runtime) (pipeline : Option ChipStore → UblPipeline) (last : ChipStore)
    (request : ParsedChipRequest) (Q : α → Prop) (x : Process α) : Prop :=
  x.Promises (fun _ s => s.chips <:+ last) (Owes rt pipeline last request) Q

theorem puts_ofExcept {x : Except PipelineError α} :
    Puts rt pipeline last request (fun _ => True) (Prog.ofExcept x) :=
  Prog.promises_ofExcept fun _ _ => trivial

/-- An act that leaves the chips alone. -/
theorem puts_atomic {label : Action} {f : PipelineState → Except PipelineError α × PipelineState}
    (h : ∀ s, (f s).2.chips = s.chips) :
    Puts rt pipeline last request (fun _ => True) (Prog.atomic label f) :=
  Prog.promises_atomic fun s _ => ⟨owes_of_eq (h s), fun _ _ => trivial⟩

theorem puts_reads {label : Action} {f : PipelineState → Except PipelineError α} {Q : α → Prop}
    (h : ∀ s a, s.chips <:+ last → f s = .ok a → Q a) :
    Puts rt pipeline last request Q (Prog.reads label f) :=
  Prog.promises_reads (fun _ => owes_of_eq rfl) h

theorem puts_markNonce : Puts rt pipeline last request (fun _ => True) (markNonce rt out) := by
  refine Prog.Promises.bind (puts_atomic fun s => ?_) fun _ _ => ?_
  · split_ifs <;> rfl
  · split_ifs
    · refine puts_atomic fun s => ?_
      obtain ⟨rows, hrows⟩ :=
        nonceMarkIfNew_eq s.durable out.nonceFault out.nonceTime out.nonce 86400
      split <;> rfl
    · trivial

theorem puts_stageWriteAhead :
    Puts rt pipeline last request (fun _ => True) (stageWriteAhead rt out request) := by
  refine Prog.Promises.bind (puts_atomic fun s => ?_) fun _ _ => puts_ofExcept
  split_ifs <;> rfl

theorem puts_appendStageReceipt {label : String} {stage : StageExecution}
    {receipt : UnifiedReceipt} :
    Puts rt pipeline last request (fun _ => True) (appendStageReceipt rt label stage receipt) :=
  puts_reads fun _ _ _ _ => trivial

/-- A put of what the request may put. -/
theorem puts_put {site : StoreSite} {data : Json} (howed : OwedTo rt pipeline last request data)
    {receiptCid : String} {metadata : ExecutionMetadata} :
    Puts rt pipeline last request (fun _ => True) (put rt out site data receiptCid metadata) :=
  Prog.promises_atomic fun _ _ => ⟨owes_storeExecutedChip rfl howed, fun _ _ => trivial⟩

theorem puts_advise {site : StoreSite} {version : String} {advisory : AdvisoryEngine → Advisory}
    (howed : ∀ engine id, rt.advisoryEngine = some engine →
      OwedTo rt pipeline last request ((advisory engine).toChipBody id engine.world)) :
    Puts rt pipeline last request (fun _ => True) (advise rt out site version advisory) := by
  unfold advise
  split
  · rename_i engine hengine _
    refine Prog.promises_atomic fun s _ => ⟨?_, fun _ _ => trivial⟩
    dsimp only
    split_ifs
    · exact owes_storeExecutedChip rfl (howed engine (nextId s.advisoryCounter) hengine)
    · exact owes_of_eq rfl
  · trivial

theorem puts_storeArtifacts {artifacts : List Artifact} {i : Nat}
    (howed : ∀ artifact ∈ artifacts, OwedTo rt pipeline last request artifact.payload) :
    Puts rt pipeline last request (fun _ => True) (storeArtifacts rt out i artifacts) := by
  induction artifacts generalizing i with
  | nil => trivial
  | cons artifact artifacts ih =>
    obtain ⟨howed, howeds⟩ := List.forall_mem_cons.mp howed
    refine Prog.Promises.bind (Q := fun _ => True) ?_ fun _ _ => ih howeds
    refine Prog.Promises.bind puts_ofExcept fun expected _ =>
      Prog.Promises.bind (puts_put howed) fun stored _ => ?_
    cases stored with
    | error e => trivial
    | ok cid =>
      dsimp only
      split_ifs <;> trivial

/-- What an admitted rotation puts beside its chip. -/
theorem puts_rotateKey (hadmitted : Admitted rt pipeline last request)
    (htransitioned : Transitioned rt last request) (hrotate : request.chipType = "ubl/key.rotate")
    {check : CheckResult} {receiptCid : String} {stored : Except ChipStoreError String} :
    Puts rt pipeline last request (fun _ => True)
      (rotateKey rt out request check receiptCid stored) := by
  refine Prog.Promises.bind puts_ofExcept fun rotationChipCid _ =>
    Prog.Promises.bind (Q := fun req => KeyRotateRequest.parse request.body = .ok req)
      (Prog.promises_ofExcept fun req h => ?_) fun req hreq =>
    Prog.Promises.bind (Q := fun material =>
      deriveMaterial rt.crypto rt.kms req request.body rt.signingSeed = .ok material)
      (Prog.promises_ofExcept fun material h => ?_) fun material hmaterial =>
    Prog.Promises.bind (puts_put (.mapping _ _ _ hadmitted htransitioned hrotate hreq
      hmaterial)) fun mapped _ => ?_
  · split at h
    · cases h
    · next hparse => exact hparse.trans (congrArg Except.ok (Except.ok.inj h))
  · cases hderive : deriveMaterial rt.crypto rt.kms req request.body rt.signingSeed with
    | error e =>
      rw [hderive] at h
      cases h
    | ok found =>
      rw [hderive] at h
      exact congrArg Except.ok (Except.ok.inj h)
  · cases mapped with
    | error e => trivial
    | ok cid =>
      refine Prog.Promises.bind puts_ofExcept fun newSk _ =>
        Prog.Promises.bind (puts_atomic fun _ => rfl) fun prev _ => ?_
      split_ifs
      · refine puts_atomic fun s => ?_
        split <;> rfl
      · trivial

theorem puts_persistChip (hadmitted : Admitted rt pipeline last request)
    (htransitioned : Transitioned rt last request) {check : CheckResult} {receiptCid : String} :
    Puts rt pipeline last request (fun _ => True) (persistChip rt out request check receiptCid) := by
  unfold persistChip
  split_ifs with hstore hrotate hrotate'
  · exact Prog.Promises.bind (puts_put (.body hadmitted htransitioned)) fun _ _ =>
      puts_rotateKey hadmitted htransitioned hrotate
  · exact Prog.Promises.bind (puts_put (.body hadmitted htransitioned)) fun _ _ => trivial
  · trivial
  · trivial

theorem puts_persistFinalResult {idemKey : Option IdempotencyKey} {world : String}
    {result : PipelineResult} : Puts rt pipeline last request (fun _ => True)
      (persistFinalResult rt out idemKey world result) := by
  unfold persistFinalResult
  split
  · refine puts_atomic fun s => ?_
    split <;> rfl
  · cases idemKey with
    | none => trivial
    | some key => exact puts_atomic fun _ => rfl

theorem puts_finishDenied {idemKey : IdempotencyKey} {wa : PipelineReceipt} {check : CheckResult}
    {receipt : UnifiedReceipt} : Puts rt pipeline last request (fun _ => True)
      (finishDenied rt out request idemKey wa check receipt) :=
  Prog.Promises.bind (puts_reads fun _ _ _ _ => trivial) fun _ _ =>
    Prog.Promises.bind puts_ofExcept fun _ _ =>
    Prog.Promises.bind puts_appendStageReceipt fun _ _ =>
    Prog.Promises.bind puts_ofExcept fun _ _ =>
    Prog.Promises.bind puts_persistFinalResult fun _ _ => trivial

/-- Where TR returns a receipt, it has been through. -/
theorem puts_stageTransition (hadmitted : Admitted rt pipeline last request)
    {check : CheckResult} :
    Puts rt pipeline last request (fun _ => Transitioned rt last request)
      (stageTransition rt out request check) := by
  refine Prog.Promises.bind (Q := Makes rt last request)
    (puts_reads fun s transition hs h => ?_) fun transition hmakes => ?_
  · split at h
    · cases h
    · exact ⟨_, check, ⟨s, hs, rfl⟩, h⟩
  · exact Prog.Promises.bind (puts_storeArtifacts fun artifact hmem =>
      .artifact hadmitted hmakes hmem) fun _ _ =>
        Prog.promises_ofExcept fun receipt hreceipt => ⟨transition, receipt, hmakes, hreceipt⟩

theorem puts_finishAllowed (hadmitted : Admitted rt pipeline last request)
    {idemKey : IdempotencyKey} {wa : PipelineReceipt} {check : CheckResult}
    {receipt : UnifiedReceipt} : Puts rt pipeline last request (fun _ => True)
      (finishAllowed rt out request idemKey wa check receipt) :=
  Prog.Promises.bind (puts_stageTransition hadmitted) fun _ htransitioned =>
    Prog.Promises.bind puts_appendStageReceipt fun _ _ =>
    Prog.Promises.bind puts_ofExcept fun _ _ =>
    Prog.Promises.bind puts_appendStageReceipt fun _ _ =>
    Prog.Promises.bind puts_ofExcept fun _ _ =>
    Prog.Promises.bind (puts_persistChip hadmitted htransitioned) fun _ _ =>
    Prog.Promises.bind (puts_advise fun _ _ hengine =>
      .classified _ _ _ hadmitted htransitioned hengine) fun _ _ =>
    Prog.Promises.bind puts_persistFinalResult fun _ _ => trivial

theorem puts_execute (hcheck : rt.ChecksBy pipeline) {ctx : AuthorshipContext}
    {idemKey : IdempotencyKey} :
    Puts rt pipeline last request (fun _ => True) (execute rt out ctx request idemKey) := by
  refine Prog.Promises.bind puts_markNonce fun _ _ =>
    Prog.Promises.bind puts_stageWriteAhead fun wa _ =>
    Prog.Promises.bind puts_appendStageReceipt fun receipt _ =>
    Prog.Promises.bind (Q := fun check => ∃ store, Passed rt last store ∧
      rt.stageCheck store request = .ok check) (puts_reads fun s check hs h => ?_) fun check hchecked =>
    Prog.Promises.bind puts_appendStageReceipt fun receipt _ =>
    Prog.Promises.bind (puts_advise fun _ _ hengine => .explained _ _ _ _ _ hengine) fun _ _ => ?_
  · split at h
    · cases h
    · exact ⟨_, ⟨s, hs, rfl⟩, h⟩
  · obtain ⟨store, hstore, hchecked⟩ := hchecked
    split_ifs with hdeny
    · exact puts_finishDenied
    · exact puts_finishAllowed
        ⟨store, hstore, admits_of_stageCheck (hcheck store request check hchecked) hdeny⟩

end Acts

/-! ## Every run -/

theorem Effect.grows {rt : Runtime} {out : Outside} {request : ParsedChipRequest} {label : Action}
    {s s' : PipelineState} (h : Effect rt out request label s s') : s.chips <:+ s'.chips := by
  cases h with
  | looks _ _ => exact List.suffix_rfl
  | marksNonce _ _ _ => exact List.suffix_rfl
  | rotates _ _ => exact List.suffix_rfl
  | putsSecrets _ _ => exact List.suffix_rfl
  | commits _ _ _ _ => exact List.suffix_rfl
  | stores site _ chips counter hgrows =>
    rcases hgrows with rfl | ⟨cid, data, receiptCid, metadata, indexed, -, rfl⟩
    · exact List.suffix_rfl
    · exact List.suffix_cons _ _

theorem acts_body (rt : Runtime) (call : ChipCall) :
    (call.body rt).Acts fun _ s s' => s.chips <:+ s'.chips := by
  cases hparse : ParsedChipRequest.parse rt.crypto.text call.request with
  | error e =>
    rw [ChipCall.body, processChipWithContext, hparse]
    trivial
  | ok request => exact (acts_processChipWithContext hparse).mono fun _ _ _ => Effect.grows

/-- In every order of the steps of any requests, and whatever fails: a chip that comes into the
store is owed to a request that came in, and the store that CHECK saw is part of the last one. -/
theorem stored_owed (rt : Runtime) (pipeline : Option ChipStore → UblPipeline)
    (hcheck : rt.ChecksBy pipeline) (s₀ : PipelineState)
    (p : Pool ChipCall Action PipelineState PipelineError PipelineResult) (n : Nat)
    (hrun : Pool.Run (ChipCall.body rt) (fun _ _ _ => 0) (fun _ _ _ => True) s₀ p n) :
    ∀ put ∈ p.shared.chips, put ∈ s₀.chips ∨ ∃ t ∈ p.threads, ∃ request,
      ParsedChipRequest.parse rt.crypto.text t.call.request = .ok request ∧
        OwedTo rt pipeline p.shared.chips request put.chip.chipData := by
  refine Pool.Run.owed (fun s s' => s.chips <:+ s'.chips) (fun _ _ _ => List.IsSuffix.trans)
    (fun s => {put | put ∈ s.chips}) (fun call put => ∃ request,
      ParsedChipRequest.parse rt.crypto.text call.request = .ok request ∧
        OwedTo rt pipeline p.shared.chips request put.chip.chipData) p.shared (acts_body rt)
    (fun call => ?_) hrun List.suffix_rfl
  unfold ChipCall.body processChipWithContext
  cases hparse : ParsedChipRequest.parse rt.crypto.text call.request with
  | error e => trivial
  | ok request =>
    rw [Prog.ofExcept_ok, Prog.ret_bind]
    refine Prog.Promises.changes (G := Owes rt pipeline p.shared.chips request) ?_
      fun s t howes put hput => (howes put hput).imp id fun howed => ⟨request, rfl, howed⟩
    refine Prog.Promises.bind puts_ofExcept fun idemKey _ =>
      Prog.Promises.bind (puts_reads fun _ _ _ _ => trivial) fun cached _ => ?_
    cases cached with
    | some cached => trivial
    | none => exact puts_execute hcheck

/-- The small runtime with the real stage CHECK. -/
def checkedRuntime : Runtime :=
  { sampleRuntime (fun _ => .error "") false with
    stageCheck := fun _ request =>
      ((samplePipeline ⟨[], fun _ => none⟩).stageCheck request).mapError fun _ => .internal "" }

theorem checksBy_checkedRuntime :
    checkedRuntime.ChecksBy fun _ => samplePipeline ⟨[], fun _ => none⟩ := by
  intro store request check h
  have h : ((samplePipeline ⟨[], fun _ => none⟩).stageCheck request).mapError
    (fun _ => PipelineError.internal "") = .ok check := h
  cases hcheck : (samplePipeline ⟨[], fun _ => none⟩).stageCheck request with
  | error e =>
    rw [hcheck] at h
    cases h
  | ok found =>
    rw [hcheck] at h
    exact congrArg Except.ok (Except.ok.inj h)

def documentCall : ChipCall :=
  ⟨sampleOutside "n1" "n2", ⟨none, none⟩, sampleRequest "ubl/document"⟩

section

variable (rt : Runtime) (out : Outside)
  (check : Option ChipStore → ParsedChipRequest → Except PipelineError CheckResult)

theorem storeArtifacts_check (i : Nat) (artifacts : List Artifact) :
    storeArtifacts rt out i artifacts =
      storeArtifacts { rt with stageCheck := check } out i artifacts := by
  induction artifacts generalizing i with
  | nil => rfl
  | cons artifact artifacts ih =>
    rw [storeArtifacts, storeArtifacts, ih]
    rfl

theorem stageTransition_check (request : ParsedChipRequest) (result : CheckResult) :
    stageTransition rt out request result =
      stageTransition { rt with stageCheck := check } out request result := by
  simp only [stageTransition, storeArtifacts_check rt out check]
  rfl

theorem finishAllowed_check (request : ParsedChipRequest) (key : IdempotencyKey)
    (wa : PipelineReceipt) (result : CheckResult) (receipt : UnifiedReceipt) :
    finishAllowed rt out request key wa result receipt =
      finishAllowed { rt with stageCheck := check } out request key wa result receipt := by
  rw [finishAllowed, stageTransition_check rt out check]
  rfl

/-- Of the stage CHECK, a run asks only the answer to its own request. -/
theorem processChipWithContext_check (ctx : AuthorshipContext) {request : ChipRequest}
    {parsed : ParsedChipRequest}
    (hparse : ParsedChipRequest.parse rt.crypto.text request = .ok parsed)
    (hcheck : ∀ store, rt.stageCheck store parsed = check store parsed) :
    processChipWithContext rt out ctx request =
      processChipWithContext { rt with stageCheck := check } out ctx request := by
  have hstage : stageCheck rt out parsed =
      stageCheck { rt with stageCheck := check } out parsed := by
    simp only [stageCheck, hcheck]
    rfl
  have hexecute (key : IdempotencyKey) : execute rt out ctx parsed key =
      execute { rt with stageCheck := check } out ctx parsed key := by
    simp only [execute, hstage, finishAllowed_check rt out check]
    rfl
  have hparse' : ParsedChipRequest.parse (Runtime.crypto { rt with stageCheck := check }).text
      request = .ok parsed := hparse
  simp only [processChipWithContext, hparse, hparse', Prog.ofExcept_ok, Prog.ret_bind, hexecute]
  rfl

end

def documentParsed : ParsedChipRequest :=
  ⟨sampleRequest "ubl/document", "ubl/document", some "1", "a/x"⟩

/-- What the genesis policy says to the document. -/
def documentCheck : CheckResult where
  decision := .allow
  reason := "All policies allowed"
  shortCircuited := false
  trace := [⟨"genesis", "ubl.genesis.v1", .allow, "All circuits allowed",
    [⟨"type_validation", .allow, "Valid Chip Type evaluated to true → Allow", ["@type"]⟩,
      ⟨"has_logical_id", .allow, "Has ID Field evaluated to true → Allow", ["chip.id"]⟩,
      ⟨"size_limit", .allow, "Body Size Limit evaluated to true → Allow", []⟩,
      ⟨"no_malicious_content", .allow, "No Malicious Content evaluated to true → Allow",
        ["body.query", "body.script"]⟩]⟩]

theorem typeValidation_inputsUsed :
    createTypeValidationRb.condition.inputsUsed = ["@type"] := by
  have hsorted : createTypeValidationRb.condition.collectInputs.Pairwise (· ≤ ·) := by
    decide +kernel
  rw [Policy.Expression.inputsUsed, List.mergeSort_of_pairwise (by simpa using hsorted)]
  decide +kernel

theorem noMaliciousContent_inputsUsed :
    createNoMaliciousContentRb.condition.inputsUsed = ["body.query", "body.script"] := by
  simp [createNoMaliciousContentRb, genesisRb, Policy.Expression.inputsUsed,
    Policy.Expression.collectInputs, Policy.Expression.collectAllInputs, List.mergeSort]

theorem stageCheck_document :
    (samplePipeline ⟨[], fun _ => none⟩).stageCheck documentParsed = .ok documentCheck := by
  rw [documentCheck, ← typeValidation_inputsUsed, ← noMaliciousContent_inputsUsed]
  with_unfolding_all rfl

/-- What the request puts when it runs alone. -/
def documentChips : ChipStore :=
  (Prog.spend (fun _ _ _ => 0) (documentCall.body checkedRuntime) (sampleState "s0") 0).2.1.chips

theorem documentChips_ne_nil : documentChips ≠ [] := by
  have hcheck (store : Option ChipStore) :
      checkedRuntime.stageCheck store documentParsed = .ok documentCheck :=
    congrArg (Except.mapError fun _ => PipelineError.internal "") stageCheck_document
  have hlength : (Prog.spend (fun _ _ _ => 0)
      (documentCall.body { checkedRuntime with stageCheck := fun _ _ => .ok documentCheck })
      (sampleState "s0") 0).2.1.chips.length = 1 := by
    decide +kernel
  rw [documentChips, ChipCall.body,
    processChipWithContext_check checkedRuntime documentCall.out (fun _ _ => .ok documentCheck)
      documentCall.ctx rfl hcheck]
  intro h
  exact absurd (hlength.symm.trans (congrArg List.length h)) (by decide)

theorem stored_owed_document : documentChips ≠ [] ∧ ∃ p n, p.shared.chips = documentChips ∧
    Pool.Run (ChipCall.body checkedRuntime) (fun _ _ _ => 0) (fun _ _ _ => True)
      (sampleState "s0") p n ∧
    ∀ put ∈ documentChips, ∃ request,
      ParsedChipRequest.parse checkedRuntime.crypto.text documentCall.request = .ok request ∧
        OwedTo checkedRuntime (fun _ => samplePipeline ⟨[], fun _ => none⟩) documentChips request
          put.chip.chipData := by
  have hempty : Pool.Run (ChipCall.body checkedRuntime) (fun _ _ _ => 0) (fun _ _ _ => True)
      (sampleState "s0") ⟨[], sampleState "s0"⟩ 0 := .start
  obtain ⟨started, hend⟩ := Pool.Run.finish (documentCall.body checkedRuntime) (i := 0)
    (hempty.arrives documentCall) rfl fun _ _ _ _ => trivial
  refine ⟨documentChips_ne_nil, _, _, rfl, hend, fun put hput => ?_⟩
  rcases stored_owed checkedRuntime (fun _ => samplePipeline ⟨[], fun _ => none⟩)
    checksBy_checkedRuntime (sampleState "s0") _ _ hend put hput with h | ⟨t, ht, request, howed⟩
  · cases h
  · obtain rfl := List.mem_singleton.mp ht
    exact ⟨request, howed⟩

end Ubl.Pipeline
