import Ubl.Lib.UpToFirst
import Ubl.Pipeline.Gate
import Ubl.Policy.Decisions

/-!
# The loop over the policies

Both loops above the circuits ask of each decision only whether it is a denial and stop at the
first one.  So the stage denies where some circuit of some policy does, looked at in full
(`policiesLoop_decides`), and everything else ends in an approval, a circuit that requires consent
included (`require_allowed`).
-/

namespace Ubl.Policy

open UpToFirst

/-- The decision of a policy all of whose circuits are evaluated. -/
def PolicyBit.fullDecision (context : EvalContext) (policy : PolicyBit) : Decision :=
  if .deny ∈ policy.circuits.map (Circuit.fullDecision context) then .deny else .allow

/-- Some circuit of the policy decides `d`. -/
def PolicyBit.Decides (context : EvalContext) (d : Decision) (policy : PolicyBit) : Prop :=
  ∃ circuit ∈ policy.circuits, (circuit.evaluate context).decision = d

variable {context : EvalContext}

theorem fullDecision_eq_deny_iff {policy : PolicyBit} :
    policy.fullDecision context = .deny ↔ policy.Decides context .deny := by
  have hmem : .deny ∈ policy.circuits.map (Circuit.fullDecision context) ↔
      policy.Decides context .deny := by
    simp only [List.mem_map, PolicyBit.Decides, evaluate_decision]
  rw [← hmem, PolicyBit.fullDecision]
  split_ifs with h <;> simp [h]

/-- The results come up to the first denial. -/
theorem policyLoop_eq (id : String) (done : List CircuitResult) (circuits : List Circuit) :
    (policyLoop id context done circuits).circuitResults = done ++
        upToFirst (fun r => r.decision = .deny) (circuits.map fun c => c.evaluate context) ∧
      (policyLoop id context done circuits).decision =
        if .deny ∈ circuits.map (Circuit.fullDecision context) then .deny else .allow := by
  induction circuits generalizing done with
  | nil => exact ⟨(List.append_nil done).symm, rfl⟩
  | cons circuit circuits ih =>
    simp only [policyLoop, List.map_cons, upToFirst, List.mem_cons, ← evaluate_decision]
    by_cases hdeny : (circuit.evaluate context).decision = .deny
    · simp only [hdeny, if_pos, true_or, and_true]
    · rw [if_neg hdeny, if_neg hdeny, (ih _).1, (ih _).2, List.append_assoc, List.singleton_append]
      simp only [eq_comm (a := Decision.deny), hdeny, false_or, and_self]

theorem policy_decision (policy : PolicyBit) :
    (policy.evaluate context).decision = policy.fullDecision context :=
  (policyLoop_eq policy.id [] policy.circuits).2

/-- A policy denies or allows. -/
theorem policy_decision_eq_allow_iff {policy : PolicyBit} :
    (policy.evaluate context).decision = .allow ↔ ¬ policy.Decides context .deny := by
  rw [policy_decision, ← fullDecision_eq_deny_iff, PolicyBit.fullDecision]
  split_ifs <;> simp

theorem policyLoop_allow (id : String) (done : List CircuitResult) {circuits : List Circuit}
    (h : (policyLoop id context done circuits).decision = .allow) :
    (policyLoop id context done circuits).reason = "All circuits allowed" := by
  induction circuits generalizing done with
  | nil => rfl
  | cons circuit circuits ih =>
    simp only [policyLoop] at h ⊢
    split_ifs at h ⊢
    exact ih _ h

end Ubl.Policy

namespace Ubl.Pipeline

open UpToFirst
open Ubl.Policy

/-- The decision on a chain all of whose policies are evaluated. -/
def chainDecision (context : EvalContext) (policies : List PolicyBit) : Decision :=
  if .deny ∈ policies.map (PolicyBit.fullDecision context) then .deny else .allow

namespace UblPipeline

variable {context : EvalContext}

theorem policiesLoop_eq (trace : List PolicyTraceEntry) (policies : List PolicyBit) :
    (policiesLoop context trace policies).trace = trace ++
        (upToFirst (fun r => r.decision = .deny)
          (policies.map fun policy => policy.evaluate context)).map policyResultToTrace ∧
      (policiesLoop context trace policies).decision = chainDecision context policies := by
  induction policies generalizing trace with
  | nil => exact ⟨(List.append_nil trace).symm, rfl⟩
  | cons policy policies ih =>
    simp only [policiesLoop, chainDecision, List.map_cons, upToFirst, List.mem_cons,
      ← policy_decision]
    by_cases hdeny : (policy.evaluate context).decision = .deny
    · simp only [hdeny, if_pos, true_or, and_true]
      rfl
    · rw [if_neg hdeny, if_neg hdeny, (ih _).1, (ih _).2, List.append_assoc, List.map_cons,
        List.singleton_append]
      simp only [chainDecision, eq_comm (a := Decision.deny), hdeny, false_or, and_self]

theorem chainDecision_eq_deny_iff {policies : List PolicyBit} :
    chainDecision context policies = .deny ↔
      ∃ policy ∈ policies, policy.Decides context .deny := by
  have hmem : .deny ∈ policies.map (PolicyBit.fullDecision context) ↔
      ∃ policy ∈ policies, policy.Decides context .deny := by
    simp only [List.mem_map, fullDecision_eq_deny_iff]
  rw [← hmem, chainDecision]
  split_ifs with h <;> simp [h]

theorem chainDecision_eq_allow_iff {policies : List PolicyBit} :
    chainDecision context policies = .allow ↔
      ∀ policy ∈ policies, ¬ policy.Decides context .deny := by
  have hdeny := @chainDecision_eq_deny_iff context policies
  have hcases : chainDecision context policies = .allow ↔
      ¬ chainDecision context policies = .deny := by
    unfold chainDecision
    split_ifs <;> simp
  rw [hcases, hdeny]
  push Not
  rfl

/-- What the stage records of a policy. -/
def traceOf (context : EvalContext) (policy : PolicyBit) : PolicyTraceEntry :=
  policyResultToTrace (policy.evaluate context)

/-- The loop denies where a circuit of the chain does, its trace comes up to the first policy that
denies, and no short cut, be it over bits, circuits or policies, has any part in the decision. -/
theorem policiesLoop_decides (context : EvalContext) (policies : List PolicyBit) :
    ((policiesLoop context [] policies).decision = .deny ↔
        ∃ policy ∈ policies, ∃ circuit ∈ policy.circuits,
          circuit.fullDecision context = .deny) ∧
      ((∀ policy ∈ policies, (policy.evaluate context).decision ≠ .deny) →
        (policiesLoop context [] policies).trace = policies.map (traceOf context)) ∧
      (∀ before policy after, policies = before ++ policy :: after →
        (∀ earlier ∈ before, (earlier.evaluate context).decision ≠ .deny) →
        (policy.evaluate context).decision = .deny →
        (policiesLoop context [] policies).trace = (before ++ [policy]).map (traceOf context)) ∧
      (policiesLoop context [] policies).decision = chainDecision context policies ∧
      ∀ circuit : Circuit, (circuit.evaluate context).decision = circuit.fullDecision context := by
  obtain ⟨htrace, hdecision⟩ := @policiesLoop_eq context [] policies
  rw [List.nil_append] at htrace
  refine ⟨?_, fun hnone => ?_, fun before policy after hsplit hbefore hdeny => ?_, hdecision,
    evaluate_decision⟩
  · rw [hdecision, chainDecision_eq_deny_iff]
    simp only [PolicyBit.Decides, evaluate_decision]
  · rw [htrace, upToFirst_of_none (List.forall_mem_map.mpr hnone), List.map_map]
    rfl
  · have hnone : ∀ r ∈ before.map fun policy => policy.evaluate context, ¬ r.decision = .deny :=
      List.forall_mem_map.mpr hbefore
    rw [htrace, hsplit, List.map_append, List.map_cons, upToFirst_of_first hnone hdeny]
    simp only [List.map_append, List.map_map, List.map_cons, List.map_nil]
    rfl

/-- Where the policies are reached, the stage decides what their loop decides. -/
theorem stageCheck_eq (p : UblPipeline) {request : ParsedChipRequest} (hgoes : p.GoesOn request)
    {policies : List PolicyBit} (hload : p.loadPolicyChain request = .ok policies) :
    p.stageCheck request = .ok (policiesLoop (p.evalContext request) [] policies) := by
  simp only [stageCheck, hgoes.1, hgoes.2, evaluatePolicies, hload]

/-- A policy of which some circuit requires consent and none denies is passed as allowed, and so is
the request, unless another policy denies it. -/
theorem require_allowed (context : EvalContext) (policies : List PolicyBit) (policy : PolicyBit)
    (hrequire : policy.Decides context .require) (hdeny : ¬ policy.Decides context .deny) :
    (policy.evaluate context).decision = .allow ∧
      (policy.evaluate context).reason = "All circuits allowed" ∧
      (∃ circuit ∈ (policy.evaluate context).circuitResults, circuit.decision = .require) ∧
      ((policiesLoop context [] policies).decision = .allow ↔
        ∀ other ∈ policies, ¬ other.Decides context .deny) ∧
      ∀ (p : UblPipeline) (request : ParsedChipRequest), p.GoesOn request →
        p.evalContext request = context → p.loadPolicyChain request = .ok policies →
        p.stageCheck request = .ok (policiesLoop context [] policies) := by
  have hallow : (policy.evaluate context).decision = .allow :=
    policy_decision_eq_allow_iff.mpr hdeny
  have hnone : ∀ r ∈ policy.circuits.map fun c => c.evaluate context, ¬ r.decision = .deny := by
    rw [List.forall_mem_map]
    intro circuit hcircuit hd
    exact hdeny ⟨circuit, hcircuit, hd⟩
  refine ⟨hallow, policyLoop_allow _ _ hallow, ?_, ?_, ?_⟩
  · obtain ⟨circuit, hcircuit, hd⟩ := hrequire
    refine ⟨circuit.evaluate context, ?_, hd⟩
    rw [PolicyBit.evaluate, (policyLoop_eq policy.id [] policy.circuits).1, List.nil_append,
      upToFirst_of_none hnone]
    exact List.mem_map_of_mem hcircuit
  · rw [(@policiesLoop_eq context [] policies).2, chainDecision_eq_allow_iff]
  · rintro p request hgoes rfl hload
    exact stageCheck_eq p hgoes hload

/-- A policy of one circuit with one bit, which decides `d`. -/
def constantPolicy (id : String) (d : Decision) (scope : PolicyScope) : PolicyBit :=
  ⟨id, id, [.mk "c" "c" [constantBit "b" d] .sequential .all], scope⟩

theorem constantPolicy_decides (id : String) (d : Decision) (scope : PolicyScope)
    (context : EvalContext) (d' : Decision) :
    (constantPolicy id d scope).Decides context d' ↔ d = d' := by
  have hcircuit : ((Circuit.mk "c" "c" [constantBit "b" d] .sequential .all).evaluate
      context).decision = d := by
    cases d <;> rfl
  simp only [PolicyBit.Decides, constantPolicy, List.mem_singleton, exists_eq_left, hcircuit]

/-- A policy under which everything requires consent. -/
def consentPolicy : PolicyBit := constantPolicy "acme.consent.v1" .require ⟨["*"], ["*"], "app"⟩

theorem require_allowed_consent :
    (consentPolicy.evaluate ⟨.null, 0, []⟩).decision = .allow ∧
      ((policiesLoop ⟨.null, 0, []⟩ [] [consentPolicy]).decision = .allow ↔
        ∀ other ∈ [consentPolicy], ¬ other.Decides ⟨.null, 0, []⟩ .deny) := by
  have h := require_allowed ⟨.null, 0, []⟩ [consentPolicy] consentPolicy
    ((constantPolicy_decides ..).mpr rfl) (mt (constantPolicy_decides ..).mp (by decide))
  exact ⟨h.1, h.2.2.2.1⟩

/-- The document of `gatedBody` without its gate. -/
def documentRequest (parents : List String) : ParsedChipRequest :=
  ⟨⟨"ubl/document", .object [("@id", .string "d"), ("@type", .string "ubl/document"),
    ("@world", .string "a/acme")], parents, none⟩, "ubl/document", some "d", "a/acme"⟩

/-- The genesis policy does not deny the document. -/
theorem genesis_not_deny (parents : List String) : ¬ createGenesisPolicy.Decides
    ((samplePipeline ⟨[], fun _ => none⟩).evalContext (documentRequest parents)) .deny := by
  rw [← policy_decision_eq_allow_iff]
  rfl

/-- The policy requires consent, and the stage allows the request. -/
theorem consent_dropped : ∃ (p : UblPipeline) (result : CheckResult),
    p.loadPolicyChain (documentRequest ["b3:app"]) = .ok [createGenesisPolicy, consentPolicy] ∧
      consentPolicy.Decides (p.evalContext (documentRequest ["b3:app"])) .require ∧
      (∀ policy ∈ [createGenesisPolicy, consentPolicy],
        ¬ policy.Decides (p.evalContext (documentRequest ["b3:app"])) .deny) ∧
      p.stageCheck (documentRequest ["b3:app"]) = .ok result ∧ result.decision = .allow := by
  let p : UblPipeline :=
    { samplePipeline ⟨[], fun _ => none⟩ with attachedPolicies := fun _ => .ok [consentPolicy] }
  have hnone : ∀ policy ∈ [createGenesisPolicy, consentPolicy],
      ¬ policy.Decides (p.evalContext (documentRequest ["b3:app"])) .deny := by
    simp only [List.forall_mem_cons, List.not_mem_nil, false_implies, implies_true, and_true]
    exact ⟨genesis_not_deny _, mt (constantPolicy_decides ..).mp (by decide)⟩
  refine ⟨p, _, rfl, (constantPolicy_decides ..).mpr rfl, hnone, stageCheck_eq p ⟨rfl, rfl⟩ rfl, ?_⟩
  rw [(policiesLoop_eq ..).2, chainDecision_eq_allow_iff]
  exact hnone

end UblPipeline

end Ubl.Pipeline
