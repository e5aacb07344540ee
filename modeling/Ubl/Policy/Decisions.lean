import Ubl.Policy.Circuit

/-!
# What a circuit decides

The decision of a circuit depends on the decisions of its bits alone, and a sequential circuit
that stops at a denial has not missed anything: `fullDecision` looks at every bit.

    (circuit.evaluate context).decision = circuit.fullDecision context    (evaluate_decision)

Away from `FirstDecisive` in parallel the order of the bits does not count
(`evaluate_decision_perm`).
-/

namespace Ubl.Policy

/-! ## Decisions of a row of bits -/

/-- The decision of `aggregate_results`. -/
def aggregateDecision (aggregator : AggregationMode) (ds : List Decision) : Decision :=
  if ds = [] then .allow
  else
    match aggregator with
    | .all => if .deny ∈ ds then .deny else if .require ∈ ds then .require else .allow
    | .any => if .allow ∈ ds then .allow else .deny
    | .majority => if ds.length / 2 < ds.count .allow then .allow else .deny
    | .kOfN k _ => if k.toNat ≤ ds.count .allow then .allow else .deny
    | .firstDecisive => (ds.find? (· ≠ .require)).getD .require

theorem countOf_eq_count (d : Decision) (results : List RbResult) :
    countOf d results = (results.map RbResult.decision).count d := by
  induction results with
  | nil => rfl
  | cons r results ih =>
    rw [countOf_cons, ih, List.map_cons, List.count_cons, Nat.add_comm]
    simp

theorem count_ne_zero {d : Decision} {ds : List Decision} : ds.count d ≠ 0 ↔ d ∈ ds :=
  Nat.pos_iff_ne_zero.symm.trans List.count_pos_iff

theorem aggregateResults_decision (id : String) (aggregator : AggregationMode)
    (results : List RbResult) : (aggregateResults id aggregator results).decision =
      aggregateDecision aggregator (results.map RbResult.decision) := by
  unfold aggregateResults aggregateDecision
  by_cases hnil : results = []
  · simp [hnil]
  have hmap : results.map RbResult.decision ≠ [] := mt List.map_eq_nil_iff.mp hnil
  simp only [if_neg hnil, if_neg hmap, countOf_eq_count, count_ne_zero]
  cases aggregator with
  | all => dsimp only; split_ifs <;> rfl
  | any => dsimp only; split_ifs <;> rfl
  | majority => simp only [List.length_map, gt_iff_lt]; split_ifs <;> rfl
  | kOfN k n => simp only [ge_iff_le]; split_ifs <;> rfl
  | firstDecisive =>
    have hpred : ((fun d : Decision => decide (d ≠ .require)) ∘ RbResult.decision) =
        fun r : RbResult => decide (r.decision ≠ .require) := rfl
    simp only [List.find?_map, hpred]
    cases results.find? fun r => decide (r.decision ≠ .require) <;> rfl

/-- One after the other, a denial is final. -/
def sequentialDecision (aggregator : AggregationMode) (ds : List Decision) : Decision :=
  if .deny ∈ ds then .deny else aggregateDecision aggregator ds

/-- What the bits decide, in their order. -/
def decisions (context : EvalContext) (bits : List ReasoningBit) : List Decision :=
  bits.map fun rb => (rb.evaluate context).decision

/-- The results before the loop hold no denial. -/
theorem sequentialLoop_decision (id : String) (aggregator : AggregationMode)
    (context : EvalContext) {done : List RbResult} (hdone : .deny ∉ done.map RbResult.decision)
    (bits : List ReasoningBit) : (sequentialLoop id aggregator context done bits).decision =
      sequentialDecision aggregator (done.map RbResult.decision ++ decisions context bits) := by
  induction bits generalizing done with
  | nil =>
    have happend : done.map RbResult.decision ++ decisions context [] =
        done.map RbResult.decision := List.append_nil _
    rw [sequentialLoop, aggregateResults_decision, sequentialDecision, happend, if_neg hdone]
  | cons rb bits ih =>
    unfold sequentialLoop
    by_cases hdeny : (rb.evaluate context).decision = .deny
    · have hmem : .deny ∈ done.map RbResult.decision ++ decisions context (rb :: bits) :=
        List.mem_append_right _ (List.mem_cons.mpr (.inl hdeny.symm))
      rw [if_pos hdeny, sequentialDecision, if_pos hmem]
    · have hdone' : .deny ∉ (done ++ [rb.evaluate context]).map RbResult.decision := by
        rw [List.map_append, List.mem_append, not_or]
        exact ⟨hdone, by simpa using Ne.symm hdeny⟩
      rw [if_neg hdeny, ih hdone', List.map_append, List.append_assoc]
      rfl

/-! ## Circuits -/

mutual

/-- The decision of a circuit all of whose bits are evaluated. -/
def Circuit.fullDecision (context : EvalContext) : Circuit → Decision
  | .mk _ _ bits .sequential aggregator => sequentialDecision aggregator (decisions context bits)
  | .mk _ _ bits .parallel aggregator => aggregateDecision aggregator (decisions context bits)
  | .mk _ _ _ (.conditional branches) _ =>
    ((thenDecision context branches).or (elseDecision context branches)).getD .deny

/-- Of the first branch whose condition holds. -/
def thenDecision (context : EvalContext) : List ConditionalBranch → Option Decision
  | [] => none
  | .mk condition thenCircuit _ :: branches =>
    if condition.evaluate context then some (thenCircuit.fullDecision context)
    else thenDecision context branches

/-- Of the else circuit of the first branch. -/
def elseDecision (context : EvalContext) : List ConditionalBranch → Option Decision
  | .mk _ _ (some elseCircuit) :: _ => some (elseCircuit.fullDecision context)
  | _ => none

end

variable {context : EvalContext}

mutual

theorem evaluate_decision : (circuit : Circuit) →
    (circuit.evaluate context).decision = circuit.fullDecision context
  | .mk id name bits .sequential aggregator => by
    rw [Circuit.evaluate, Circuit.fullDecision,
      sequentialLoop_decision id aggregator context List.not_mem_nil]
    rfl
  | .mk id name bits .parallel aggregator => by
    rw [Circuit.evaluate, Circuit.fullDecision, aggregateResults_decision, List.map_map]
    rfl
  | .mk id name bits (.conditional branches) aggregator => by
    rw [Circuit.evaluate, Circuit.fullDecision, ← firstBranch_decision branches,
      ← elseOfFirst_decision branches]
    cases firstBranch context branches with
    | some result => rfl
    | none => cases elseOfFirst context branches <;> rfl

theorem firstBranch_decision : (branches : List ConditionalBranch) →
    (firstBranch context branches).map CircuitResult.decision = thenDecision context branches
  | [] => by rw [firstBranch, thenDecision]; rfl
  | .mk condition thenCircuit elseCircuit :: branches => by
    rw [firstBranch, thenDecision, ← evaluate_decision thenCircuit, ← firstBranch_decision branches]
    split_ifs <;> rfl

theorem elseOfFirst_decision : (branches : List ConditionalBranch) →
    (elseOfFirst context branches).map CircuitResult.decision = elseDecision context branches
  | [] => by rw [elseOfFirst, elseDecision] <;> simp
  | .mk condition thenCircuit none :: branches => by rw [elseOfFirst, elseDecision] <;> simp
  | .mk condition thenCircuit (some elseCircuit) :: branches => by
    rw [elseOfFirst, elseDecision, ← evaluate_decision elseCircuit]
    rfl

end

/-! ## The order of the bits -/

/-- The first decisive one of a row without denials is an approval. -/
theorem find?_decisive {ds : List Decision} (h : .deny ∉ ds) :
    (ds.find? (· ≠ .require)).getD .require = if .allow ∈ ds then .allow else .require := by
  induction ds with
  | nil => rfl
  | cons d ds ih =>
    obtain ⟨hd, hds⟩ := not_or.mp (mt List.mem_cons.mpr h)
    cases d with
    | allow => simp
    | deny => exact absurd rfl hd
    | require => simpa using ih hds

theorem aggregateDecision_perm {aggregator : AggregationMode} {ds ds' : List Decision}
    (hperm : ds.Perm ds') (h : aggregator = .firstDecisive → .deny ∉ ds) :
    aggregateDecision aggregator ds = aggregateDecision aggregator ds' := by
  have hnil : ds = [] ↔ ds' = [] := by
    rw [← List.length_eq_zero_iff, ← List.length_eq_zero_iff, hperm.length_eq]
  unfold aggregateDecision
  simp only [hnil]
  cases aggregator with
  | firstDecisive =>
    have hdeny := h rfl
    simp only [find?_decisive hdeny, find?_decisive (mt hperm.mem_iff.mpr hdeny), hperm.mem_iff]
  | _ => simp only [hperm.mem_iff, hperm.length_eq, hperm.count_eq]

/-- One after the other always, side by side unless the first decisive one counts: the order of
the bits is of no matter to the decision. -/
theorem evaluate_decision_perm {bits bits' : List ReasoningBit} (hperm : bits.Perm bits')
    {composition : CompositionMode} {aggregator : AggregationMode}
    (hmode : composition = .sequential ∨
      composition = .parallel ∧ aggregator ≠ .firstDecisive)
    (id name : String) (context : EvalContext) :
    ((Circuit.mk id name bits composition aggregator).evaluate context).decision =
      ((Circuit.mk id name bits' composition aggregator).evaluate context).decision := by
  have hds : (decisions context bits).Perm (decisions context bits') := hperm.map _
  rw [evaluate_decision, evaluate_decision]
  rcases hmode with rfl | ⟨rfl, hdecisive⟩
  · simp only [Circuit.fullDecision, sequentialDecision, hds.mem_iff]
    split_ifs with hdeny
    · rfl
    · exact aggregateDecision_perm hds fun _ => mt hds.mem_iff.mp hdeny
  · simp only [Circuit.fullDecision]
    exact aggregateDecision_perm hds fun h => absurd h hdecisive

/-- A bit whatever the context. -/
def constantBit (id : String) (d : Decision) : ReasoningBit := ⟨id, id, .always true, d, d, []⟩

/-- Side by side, the first decisive one decides: there the order counts. -/
example : ((Circuit.mk "c" "c" [constantBit "a" .allow, constantBit "d" .deny] .parallel
      .firstDecisive).fullDecision ⟨.null, 0, []⟩, (Circuit.mk "c" "c"
      [constantBit "d" .deny, constantBit "a" .allow] .parallel
      .firstDecisive).fullDecision ⟨.null, 0, []⟩) = (.allow, .deny) := by
  decide

theorem evaluate_decision_perm_majority :
    ((Circuit.mk "c" "c" [constantBit "a" .allow, constantBit "d" .deny, constantBit "b" .allow]
        .parallel .majority).evaluate ⟨.null, 0, []⟩).decision =
      ((Circuit.mk "c" "c" [constantBit "d" .deny, constantBit "a" .allow, constantBit "b" .allow]
        .parallel .majority).evaluate ⟨.null, 0, []⟩).decision :=
  evaluate_decision_perm (.swap _ _ _) (.inr ⟨rfl, by decide⟩) "c" "c" ⟨.null, 0, []⟩

end Ubl.Policy
