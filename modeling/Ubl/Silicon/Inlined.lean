import Ubl.Silicon.Mixed
import Ubl.Silicon.Unreadable

/-!
# A sub-chip inlined and alone

`compile_subchip_as_bool` folds all nodes of a sub-chip with `BoolAnd`, whatever the aggregators
of its circuits; `compile_chip_to_ubl_vm` gives every circuit its own.  For an assignment of
truth values to the conditions

    inlined Bool  =  all nodes of all circuits
    own program   ⇔  every circuit meets its aggregator (`Satisfied`)

and the two are one when the assignment leaves no gap between them
(`inlined_eq_alone_iff`).
-/

namespace Ubl.Silicon

open BigEndian Metered ExceptLemmas
open Ubl.Vm
open Ubl.Policy (Decision CompositionMode AggregationMode)

variable {σ : Type}

/-! ## Inlined -/

section Truth

variable (truth : ConditionSpec → Bool)

mutual

/-- A bit is as its condition; an inlined sub-chip holds when all of its nodes do. -/
def nodeTruth : ResolvedNode → Bool
  | .bit b => truth b.body.condition
  | .subChip circuits => (circuitsTruths circuits).all id

def nodesTruths : List ResolvedNode → List Bool
  | [] => []
  | node :: nodes => nodeTruth node :: nodesTruths nodes

def circuitsTruths : List ResolvedCircuit → List Bool
  | [] => []
  | .mk _ _ nodes :: circuits => nodesTruths nodes ++ circuitsTruths circuits

end

theorem nodesTruths_eq_map (nodes : List ResolvedNode) :
    nodesTruths truth nodes = nodes.map (nodeTruth truth) := by
  induction nodes with
  | nil => rfl
  | cons node nodes ih => rw [nodesTruths, List.map_cons, ih]

theorem length_circuitsTruths (circuits : List ResolvedCircuit) :
    (circuitsTruths truth circuits).length = countNodes circuits := by
  induction circuits with
  | nil => rfl
  | cons circuit circuits ih =>
    obtain ⟨cid, body, nodes⟩ := circuit
    rw [circuitsTruths, countNodes, List.length_append, ih, nodesTruths_eq_map, List.length_map]

/-- All nodes of all circuits hold. -/
theorem all_circuitsTruths (circuits : List ResolvedCircuit) :
    (circuitsTruths truth circuits).all id = true ↔
      ∀ circuit ∈ circuits, (nodesTruths truth circuit.nodes).all id = true := by
  induction circuits with
  | nil => simp [circuitsTruths]
  | cons circuit circuits ih =>
    obtain ⟨cid, body, nodes⟩ := circuit
    rw [circuitsTruths, List.all_append, Bool.and_eq_true, ih, List.forall_mem_cons]
    rfl

end Truth

section Leaves

variable {env : VmEnv σ} {lib : TextLib} {cas : σ} {truth : ConditionSpec → Bool}

mutual

/-- The code of a node leaves its truth. -/
theorem leaves_emitNodeAsBool : ∀ node : ResolvedNode,
    (∀ c ∈ nodeConditions node, ConditionRuns env lib cas c (truth c)) →
      Leaves env cas (emitNodeAsBool lib node) [nodeTruth truth node]
  | .bit b, h => by
    rw [emitNodeAsBool, nodeTruth]
    exact h _ (by simp [nodeConditions])
  | .subChip circuits, h => by
    have hinner := leaves_emitCircuitsAsBools circuits (by simpa [nodeConditions] using h)
    have hlen := length_circuitsTruths truth circuits
    rw [emitNodeAsBool, nodeTruth]
    by_cases hzero : countNodes circuits = 0
    · have hnil : circuitsTruths truth circuits = [] :=
        List.length_eq_zero_iff.mp (hlen.trans hzero)
      rw [hnil] at hinner ⊢
      rw [if_pos hzero]
      exact hinner.append ⟨_, Decodes.of_short (by simp [Instr.Short]), by simp, fun _ _ => rfl⟩
    · have hne : circuitsTruths truth circuits ≠ [] := by
        intro hnil
        rw [hnil] at hlen
        exact hzero hlen.symm
      rw [if_neg hzero, ← hlen]
      exact hinner.foldAnd hne

theorem leaves_emitNodes : ∀ nodes : List ResolvedNode,
    (∀ c ∈ nodesConditions nodes, ConditionRuns env lib cas c (truth c)) →
      Leaves env cas (emitNodesAsBools lib nodes) (nodesTruths truth nodes)
  | [], _ => by
    rw [emitNodesAsBools, nodesTruths]
    exact Leaves.nil
  | node :: nodes, h => by
    rw [nodesConditions, List.forall_mem_append] at h
    rw [emitNodesAsBools, nodesTruths]
    exact (leaves_emitNodeAsBool node h.1).append (leaves_emitNodes nodes h.2)

theorem leaves_emitCircuitsAsBools : ∀ circuits : List ResolvedCircuit,
    (∀ c ∈ circuitsConditions circuits, ConditionRuns env lib cas c (truth c)) →
      Leaves env cas (emitCircuitsAsBools lib circuits) (circuitsTruths truth circuits)
  | [], _ => by
    rw [emitCircuitsAsBools, circuitsTruths]
    exact Leaves.nil
  | .mk _ _ nodes :: circuits, h => by
    rw [circuitsConditions, List.forall_mem_append] at h
    rw [emitCircuitsAsBools, circuitsTruths]
    exact (leaves_emitNodes nodes h.1).append (leaves_emitCircuitsAsBools circuits h.2)

end

end Leaves

/-! ## Alone -/

/-- What a circuit asks of its Booleans; `mixed` if there is a sub-chip among its nodes.  A `k`
from 2^63 on is a negative threshold. -/
def Meets (mixed : Prop) (aggregation : AggregationMode) (bs : List Bool) : Prop :=
  match aggregation with
  | .all | .firstDecisive => bs.all id = true
  | .any => bs.any id = true
  | .majority => (mixed → bs.length = 1) ∧ bs.length / 2 < bs.count true
  | .kOfN k _ => (mixed → bs.length = 1) ∧ (k.toNat < 2 ^ 63 → k.toNat ≤ bs.count true)

/-- The compiler takes the circuit and its nodes meet its aggregator. -/
def Satisfied (lib : TextLib) (truth : ConditionSpec → Bool) (circuit : ResolvedCircuit) : Prop :=
  ∃ composition aggregation, circuit.body.compositionMode lib = .ok composition ∧
    circuit.body.aggregationMode lib = .ok aggregation ∧ circuit.nodes ≠ [] ∧
    Meets (bitsOf circuit.nodes = none) aggregation (nodesTruths truth circuit.nodes)

/-- The bytes of the code decode, and the code goes on with the stack it found or fails,
according to `p`. -/
def Asserts (env : VmEnv σ) (cas : σ) (code : List Instr) (p : Prop) : Prop :=
  ∃ decoded, Decodes code decoded ∧ EmitFree decoded ∧ ∀ core : Core σ, core.cas = cas →
    (p → (exec (execOp env) decoded core).result = .ok core) ∧
    (¬ p → ∃ e, (exec (execOp env) decoded core).result = .error e)

section Asserts

variable {env : VmEnv σ} {cas : σ}

theorem Asserts.nil : Asserts env cas [] True :=
  ⟨[], decodeStream_nil, emitFree_nil, fun _ _ => ⟨fun _ => rfl, fun h => absurd trivial h⟩⟩

theorem Asserts.append {xs ys : List Instr} {p q : Prop} (hx : Asserts env cas xs p)
    (hy : Asserts env cas ys q) : Asserts env cas (xs ++ ys) (p ∧ q) := by
  obtain ⟨xs', hxs, hemit, hexec⟩ := hx
  obtain ⟨ys', hys, hemit', hexec'⟩ := hy
  refine ⟨xs' ++ ys', hxs.append hys, emitFree_append.mpr ⟨hemit, hemit'⟩, fun core hcas => ?_⟩
  obtain ⟨hok, herr⟩ := hexec core hcas
  obtain ⟨hok', herr'⟩ := hexec' core hcas
  rw [exec_append, bind_result]
  constructor
  · rintro ⟨hp, hq⟩
    rw [hok hp, bind_ok]
    exact hok' hq
  · intro hpq
    by_cases hp : p
    · rw [hok hp, bind_ok]
      exact herr' fun hq => hpq ⟨hp, hq⟩
    · obtain ⟨e, he⟩ := herr hp
      exact ⟨e, by rw [he, bind_error]⟩

theorem Asserts.congr {code : List Instr} {p q : Prop} (h : Asserts env cas code p)
    (hpq : p ↔ q) : Asserts env cas code q := by
  rwa [← propext hpq]

/-- With the terminator behind it, such code comes to `EmitRc` when `p` holds. -/
theorem Asserts.emits_iff {code : List Instr} {p : Prop} (h : Asserts env cas code p)
    (hinput : env.inputs ≠ []) (hsign : ∀ b, env.signJws b ≠ []) :
    ∃ decoded, Decodes (code ++ terminator) decoded ∧
      ∀ cfg, EnoughFuel cfg decoded → (Emits (run env cfg cas decoded) ↔ p) := by
  obtain ⟨decoded, hdecodes, hemit, hexec⟩ := h
  have hterm : Decodes terminator terminator :=
    Decodes.of_short (by simp [terminator, Instr.Short])
  refine ⟨decoded ++ terminator, hdecodes.append hterm, fun cfg hfuel => ?_⟩
  obtain ⟨hok, herr⟩ := hexec (initial cas) rfl
  have hlength : (decoded ++ terminator).length = decoded.length + 2 := by simp [terminator]
  have henough {n : Nat} (hn : n ≤ decoded.length + 2) : fuelFor n ≤ cfg.fuelLimit.toNat :=
    (fuelFor_mono (hlength ▸ hn)).trans hfuel
  constructor
  · intro hemits
    by_contra hp
    obtain ⟨e, he⟩ := herr hp
    have hcost := exec_cost_le (execOp env) decoded (initial cas)
    obtain ⟨out, vm, hrun, -⟩ := hemits
    rw [run_error env cfg cas hemit terminator he (henough (by omega))] at hrun
    cases hrun
  · intro hp
    obtain ⟨cid, inputs, hinputs⟩ := List.exists_cons_of_ne_nil hinput
    have hpush : execOp env ⟨.pushInput, toBE 2 0⟩ (initial cas) =
        .ok ((initial cas).push (.cid cid)) := by
      have hzero : ofBE (toBE 2 0) = 0 := by decide
      simp only [execOp, length_toBE, hzero, hinputs]
      rfl
    have hbefore : (exec (execOp env) (decoded ++ [⟨.pushInput, toBE 2 0⟩]) (initial cas)).result =
        .ok ((initial cas).push (.cid cid)) := by
      rw [exec_append, bind_result, hok hp, bind_ok, exec_cons_ok _ hpush]
      rfl
    have hcost := exec_cost_le (execOp env) (decoded ++ [⟨.pushInput, toBE 2 0⟩]) (initial cas)
    rw [List.length_append, List.length_singleton] at hcost
    have hemit' : EmitFree (decoded ++ [⟨.pushInput, toBE 2 0⟩]) := by simp [hemit]
    rw [program_eq]
    exact (run_emitRc env cfg cas hemit' hsign hbefore [] []).1 (henough (by omega))

end Asserts

section Circuits

variable {env : VmEnv σ} {lib : TextLib} {cas : σ} {truth : ConditionSpec → Bool}

theorem nodes_of_bitsOf {nodes : List ResolvedNode} {bits : List ResolvedBit}
    (h : bitsOf nodes = some bits) : nodes = bits.map .bit := by
  induction nodes generalizing bits with
  | nil =>
    obtain rfl : [] = bits := Option.some.inj h
    rfl
  | cons node nodes ih =>
    simp only [bitsOf, List.mapM_cons, Option.bind_eq_bind, Option.bind_eq_some_iff] at h
    obtain ⟨b, hb, bits', hbits', h⟩ := h
    obtain rfl : b :: bits' = bits := Option.some.inj h
    cases node with
    | bit b' =>
      obtain rfl : b' = b := Option.some.inj hb
      rw [ih hbits', List.map_cons]
    | subChip circuits => cases hb

/-- A circuit of bits that deny on false goes on when its truths meet the aggregator. -/
theorem passes_iff_meets (composition : CompositionMode) (aggregation : AggregationMode)
    {bits : List ResolvedBit} (hdeny : ∀ bit ∈ bits, bit.body.onFalse = .deny) :
    Passes (fun _ => True) truth composition aggregation bits ↔
      Meets False aggregation (bits.map fun bit => truth bit.body.condition) := by
  have hcount : (bits.map fun bit => truth bit.body.condition).count true =
      bits.countP fun bit => truth bit.body.condition := by
    rw [List.count_eq_countP, List.countP_map]
    congr 1
    funext bit
    exact beq_true _
  have hall : (∀ bit ∈ bits, bit.body.onFalse = .deny → truth bit.body.condition = true) ↔
      ∀ bit ∈ bits, truth bit.body.condition = true :=
    forall₂_congr fun bit hbit => ⟨fun h => h (hdeny bit hbit), fun h _ => h⟩
  cases composition <;> cases aggregation <;> simp [Passes, Meets, hcount, hall]

/-- The fold of the mixed path goes on when the Booleans meet the aggregator. -/
theorem foldOutcome_eq_ok (aggregation : AggregationMode) {bs : List Bool}
    (hlen : bs.length < 2 ^ 63) :
    foldOutcome aggregation bs = .ok () ↔ Meets True aggregation bs := by
  have hasserted (b : Bool) : asserted b = .ok () ↔ b = true := by
    cases b <;> simp [asserted]
  have hseveral (threshold : Int64) (p : Prop) (h : bs.length ≠ 1) :
      (evalMixedCount bs threshold).result = .ok () ↔ (True → bs.length = 1) ∧ p := by
    rw [evalMixedCount_several h]
    exact ⟨fun h' => (by cases h'), fun h' => absurd (h'.1 trivial) h⟩
  have hsingle {needed : Nat} (h : bs.length = 1) (hneeded : needed < 2 ^ 63) :
      (evalMixedCount bs (Int64.ofNat needed)).result = .ok () ↔ needed ≤ bs.count true := by
    obtain ⟨b, rfl⟩ := List.length_eq_one_iff.mp h
    rw [evalMixedCount_single b hneeded, hasserted, decide_eq_true_iff]
  cases aggregation with
  | all => exact hasserted _
  | any => exact hasserted _
  | firstDecisive => exact hasserted _
  | majority =>
    by_cases h : bs.length = 1
    · refine (hsingle h (by omega)).trans ?_
      exact ⟨fun hle => ⟨fun _ => h, hle⟩, fun hmeets => hmeets.2⟩
    · exact hseveral _ _ h
  | kOfN k n =>
    by_cases h : bs.length = 1
    · by_cases hk : k.toNat < 2 ^ 63
      · have hcount := hsingle h hk
        rw [ofNat_toNat_toInt64] at hcount
        exact hcount.trans ⟨fun hle => ⟨fun _ => h, fun _ => hle⟩, fun hmeets => hmeets.2 hk⟩
      · obtain ⟨b, rfl⟩ := List.length_eq_one_iff.mp h
        exact ⟨fun _ => ⟨fun _ => rfl, fun hk' => absurd hk' hk⟩,
          fun _ => evalMixedCount_negative b hk⟩
    · exact hseveral _ _ h

/-- The compiled circuit asserts that it is satisfied. -/
theorem asserts_compileCircuit {circuit : ResolvedCircuit}
    (hruns : ∀ c ∈ nodesConditions circuit.nodes, ConditionRuns env lib cas c (truth c))
    (hdeny : ∀ bit, .bit bit ∈ circuit.nodes → bit.body.onFalse = .deny)
    (hlen : circuit.nodes.length < 2 ^ 63) {code : List Instr}
    (hcode : compileCircuit lib circuit = .ok code) :
    Asserts env cas code (Satisfied lib truth circuit) := by
  obtain ⟨composition, aggregation, hc, ha, hcode⟩ := compileCircuit_eq_ok lib hcode
  have hsatisfied (hne : circuit.nodes ≠ []) : Satisfied lib truth circuit ↔
      Meets (bitsOf circuit.nodes = none) aggregation (nodesTruths truth circuit.nodes) := by
    constructor
    · rintro ⟨_, aggregation', -, ha', -, hmeets⟩
      obtain rfl : aggregation' = aggregation := Except.ok.inj (ha'.symm.trans ha)
      exact hmeets
    · exact fun hmeets => ⟨composition, aggregation, hc, ha, hne, hmeets⟩
  obtain ⟨bits, hbits, hne, rfl⟩ | ⟨hnone, hne, rfl⟩ := hcode
  · have hnodes := nodes_of_bitsOf hbits
    rw [hnodes] at hdeny hlen
    have hmem {bit : ResolvedBit} (hbit : bit ∈ bits) : .bit bit ∈ bits.map ResolvedNode.bit :=
      List.mem_map_of_mem hbit
    have hruns' : ∀ bit ∈ bits,
        ConditionRuns env lib cas bit.body.condition (truth bit.body.condition) := by
      intro bit hbit
      rw [nodesConditions_of_bitsOf hbits] at hruns
      exact hruns _ (List.mem_map_of_mem hbit)
    have hdeny' : ∀ bit ∈ bits, bit.body.onFalse = .deny := fun bit hbit => hdeny bit (hmem hbit)
    obtain ⟨decoded, val, hdecodes, hemit, hpush, hval⟩ := decoded_conditions hruns'
    have htruths : nodesTruths truth circuit.nodes =
        bits.map fun bit => truth bit.body.condition := by
      rw [hnodes, nodesTruths_eq_map, List.map_map]
      exact List.map_congr_left fun bit _ => by rw [Function.comp_apply, nodeTruth]
    have hmeets : (evalBitsCircuit val composition aggregation bits).result = .ok () ↔
        Satisfied lib truth circuit := by
      have hvalue (c : ConditionSpec) (b : Bool) :
          (val c).result = .ok b ↔ True ∧ b = truth c := by
        rw [hval, true_and, Except.ok.injEq, eq_comm]
      have hmixed : (bitsOf circuit.nodes = none) = False := by simp [hbits]
      rw [evalBitsCircuit_eq_ok hvalue composition aggregation (by simpa using hlen),
        passes_iff_meets composition aggregation hdeny', hsatisfied (by simp [hnodes, hne]), htruths,
        hmixed]
    refine ⟨_, compileBits_decodes hdecodes composition aggregation,
      Composable.emitFree.compileBits hemit _ _, fun core hcas => ?_⟩
    have hexec := exec_compileBits env hpush composition aggregation hne core hcas []
    rw [List.append_nil] at hexec
    rw [hexec, bind_result, ← hmeets]
    cases h : (evalBitsCircuit val composition aggregation bits).result with
    | ok u => exact ⟨fun _ => rfl, fun h' => absurd rfl h'⟩
    | error e => exact ⟨fun h' => (by cases h'), fun _ => ⟨e, rfl⟩⟩
  · obtain ⟨decoded, hdecodes, hemit, hexec⟩ := leaves_emitNodes circuit.nodes hruns
    have hlength : (nodesTruths truth circuit.nodes).length = circuit.nodes.length := by
      rw [nodesTruths_eq_map, List.length_map]
    have hne' : nodesTruths truth circuit.nodes ≠ [] := by
      rw [nodesTruths_eq_map]
      simpa using hne
    have hmeets : foldOutcome aggregation (nodesTruths truth circuit.nodes) = .ok () ↔
        Satisfied lib truth circuit := by
      rw [foldOutcome_eq_ok aggregation (hlength ▸ hlen), hsatisfied hne, hnone, eq_self]
    refine ⟨_, hdecodes.append (Decodes.of_short (foldNodes_short _ _)),
      emitFree_append.mpr ⟨hemit, Composable.emitFree.foldNodes _ _⟩, fun core hcas => ?_⟩
    rw [exec_append, bind_result, hexec core hcas, bind_ok, ← hlength, exec_foldNodes env _ hne',
      ← hmeets]
    cases h : foldOutcome aggregation (nodesTruths truth circuit.nodes) with
    | ok u => exact ⟨fun _ => rfl, fun h' => absurd rfl h'⟩
    | error e => exact ⟨fun h' => (by cases h'), fun _ => ⟨e, rfl⟩⟩

end Circuits

/-! ## Both -/

/-- The chip's own program runs to `EmitRc`. -/
def RunsAlone (env : VmEnv σ) (lib : TextLib) (cas : σ) (circuits : List ResolvedCircuit) : Prop :=
  ∃ bytes code, compileChipToUblVm lib circuits = .ok bytes ∧ decodeStream bytes = .ok code ∧
    ∀ cfg, EnoughFuel cfg code → Emits (run env cfg cas code)

/-- The circuit is satisfied when all of its nodes hold: the compiler takes it, it does not count
two nodes or more with a sub-chip among them, and asks for no more than it has. -/
def Fulfillable (lib : TextLib) (circuit : ResolvedCircuit) : Prop :=
  ∃ composition aggregation, circuit.body.compositionMode lib = .ok composition ∧
    circuit.body.aggregationMode lib = .ok aggregation ∧ circuit.nodes ≠ [] ∧
    ∀ needed, threshold aggregation circuit.nodes.length = some needed →
      (bitsOf circuit.nodes = none → circuit.nodes.length = 1) ∧
      (needed < 2 ^ 63 → needed ≤ circuit.nodes.length)

/-- No gap between all nodes and the aggregators: if all nodes hold, every circuit can be
satisfied, and if one does not, some circuit is not satisfied. -/
structure InlinesWell (lib : TextLib) (truth : ConditionSpec → Bool)
    (circuits : List ResolvedCircuit) : Prop where
  allHold : (∀ circuit ∈ circuits, ∀ node ∈ circuit.nodes, nodeTruth truth node = true) →
    ∀ circuit ∈ circuits, Fulfillable lib circuit
  someFails : (∃ circuit ∈ circuits, ∃ node ∈ circuit.nodes, nodeTruth truth node = false) →
    ∃ circuit ∈ circuits, ¬ Satisfied lib truth circuit

section Both

variable {env : VmEnv σ} {lib : TextLib} {cas : σ} {truth : ConditionSpec → Bool}

/-- The Booleans of a circuit whose nodes all hold. -/
theorem meets_of_all (mixed : Prop) (aggregation : AggregationMode) {n : Nat} (hn : n ≠ 0)
    (hlen : n < 2 ^ 63) :
    Meets mixed aggregation (List.replicate n true) ↔
      ∀ needed, threshold aggregation n = some needed →
        (mixed → n = 1) ∧ (needed < 2 ^ 63 → needed ≤ n) := by
  have hcount : (List.replicate n true).count true = n := by simp
  cases aggregation with
  | all => simp [Meets, threshold]
  | any => simp [Meets, threshold, hn]
  | firstDecisive => simp [Meets, threshold]
  | majority =>
    simp only [Meets, threshold, List.length_replicate, hcount, Option.some.injEq, forall_eq']
    refine and_congr_right fun _ => ?_
    omega
  | kOfN k m =>
    simp only [Meets, threshold, List.length_replicate, hcount, Option.some.injEq, forall_eq']

theorem satisfied_iff_fulfillable {circuit : ResolvedCircuit} (hlen : circuit.nodes.length < 2 ^ 63)
    (hall : ∀ node ∈ circuit.nodes, nodeTruth truth node = true) :
    Satisfied lib truth circuit ↔ Fulfillable lib circuit := by
  have htruths : nodesTruths truth circuit.nodes = List.replicate circuit.nodes.length true := by
    rw [nodesTruths_eq_map, List.eq_replicate_iff, List.length_map]
    exact ⟨rfl, by simpa using hall⟩
  unfold Satisfied Fulfillable
  refine exists_congr fun composition => exists_congr fun aggregation => and_congr_right fun _ =>
    and_congr_right fun _ => and_congr_right fun hne => ?_
  rw [htruths, meets_of_all _ _ (by simpa using hne) hlen]

/-- The compiler takes a circuit that can be satisfied. -/
theorem compileCircuit_of_satisfied {circuit : ResolvedCircuit}
    (h : Satisfied lib truth circuit) : ∃ code, compileCircuit lib circuit = .ok code := by
  obtain ⟨composition, aggregation, hc, ha, hne, -⟩ := h
  unfold compileCircuit collectBits
  rw [hc, ha]
  cases hbits : bitsOf circuit.nodes with
  | none =>
    refine ⟨emitNodesAsBools lib circuit.nodes ++ foldNodes aggregation circuit.nodes.length, ?_⟩
    simp only [bind_ok, List.isEmpty_iff, if_neg hne]
  | some bits =>
    have hne' : bits ≠ [] := by
      rintro rfl
      exact hne (nodes_of_bitsOf hbits)
    refine ⟨compileBits (compileToBool lib) composition aggregation bits, ?_⟩
    simp only [bind_ok, List.isEmpty_iff, if_neg hne']

/-- The circuits of a chip assert that they are all satisfied, or the compiler refuses one. -/
theorem asserts_compileCircuitsInner {circuits : List ResolvedCircuit}
    (hruns : ∀ c ∈ circuitsConditions circuits, ConditionRuns env lib cas c (truth c))
    (hdeny : ∀ circuit ∈ circuits, ∀ bit, .bit bit ∈ circuit.nodes → bit.body.onFalse = .deny)
    (hlen : ∀ circuit ∈ circuits, circuit.nodes.length < 2 ^ 63) :
    (∃ code, compileCircuitsInner lib circuits = .ok code ∧
        Asserts env cas code (∀ circuit ∈ circuits, Satisfied lib truth circuit)) ∨
      ((∃ e, compileCircuitsInner lib circuits = .error e) ∧
        ∃ circuit ∈ circuits, ¬ Satisfied lib truth circuit) := by
  induction circuits with
  | nil => exact .inl ⟨[], rfl, Asserts.nil.congr (by simp)⟩
  | cons circuit circuits ih =>
    obtain ⟨cid, body, nodes⟩ := circuit
    rw [circuitsConditions, List.forall_mem_append] at hruns
    rw [List.forall_mem_cons] at hdeny hlen
    simp only [List.forall_mem_cons, compileCircuitsInner]
    cases hfirst : compileCircuit lib (.mk cid body nodes) with
    | error e =>
      refine .inr ⟨⟨e, rfl⟩, _, List.mem_cons_self, fun hsat => ?_⟩
      obtain ⟨code, hcode⟩ := compileCircuit_of_satisfied hsat
      rw [hcode] at hfirst
      cases hfirst
    | ok code =>
      have hasserts : Asserts env cas code (Satisfied lib truth (.mk cid body nodes)) :=
        asserts_compileCircuit (by exact hruns.1) hdeny.1 hlen.1 hfirst
      obtain ⟨rest, hrest, hasserts'⟩ | ⟨⟨e, he⟩, circuit', hmem, hnot⟩ :=
        ih hruns.2 hdeny.2 hlen.2
      · refine .inl ⟨code ++ rest, ?_, hasserts.append hasserts'⟩
        rw [hrest, bind_ok, bind_ok]
      · refine .inr ⟨⟨e, ?_⟩, circuit', List.mem_cons_of_mem _ hmem, hnot⟩
        rw [he, bind_ok, bind_error]

/-- The own program runs to its end exactly when every circuit is satisfied. -/
theorem runsAlone_iff {circuits : List ResolvedCircuit}
    (hruns : ∀ c ∈ circuitsConditions circuits, ConditionRuns env lib cas c (truth c))
    (hdeny : ∀ circuit ∈ circuits, ∀ bit, .bit bit ∈ circuit.nodes → bit.body.onFalse = .deny)
    (hlen : ∀ circuit ∈ circuits, circuit.nodes.length < 2 ^ 63)
    (hinput : env.inputs ≠ []) (hsign : ∀ b, env.signJws b ≠ []) :
    RunsAlone env lib cas circuits ↔ ∀ circuit ∈ circuits, Satisfied lib truth circuit := by
  unfold RunsAlone compileChipToUblVm
  obtain ⟨code, hcode, hasserts⟩ | ⟨⟨e, he⟩, hnot⟩ :=
    asserts_compileCircuitsInner hruns hdeny hlen
  · obtain ⟨decoded, hdecodes, hemits⟩ := hasserts.emits_iff hinput hsign
    rw [hcode]
    constructor
    · rintro ⟨bytes, code', hbytes, hdecode, hrun⟩
      obtain rfl := Except.ok.inj hbytes
      obtain rfl : decoded = code' := Except.ok.inj (hdecodes.symm.trans hdecode)
      exact (hemits _ (enoughFuel_max false false _)).mp (hrun _ (enoughFuel_max false false _))
    · intro h
      exact ⟨_, decoded, rfl, hdecodes, fun cfg hfuel => (hemits cfg hfuel).mpr h⟩
  · obtain ⟨circuit, hmem, hnot⟩ := hnot
    rw [he]
    constructor
    · rintro ⟨bytes, code', hbytes, -⟩
      cases hbytes
    · exact fun h => absurd (h circuit hmem) hnot

end Both

/-- The Boolean an inlined sub-chip leaves is whether its own program runs to `EmitRc`, exactly
when the truth values leave no gap between all of its nodes and its aggregators. -/
theorem inlined_eq_alone_iff (env : VmEnv σ) (lib : TextLib) (cas : σ)
    (truth : ConditionSpec → Bool) (circuits : List ResolvedCircuit)
    (hruns : ∀ c ∈ circuitsConditions circuits, ConditionRuns env lib cas c (truth c))
    (hdeny : ∀ circuit ∈ circuits, ∀ bit, .bit bit ∈ circuit.nodes → bit.body.onFalse = .deny)
    (hlen : ∀ circuit ∈ circuits, circuit.nodes.length < 2 ^ 63)
    (hinput : env.inputs ≠ []) (hsign : ∀ b, env.signJws b ≠ []) :
    ∃ b, Leaves env cas (compileSubchipAsBool lib circuits) [b] ∧
      ((b = true ↔ RunsAlone env lib cas circuits) ↔ InlinesWell lib truth circuits) := by
  refine ⟨_, leaves_emitNodeAsBool (.subChip circuits) (by simpa [nodeConditions] using hruns), ?_⟩
  have hall : nodeTruth truth (.subChip circuits) = true ↔
      ∀ circuit ∈ circuits, ∀ node ∈ circuit.nodes, nodeTruth truth node = true := by
    rw [nodeTruth, all_circuitsTruths]
    simp [nodesTruths_eq_map]
  rw [runsAlone_iff hruns hdeny hlen hinput hsign, hall]
  by_cases h : ∀ circuit ∈ circuits, ∀ node ∈ circuit.nodes, nodeTruth truth node = true
  · have hsat : (∀ circuit ∈ circuits, Satisfied lib truth circuit) ↔
        ∀ circuit ∈ circuits, Fulfillable lib circuit :=
      forall₂_congr fun circuit hmem => satisfied_iff_fulfillable (hlen circuit hmem) (h circuit hmem)
    rw [hsat]
    constructor
    · intro hiff
      refine ⟨fun _ => hiff.mp h, ?_⟩
      rintro ⟨circuit, hmem, node, hnode, hfalse⟩
      rw [h circuit hmem node hnode] at hfalse
      cases hfalse
    · exact fun hwell => ⟨hwell.allHold, fun _ => h⟩
  · constructor
    · intro hiff
      refine ⟨fun h' => absurd h' h, fun _ => ?_⟩
      by_contra hnone
      push Not at hnone
      exact h (hiff.mpr hnone)
    · intro hwell
      refine ⟨fun h' => absurd h' h, fun hsat => ?_⟩
      push Not at h
      obtain ⟨circuit, hmem, node, hnode, hfalse⟩ := h
      obtain ⟨circuit', hmem', hnot⟩ :=
        hwell.someFails ⟨circuit, hmem, node, hnode, by simpa using hfalse⟩
      exact absurd (hsat circuit' hmem') hnot

/-- One of two. -/
def anyOfTwo : ResolvedCircuit :=
  sampleCircuit "parallel" "any" [(.always true, .allow, .deny), (.always false, .allow, .deny)]

section Sample

/-- The truth of `Always`. -/
def alwaysTruth : ConditionSpec → Bool
  | .always b => b
  | _ => false

theorem anyOfTwo_conditions : circuitsConditions [anyOfTwo] = [.always true, .always false] := by
  simp [anyOfTwo, sampleCircuit, circuitsConditions, nodesConditions, nodeConditions]

theorem anyOfTwo_runs : ∀ c ∈ circuitsConditions [anyOfTwo],
    ConditionRuns (textEnv Nrf.asciiText "\x7b\x7d" (.object []) 2) plainLib () c (alwaysTruth c) := by
  have halways (b : Bool) : ConditionRuns (textEnv Nrf.asciiText "\x7b\x7d" (.object []) 2) plainLib ()
      (.always b) b :=
    conditionRuns_of_result (by simp [compileToBool, Instr.Short]) rfl
  rw [anyOfTwo_conditions]
  simp only [List.mem_cons, List.not_mem_nil, or_false, forall_eq_or_imp, forall_eq]
  exact ⟨halways true, halways false⟩

theorem anyOfTwo_denies : ∀ circuit ∈ [anyOfTwo], ∀ bit, .bit bit ∈ circuit.nodes →
    bit.body.onFalse = .deny := by
  simp [anyOfTwo, sampleCircuit, ResolvedCircuit.nodes]

theorem anyOfTwo_short : ∀ circuit ∈ [anyOfTwo], circuit.nodes.length < 2 ^ 63 := by
  simp [anyOfTwo, sampleCircuit, ResolvedCircuit.nodes]

theorem inlined_eq_alone_anyOfTwo :
    ∃ b, Leaves (textEnv Nrf.asciiText "\x7b\x7d" (.object []) 2) ()
        (compileSubchipAsBool plainLib [anyOfTwo]) [b] ∧
      ((b = true ↔
          RunsAlone (textEnv Nrf.asciiText "\x7b\x7d" (.object []) 2) plainLib () [anyOfTwo]) ↔
        InlinesWell plainLib alwaysTruth [anyOfTwo]) :=
  inlined_eq_alone_iff _ plainLib () alwaysTruth [anyOfTwo] anyOfTwo_runs anyOfTwo_denies
    anyOfTwo_short (by simp [textEnv]) (by simp [textEnv])

/-- Alone the chip passes on its first bit, inlined it asks for both. -/
theorem anyOfTwo_inlined_fails :
    Leaves (textEnv Nrf.asciiText "\x7b\x7d" (.object []) 2) ()
      (compileSubchipAsBool plainLib [anyOfTwo]) [false] ∧
    RunsAlone (textEnv Nrf.asciiText "\x7b\x7d" (.object []) 2) plainLib () [anyOfTwo] := by
  constructor
  · have hleaves := leaves_emitNodeAsBool (.subChip [anyOfTwo])
      (by simpa [nodeConditions] using anyOfTwo_runs)
    have hfalse : nodeTruth alwaysTruth (.subChip [anyOfTwo]) = false := by
      simp [anyOfTwo, sampleCircuit, nodeTruth, circuitsTruths, nodesTruths, alwaysTruth]
    rwa [hfalse] at hleaves
  · refine (runsAlone_iff anyOfTwo_runs anyOfTwo_denies anyOfTwo_short (by simp [textEnv])
      (by simp [textEnv])).mpr ?_
    simp only [List.mem_singleton, forall_eq]
    refine ⟨.parallel, .any, rfl, rfl, by simp [anyOfTwo, sampleCircuit, ResolvedCircuit.nodes], ?_⟩
    simp [anyOfTwo, sampleCircuit, ResolvedCircuit.nodes, Meets, nodesTruths, nodeTruth, alwaysTruth]

end Sample

end Ubl.Silicon
