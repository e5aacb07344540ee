import Ubl.Silicon.Program

/-!
# Compiled circuits against the interpreter

`runtimeCircuit` is the circuit of the policy engine that a silicon circuit of bits stands
for.  For parallel circuits whose bits allow on true and deny on false the compiled program and
the interpreter agree on every assignment of truth values to the conditions
(`run_parallel_circuits`): counting decisions and comparing with `n / 2` or `k` on one side,
a row of additions and one comparison on the other.
-/

namespace Ubl.Silicon

open BigEndian Metered ExceptLemmas
open Ubl.Vm
open Ubl.Policy (Decision CompositionMode AggregationMode Expression EvalContext ReasoningBit
  RbResult Circuit aggregateResults countOf countOf_cons)

variable {σ : Type}

/-! ## The runtime circuit -/

/-- The reasoning bit of a silicon bit; `expr` is the runtime form of its condition. -/
def runtimeBit (expr : ConditionSpec → Expression) (bit : ResolvedBit) : ReasoningBit :=
  ⟨bit.body.id, bit.body.name, expr bit.body.condition, bit.body.onTrue, bit.body.onFalse,
    bit.body.requiresContext⟩

def runtimeCircuit (expr : ConditionSpec → Expression) (body : SiliconCircuitBody)
    (composition : CompositionMode) (aggregation : AggregationMode) (bits : List ResolvedBit) :
    Circuit :=
  .mk body.id body.name (bits.map (runtimeBit expr)) composition aggregation

/-- The runtime circuit of a silicon circuit that has bits only. -/
def runtimeOf (lib : TextLib) (expr : ConditionSpec → Expression) (circuit : ResolvedCircuit) :
    Option Circuit :=
  match circuit.body.compositionMode lib, circuit.body.aggregationMode lib,
    bitsOf circuit.nodes with
  | .ok composition, .ok aggregation, some bits =>
    some (runtimeCircuit expr circuit.body composition aggregation bits)
  | _, _, _ => none

/-- `Circuit::evaluate` allows. -/
def Allows (lib : TextLib) (expr : ConditionSpec → Expression) (ctx : EvalContext)
    (circuit : ResolvedCircuit) : Prop :=
  ∃ rc, runtimeOf lib expr circuit = some rc ∧ (rc.evaluate ctx).decision = .allow

/-! ## Counting -/

/-- What `evalBits` comes to when every condition has a value. -/
theorem evalBits_result_of_values {val : ConditionSpec → Metered Fault Bool}
    {truth : ConditionSpec → Bool} {bits : List ResolvedBit}
    (h : ∀ bit ∈ bits, (val bit.body.condition).result = .ok (truth bit.body.condition))
    (extra : Nat) :
    (evalBits val extra bits).result = .ok (bits.map fun bit => truth bit.body.condition) := by
  induction bits with
  | nil => rfl
  | cons bit bits ih =>
    simp only [evalBits, bind_result, h bit List.mem_cons_self, bind_ok,
      ih fun b hb => h b (List.mem_cons_of_mem _ hb)]
    rfl

/-- The outcome of a circuit that asserts a Boolean at its end. -/
def asserted (b : Bool) : Except Fault Unit :=
  if b then .ok () else .error (.error (.deny "assert_false"))

theorem evalFold_result {val : ConditionSpec → Metered Fault Bool} {bits : List ResolvedBit}
    {bs : List Bool} (h : (evalBits val 0 bits).result = .ok bs) (f : List Bool → Bool) :
    (evalFold val bits f).result = asserted (f bs) := by
  simp only [evalFold, bind_result, h, bind_ok]
  rfl

theorem evalCount_result {val : ConditionSpec → Metered Fault Bool} {bits : List ResolvedBit}
    {bs : List Bool} (h : (evalBits val 1 bits).result = .ok bs) (threshold : Int64) :
    (evalCount val bits threshold).result = asserted (decide (threshold ≤ total bs)) := by
  simp only [evalCount, bind_result, h, bind_ok]
  rfl

theorem le_ofNat_iff {m n : Nat} (hm : m < 2 ^ 63) (hn : n < 2 ^ 63) :
    Int64.ofNat m ≤ Int64.ofNat n ↔ m ≤ n := by
  rw [Int64.le_iff_toInt_le, Int64.toInt_ofNat_of_lt hm, Int64.toInt_ofNat_of_lt hn]
  omega

/-- The majority threshold of the compiler. -/
theorem majority_threshold_le_total {bs : List Bool} (h : bs.length < 2 ^ 63) :
    Int64.ofNat (bs.length / 2) + 1 ≤ total bs ↔ bs.length / 2 < bs.count true := by
  have hcount := List.count_le_length (a := true) (l := bs)
  have hone : Int64.ofNat (bs.length / 2) + 1 = Int64.ofNat (bs.length / 2 + 1) := by
    rw [Int64.ofNat_add]
    rfl
  rw [total_eq_count bs h, hone, le_ofNat_iff (by omega) (by omega)]
  omega

/-- The `k` of the compiler, as long as it is no negative `i64`. -/
theorem k_threshold_le_total {bs : List Bool} (h : bs.length < 2 ^ 63) {k : UInt64}
    (hk : k.toNat < 2 ^ 63) : k.toInt64 ≤ total bs ↔ k.toNat ≤ bs.count true := by
  have hcount := List.count_le_length (a := true) (l := bs)
  have hk64 : k.toInt64 = Int64.ofNat k.toNat := by
    rw [← UInt64.toInt64_ofNat', UInt64.ofNat_toNat]
  rw [total_eq_count bs h, hk64, le_ofNat_iff hk (by omega)]

/-! ## Decisions of bits that allow or deny -/

/-- What a parallel circuit of bits that allow or deny needs of its truth values to allow. -/
def allowsOn (aggregation : AggregationMode) (bs : List Bool) : Prop :=
  match aggregation with
  | .all => bs.all id
  | .any => bs.any id
  | .majority => bs.length / 2 < bs.count true
  | .kOfN k _ => k.toNat ≤ bs.count true
  | .firstDecisive => bs.head? = some true

section Decisions

variable {expr : ConditionSpec → Expression} {truth : ConditionSpec → Bool} {ctx : EvalContext}
  {bits : List ResolvedBit}
  (hexpr : ∀ bit ∈ bits, (expr bit.body.condition).evaluate ctx = truth bit.body.condition)
  (hdec : ∀ bit ∈ bits, bit.body.onTrue = .allow ∧ bit.body.onFalse = .deny)

/-- The results the interpreter aggregates. -/
def results (expr : ConditionSpec → Expression) (ctx : EvalContext) (bits : List ResolvedBit) :
    List RbResult :=
  (bits.map (runtimeBit expr)).map fun rb => rb.evaluate ctx

theorem results_cons (expr : ConditionSpec → Expression) (ctx : EvalContext) (bit : ResolvedBit)
    (bits : List ResolvedBit) :
    results expr ctx (bit :: bits) =
      (runtimeBit expr bit).evaluate ctx :: results expr ctx bits := rfl

@[simp] theorem length_results (expr : ConditionSpec → Expression) (ctx : EvalContext)
    (bits : List ResolvedBit) : (results expr ctx bits).length = bits.length := by
  simp [results]

include hexpr hdec

theorem decision_of_result (bit : ResolvedBit) (h : bit ∈ bits) :
    ((runtimeBit expr bit).evaluate ctx).decision =
      if truth bit.body.condition then .allow else .deny := by
  obtain ⟨htrue, hfalse⟩ := hdec bit h
  simp only [runtimeBit, ReasoningBit.evaluate, hexpr bit h, htrue, hfalse]

/-- Allowing results are the true conditions, denying ones the false. -/
theorem countOf_results :
    countOf .allow (results expr ctx bits) =
        (bits.map fun bit => truth bit.body.condition).count true ∧
      countOf .deny (results expr ctx bits) =
        (bits.map fun bit => truth bit.body.condition).count false ∧
      countOf .require (results expr ctx bits) = 0 := by
  induction bits with
  | nil => exact ⟨rfl, rfl, rfl⟩
  | cons bit bits ih =>
    have hbit := decision_of_result hexpr hdec bit List.mem_cons_self
    obtain ⟨ha, hd, hr⟩ := ih (fun b hb => hexpr b (List.mem_cons_of_mem _ hb))
      (fun b hb => hdec b (List.mem_cons_of_mem _ hb))
    simp only [results_cons, countOf_cons, hbit, ha, hd, hr, List.map_cons]
    cases truth bit.body.condition <;> simp [Nat.add_comm]

theorem parallel_allow_iff (aggregation : AggregationMode) (hne : bits ≠ []) (body : SiliconCircuitBody) :
    ((runtimeCircuit expr body .parallel aggregation bits).evaluate ctx).decision = .allow ↔
      allowsOn aggregation (bits.map fun bit => truth bit.body.condition) := by
  obtain ⟨hallow, hdeny, hrequire⟩ := countOf_results hexpr hdec
  have hresults : results expr ctx bits ≠ [] := by
    intro h
    exact hne (by simpa [results] using h)
  set bs := bits.map fun bit => truth bit.body.condition with hbs
  have hlen : (results expr ctx bits).length = bs.length := by simp [hbs]
  change (aggregateResults body.id aggregation (results expr ctx bits)).decision = .allow ↔ _
  unfold aggregateResults
  rw [if_neg hresults]
  simp only [hallow, hdeny, hrequire, hlen]
  cases aggregation with
  | all =>
    simp only [allowsOn, List.all_eq_true, id]
    by_cases h : bs.count false = 0
    · simp only [h]
      simpa using List.count_eq_zero.mp h
    · have hmem := List.count_pos_iff.mp (Nat.pos_of_ne_zero h)
      simp only [h, ne_eq, not_false_eq_true, if_true]
      simpa using hmem
  | any =>
    simp only [allowsOn, List.any_eq_true, id]
    by_cases h : bs.count true = 0
    · have hnone := List.count_eq_zero.mp h
      simp only [h]
      simpa using fun x hx (hx' : x = true) => hnone (hx' ▸ hx)
    · have hmem := List.count_pos_iff.mp (Nat.pos_of_ne_zero h)
      simp only [h, ne_eq, not_false_eq_true, if_true]
      simpa using hmem
  | majority =>
    simp only [allowsOn]
    split_ifs with h <;> simp [h]
  | kOfN k n =>
    simp only [allowsOn]
    split_ifs with h <;> simp [h]
  | firstDecisive =>
    obtain ⟨bit, rest, rfl⟩ := List.exists_cons_of_ne_nil hne
    have hbit := decision_of_result hexpr hdec bit List.mem_cons_self
    have hfind : (results expr ctx (bit :: rest)).find? (fun r => r.decision ≠ .require) =
        some ((runtimeBit expr bit).evaluate ctx) := by
      rw [results_cons, List.find?_cons_of_pos]
      rw [hbit]
      cases truth bit.body.condition <;> decide
    simp only [hfind, hbit, allowsOn, hbs, List.map_cons, List.head?_cons, Option.some.injEq]
    cases truth bit.body.condition <;> simp

end Decisions

/-! ## Parallel circuits -/

/-- The bytes compiled for the condition decode, and wherever the code runs over this store it
ends without error and pushes `b`. -/
def ConditionRuns (env : VmEnv σ) (lib : TextLib) (cas : σ) (c : ConditionSpec) (b : Bool) : Prop :=
  ∃ code, Decodes (compileToBool lib c) code ∧ EmitFree code ∧
    ∀ core : Core σ, core.cas = cas →
      (exec (execOp env) code core).result = .ok (core.push (.bool b))

/-- With payloads that fit their length field, the code of a condition is the one written. -/
theorem conditionRuns_of_result {env : VmEnv σ} {lib : TextLib} {cas : σ} {c : ConditionSpec}
    {b : Bool} (hshort : ∀ ins ∈ compileToBool lib c, ins.Short)
    (h : (evalCond env lib cas c).result = .ok b) : ConditionRuns env lib cas c b := by
  refine ⟨compileToBool lib c, Decodes.of_short hshort, Composable.emitFree.compileToBool lib c, ?_⟩
  rintro core rfl
  have hexec := exec_compileToBool env lib c core []
  rw [List.append_nil] at hexec
  rw [hexec, bind_result, h]
  rfl

/-- A parallel circuit of bits that allow on true and deny on false, aggregated by `All`, `Any`,
`Majority` or `KofN`.  A `Vec` never has 2^63 elements. -/
structure ParallelBits (lib : TextLib) (circuit : ResolvedCircuit)
    (aggregation : AggregationMode) (bits : List ResolvedBit) : Prop where
  nodes : bitsOf circuit.nodes = some bits
  composition : circuit.body.compositionMode lib = .ok .parallel
  aggregator : circuit.body.aggregationMode lib = .ok aggregation
  notFirstDecisive : aggregation ≠ .firstDecisive
  smallK : ∀ k n, aggregation = .kOfN k n → k.toNat < 2 ^ 63
  decisions : ∀ bit ∈ bits, bit.body.onTrue = .allow ∧ bit.body.onFalse = .deny
  length_lt : bits.length < 2 ^ 63

theorem compileBits_decodes {f g : ConditionSpec → List Instr} {bits : List ResolvedBit}
    (h : ∀ bit ∈ bits, Decodes (f bit.body.condition) (g bit.body.condition))
    (composition : CompositionMode) (aggregation : AggregationMode) :
    Decodes (compileBits f composition aggregation bits)
      (compileBits g composition aggregation bits) := by
  have hone (op : Opcode) : Decodes [⟨op, []⟩] [⟨op, []⟩] :=
    Decodes.of_short (by simp [Instr.Short])
  have hrow (n : Nat) (op : Opcode) : Decodes (List.replicate n ⟨op, []⟩) (List.replicate n ⟨op, []⟩) :=
    Decodes.of_short (short_row op n)
  have heach : Decodes
      (bits.flatMap fun bit => compileCondition f bit.body.condition bit.body.onFalse)
      (bits.flatMap fun bit => compileCondition g bit.body.condition bit.body.onFalse) :=
    Decodes.flatMap fun bit hbit => (h bit hbit).append (by split_ifs <;> exact hone _)
  have hfold (op : Opcode) : Decodes (compileFold f bits op) (compileFold g bits op) :=
    ((Decodes.flatMap h).append (hrow _ op)).append (hone _)
  have hcount (threshold : Int64) :
      Decodes (compileCount f bits threshold) (compileCount g bits threshold) := by
    refine ((Decodes.flatMap fun bit hbit => (h bit hbit).append (hone _)).append
      (hrow _ _)).append (Decodes.of_short ?_)
    simp [Instr.Short]
  cases composition <;> cases aggregation <;>
    first
      | exact heach
      | exact hfold _
      | exact hcount _

section Parallel

variable {env : VmEnv σ} {lib : TextLib} {cas : σ} {truth : ConditionSpec → Bool}

/-- The code of the conditions as it is decoded, and what it comes to. -/
theorem decoded_conditions {bits : List ResolvedBit} (hruns : ∀ bit ∈ bits,
      ConditionRuns env lib cas bit.body.condition (truth bit.body.condition)) :
    ∃ (decoded : ConditionSpec → List Instr) (val : ConditionSpec → Metered Fault Bool),
      (∀ bit ∈ bits, Decodes (compileToBool lib bit.body.condition) (decoded bit.body.condition)) ∧
      (∀ bit ∈ bits, EmitFree (decoded bit.body.condition)) ∧
      (∀ bit ∈ bits, Pushes env cas decoded val bit.body.condition) ∧
      ∀ c, (val c).result = .ok (truth c) := by
  have hex : ∀ c : ConditionSpec, ∃ decoded : List Instr,
      (∃ bit ∈ bits, bit.body.condition = c) → Decodes (compileToBool lib c) decoded ∧
        EmitFree decoded ∧ ∀ core : Core σ, core.cas = cas →
          (exec (execOp env) decoded core).result = .ok (core.push (.bool (truth c))) := by
    intro c
    by_cases h : ∃ bit ∈ bits, bit.body.condition = c
    · obtain ⟨bit, hbit, rfl⟩ := h
      obtain ⟨decoded, hdecoded⟩ := hruns bit hbit
      exact ⟨decoded, fun _ => hdecoded⟩
    · exact ⟨[], fun h' => absurd h' h⟩
  choose decoded hdecoded using hex
  refine ⟨decoded, fun c => ⟨.ok (truth c), (decoded c).length⟩,
    fun bit hbit => (hdecoded _ ⟨bit, hbit, rfl⟩).1,
    fun bit hbit => (hdecoded _ ⟨bit, hbit, rfl⟩).2.1, fun bit hbit core hcas rest => ?_,
    fun _ => rfl⟩
  obtain ⟨-, -, hexec⟩ := hdecoded _ ⟨bit, hbit, rfl⟩
  have hok := hexec core hcas
  rw [exec_append, bind_eq_of_result hok, exec_cost_of_ok _ hok]
  rfl

/-- A compiled parallel circuit asserts what its truth values need to allow. -/
theorem block_parallel {circuit : ResolvedCircuit} {aggregation : AggregationMode}
    {bits : List ResolvedBit} (hpar : ParallelBits lib circuit aggregation bits)
    (hruns : ∀ bit ∈ bits,
      ConditionRuns env lib cas bit.body.condition (truth bit.body.condition))
    {code : List Instr} (hcode : compileCircuit lib circuit = .ok code) :
    ∃ code' m, Decodes code code' ∧ Block env cas code' m ∧
      (allowsOn aggregation (bits.map fun bit => truth bit.body.condition) → m.result = .ok ()) ∧
      (¬ allowsOn aggregation (bits.map fun bit => truth bit.body.condition) →
        m.result = .error (.error (.deny "assert_false"))) := by
  obtain ⟨decoded, val, hdecodes, hemit, hpush, hval⟩ := decoded_conditions hruns
  obtain ⟨composition, aggregation', hc, ha, hcode'⟩ := compileCircuit_eq_ok lib hcode
  obtain rfl : .parallel = composition := Except.ok.inj (hpar.composition.symm.trans hc)
  obtain rfl : aggregation = aggregation' := Except.ok.inj (hpar.aggregator.symm.trans ha)
  obtain ⟨bits', hbits', hne, rfl⟩ | ⟨hnone, -, -⟩ := hcode'
  swap
  · rw [hpar.nodes] at hnone
    cases hnone
  obtain rfl : bits = bits' := Option.some.inj (hpar.nodes.symm.trans hbits')
  refine ⟨compileBits decoded .parallel aggregation bits,
    evalBitsCircuit val .parallel aggregation bits,
    compileBits_decodes hdecodes _ _,
    ⟨Composable.emitFree.compileBits hemit _ _,
      fun core hcas rest => exec_compileBits env hpush _ _ hne core hcas rest⟩, ?_⟩
  have hbits (extra : Nat) : (evalBits val extra bits).result =
      .ok (bits.map fun bit => truth bit.body.condition) :=
    evalBits_result_of_values (fun bit _ => hval bit.body.condition) extra
  set bs := bits.map fun bit => truth bit.body.condition with hbs
  have hlen : bs.length = bits.length := by simp [hbs]
  have hlt : bs.length < 2 ^ 63 := hlen ▸ hpar.length_lt
  have hasserted (b : Bool) (p : Prop) (hbp : b = true ↔ p)
      (hm : (evalBitsCircuit val .parallel aggregation bits).result = asserted b) :
      (p → (evalBitsCircuit val .parallel aggregation bits).result = .ok ()) ∧
      (¬ p → (evalBitsCircuit val .parallel aggregation bits).result =
        .error (.error (.deny "assert_false"))) := by
    rw [hm, asserted]
    exact ⟨fun hp => if_pos (hbp.mpr hp), fun hp => if_neg (mt hbp.mp hp)⟩
  cases haggregation : aggregation with
  | firstDecisive => exact absurd haggregation hpar.notFirstDecisive
  | all =>
    subst haggregation
    exact hasserted _ _ Iff.rfl (evalFold_result (hbits 0) _)
  | any =>
    subst haggregation
    exact hasserted _ _ Iff.rfl (evalFold_result (hbits 0) _)
  | majority =>
    subst haggregation
    refine hasserted _ _ ?_ (evalCount_result (hbits 1) _)
    rw [decide_eq_true_iff, ← hlen]
    exact majority_threshold_le_total hlt
  | kOfN k n =>
    have hk := hpar.smallK k n haggregation
    subst haggregation
    refine hasserted _ _ ?_ (evalCount_result (hbits 1) _)
    rw [decide_eq_true_iff]
    exact k_threshold_le_total hlt hk

variable {expr : ConditionSpec → Expression} {ctx : EvalContext}

theorem allows_parallel_iff {circuit : ResolvedCircuit} {aggregation : AggregationMode}
    {bits : List ResolvedBit} (hpar : ParallelBits lib circuit aggregation bits) (hne : bits ≠ [])
    (hexpr : ∀ bit ∈ bits, (expr bit.body.condition).evaluate ctx = truth bit.body.condition) :
    Allows lib expr ctx circuit ↔
      allowsOn aggregation (bits.map fun bit => truth bit.body.condition) := by
  rw [← parallel_allow_iff hexpr hpar.decisions aggregation hne circuit.body]
  simp only [Allows, runtimeOf, hpar.composition, hpar.aggregator, hpar.nodes, Option.some.injEq,
    exists_eq_left']

/-- A list of such circuits goes on when all allow, and asserts false when one does not. -/
theorem block_parallel_circuits {circuits : List ResolvedCircuit}
    (hpar : ∀ circuit ∈ circuits, ∃ aggregation bits, ParallelBits lib circuit aggregation bits ∧
      ∀ bit ∈ bits, ConditionRuns env lib cas bit.body.condition (truth bit.body.condition) ∧
        (expr bit.body.condition).evaluate ctx = truth bit.body.condition)
    {code : List Instr} (hcode : compileCircuitsInner lib circuits = .ok code) :
    ∃ code' m, Decodes code code' ∧ Block env cas code' m ∧
      ((∀ circuit ∈ circuits, Allows lib expr ctx circuit) → m.result = .ok ()) ∧
      ((¬ ∀ circuit ∈ circuits, Allows lib expr ctx circuit) →
        m.result = .error (.error (.deny "assert_false"))) := by
  induction circuits generalizing code with
  | nil =>
    obtain rfl : [] = code := Except.ok.inj hcode
    exact ⟨[], pure (), decodeStream_nil, Block.nil env cas, fun _ => rfl,
      fun h => absurd (by simp) h⟩
  | cons circuit circuits ih =>
    simp only [compileCircuitsInner, bind_eq_ok] at hcode
    obtain ⟨code₁, h₁, code₂, h₂, hcode⟩ := hcode
    obtain rfl : code₁ ++ code₂ = code := Except.ok.inj hcode
    obtain ⟨aggregation, bits, hbits, hconds⟩ := hpar circuit List.mem_cons_self
    have hne : bits ≠ [] := by
      obtain ⟨-, -, -, -, ⟨bits', hbits', hne, -⟩ | ⟨hnone, -, -⟩⟩ := compileCircuit_eq_ok lib h₁
      · obtain rfl : bits = bits' := Option.some.inj (hbits.nodes.symm.trans hbits')
        exact hne
      · rw [hbits.nodes] at hnone
        cases hnone
    have hallow := allows_parallel_iff hbits hne fun bit hbit => (hconds bit hbit).2
    obtain ⟨xs, m, hxs, hblock, hok, herr⟩ :=
      block_parallel hbits (fun bit hbit => (hconds bit hbit).1) h₁
    obtain ⟨ys, n, hys, hblock', hok', herr'⟩ :=
      ih (fun c hc => hpar c (List.mem_cons_of_mem _ hc)) h₂
    rw [← hallow] at hok herr
    refine ⟨xs ++ ys, _, hxs.append hys, hblock.append hblock', ?_, ?_⟩
    · intro h
      rw [bind_result, hok (h circuit List.mem_cons_self), bind_ok]
      exact hok' fun c hc => h c (List.mem_cons_of_mem _ hc)
    · intro h
      by_cases hfirst : Allows lib expr ctx circuit
      · rw [bind_result, hok hfirst, bind_ok]
        refine herr' fun hrest => h fun c hc => ?_
        rcases List.mem_cons.mp hc with rfl | hc
        · exact hfirst
        · exact hrest c hc
      · rw [bind_result, herr hfirst, bind_error]

end Parallel

/-- The compiled program of parallel circuits comes to `EmitRc` when the interpreter allows every
circuit, and ends in `Deny("assert_false")` otherwise. -/
theorem run_parallel_circuits (env : VmEnv σ) (lib : TextLib) (cas : σ)
    (truth : ConditionSpec → Bool) (expr : ConditionSpec → Expression) (ctx : EvalContext)
    (circuits : List ResolvedCircuit)
    (hpar : ∀ circuit ∈ circuits, ∃ aggregation bits, ParallelBits lib circuit aggregation bits ∧
      ∀ bit ∈ bits, ConditionRuns env lib cas bit.body.condition (truth bit.body.condition) ∧
        (expr bit.body.condition).evaluate ctx = truth bit.body.condition)
    (hinput : env.inputs ≠ []) (hsign : ∀ b, env.signJws b ≠ [])
    (bytes : List UInt8) (hbytes : compileChipToUblVm lib circuits = .ok bytes) :
    ∃ code, decodeStream bytes = .ok code ∧ ∀ cfg, EnoughFuel cfg code →
      ((∀ circuit ∈ circuits, Allows lib expr ctx circuit) → Emits (run env cfg cas code)) ∧
      ((¬ ∀ circuit ∈ circuits, Allows lib expr ctx circuit) →
        run env cfg cas code = .error (.error (.deny "assert_false"))) := by
  simp only [compileChipToUblVm, bind_eq_ok] at hbytes
  obtain ⟨code, hcode, hbytes⟩ := hbytes
  obtain rfl := Except.ok.inj hbytes
  obtain ⟨code', m, hdecodes, hblock, hok, herr⟩ := block_parallel_circuits hpar hcode
  have hterm : Decodes terminator terminator := Decodes.of_short (by simp [terminator, Instr.Short])
  refine ⟨code' ++ terminator, hdecodes.append hterm, fun cfg hfuel => ⟨fun h => ?_, fun h => ?_⟩⟩
  · exact (emits_block_iff hblock hinput hsign hfuel).mpr (hok h)
  · exact run_block_error hblock hinput cfg (herr h) (enoughFuel_block hblock hinput hfuel)

/-- A circuit of bits with the given conditions and decisions. -/
def sampleCircuit (composition aggregator : String)
    (bits : List (ConditionSpec × Decision × Decision)) : ResolvedCircuit :=
  .mk "b3:10" ⟨"C", "C", [], composition, aggregator⟩
    (bits.map fun b => .bit ⟨"b3:11", ⟨"B", "B", b.1, b.2.1, b.2.2, []⟩⟩)

/-- Two of three. -/
def twoOfThree : ResolvedCircuit :=
  sampleCircuit "parallel" "majority" [(.always true, .allow, .deny), (.always false, .allow, .deny),
    (.always true, .allow, .deny)]

theorem run_parallel_circuits_twoOfThree :
    ∃ bytes code, compileChipToUblVm plainLib [twoOfThree] = .ok bytes ∧
      decodeStream bytes = .ok code ∧ ∀ cfg, EnoughFuel cfg code →
      ((∀ circuit ∈ [twoOfThree], Allows plainLib ConditionSpec.toExpression (contextOf [] 2) circuit) →
        Emits (run (textEnv Nrf.asciiText "\x7b\x7d" (.object []) 2) cfg () code)) ∧
      ((¬ ∀ circuit ∈ [twoOfThree],
          Allows plainLib ConditionSpec.toExpression (contextOf [] 2) circuit) →
        run (textEnv Nrf.asciiText "\x7b\x7d" (.object []) 2) cfg () code =
          .error (.error (.deny "assert_false"))) := by
  have halways (b : Bool) : ConditionRuns (textEnv Nrf.asciiText "\x7b\x7d" (.object []) 2) plainLib ()
      (.always b) (vmValue plainLib none 0 0 (.always b)) :=
    conditionRuns_of_result (by simp [compileToBool, Instr.Short]) rfl
  have hpar : ParallelBits plainLib twoOfThree .majority
      [⟨"b3:11", ⟨"B", "B", .always true, .allow, .deny, []⟩⟩,
        ⟨"b3:11", ⟨"B", "B", .always false, .allow, .deny, []⟩⟩,
        ⟨"b3:11", ⟨"B", "B", .always true, .allow, .deny, []⟩⟩] := by
    refine ⟨rfl, rfl, rfl, by decide, by simp, by simp, by simp⟩
  have hcircuits := run_parallel_circuits (textEnv Nrf.asciiText "\x7b\x7d" (.object []) 2)
    plainLib () (vmValue plainLib none 0 0) ConditionSpec.toExpression (contextOf [] 2) [twoOfThree]
    ?_ ?_ ?_ _ rfl
  · obtain ⟨code, hcode, hrun⟩ := hcircuits
    exact ⟨_, code, rfl, hcode, hrun⟩
  · simp only [List.mem_singleton, forall_eq]
    refine ⟨_, _, hpar, ?_⟩
    simp only [List.mem_cons, List.not_mem_nil, or_false, forall_eq_or_imp, forall_eq]
    exact ⟨⟨halways true, rfl⟩, ⟨halways false, rfl⟩, halways true, rfl⟩
  · simp [textEnv]
  · simp [textEnv]

end Ubl.Silicon
