import Ubl.Silicon.Program

/-!
# Chips over a body that cannot be read

When input 0 is no JSON text, the first condition that looks at the body ends the run
(`evalCond_of_unreadable`).  Up to there the compiler has written plain instructions only, whose
payloads fit their length field; so `decode_stream` reads back what matters of the program even
where a long key behind that place is read as something else (`run_decoded`).
-/

namespace Ubl.Silicon

open BigEndian Metered ExceptLemmas
open Ubl.Vm
open Ubl.Policy (Decision CompositionMode AggregationMode)

variable {σ : Type}

/-! ## Up to the first look at the body -/

/-- The code is plain, or it is plain up to a place where it loads the body. -/
def Cut (code : List Instr) : Prop :=
  (∀ ins ∈ code, Plain ins) ∨
    ∃ pre post, code = pre ++ (loadBody ++ post) ∧ ∀ ins ∈ pre, Plain ins

theorem Cut.append {xs ys : List Instr} (hx : Cut xs) (hy : Cut ys) : Cut (xs ++ ys) := by
  rcases hx with hx | ⟨pre, post, rfl, hpre⟩
  · rcases hy with hy | ⟨pre, post, rfl, hpre⟩
    · exact .inl (List.forall_mem_append.mpr ⟨hx, hy⟩)
    · refine .inr ⟨xs ++ pre, post, by rw [List.append_assoc], ?_⟩
      exact List.forall_mem_append.mpr ⟨hx, hpre⟩
  · exact .inr ⟨pre, post ++ ys, by simp only [List.append_assoc], hpre⟩

theorem composable_cut : Composable Cut where
  nil := .inl (by simp)
  append := Cut.append
  plain h := .inl (by simpa using h)
  load _ := .inr ⟨[], _, rfl, by simp⟩

section Run

variable {env : VmEnv σ} {cas : σ} {pre : List Instr} (hpre : ∀ ins ∈ pre, Plain ins)
  (hview : bodyView env cas = none)

include hpre hview

/-- Code that loads the body ends the run, there or before. -/
theorem exec_load_error : ∃ e, (exec (execOp env) (pre ++ loadBody) (initial cas)).result =
    .error e := by
  rw [exec_append, bind_result]
  cases h : (exec (execOp env) pre (initial cas)).result with
  | error e => exact ⟨e, rfl⟩
  | ok core =>
    have hcas : core.cas = cas :=
      exec_keepsCas env (fun ins hins => (hpre ins hins).noPut) (initial cas) core h
    have hload := exec_loadBody env core []
    rw [List.append_nil] at hload
    cases hread : (readBody env cas).result with
    | error e =>
      refine ⟨e, ?_⟩
      rw [bind_ok, hload, hcas, bind_result, hread]
      rfl
    | ok j =>
      rw [(readBody_result_eq_ok env cas).mp hread] at hview
      cases hview

/-- What stands behind the place is never reached. -/
theorem run_load (cfg : VmConfig) (ys zs : List Instr) :
    run env cfg cas (pre ++ loadBody ++ ys) = run env cfg cas (pre ++ loadBody ++ zs) := by
  obtain ⟨e, herror⟩ := exec_load_error hpre hview
  have hemit : EmitFree (pre ++ loadBody) :=
    emitFree_append.mpr ⟨fun ins hins => (hpre ins hins).noEmit, by simp [loadBody]⟩
  by_cases hfuel :
      fuelFor (exec (execOp env) (pre ++ loadBody) (initial cas)).cost ≤ cfg.fuelLimit.toNat
  · rw [run_error env cfg cas hemit ys herror hfuel, run_error env cfg cas hemit zs herror hfuel]
  · rw [run_exhausted env cfg cas hemit ys hfuel, run_exhausted env cfg cas hemit zs hfuel]

end Run

theorem decodeStream_plain {code : List Instr} (hcode : ∀ ins ∈ code, Plain ins) :
    decodeStream (encode (code ++ terminator)) = .ok (code ++ terminator) := by
  refine decodeStream_encode (List.forall_mem_append.mpr ⟨fun ins hins => (hcode ins hins).short, ?_⟩)
  simp [terminator, Instr.Short]

/-- The decoded program runs as the one that was compiled, whatever became of its long
payloads. -/
theorem run_decoded {env : VmEnv σ} {cas : σ} (hview : bodyView env cas = none)
    {code decoded : List Instr} (hcut : Cut code)
    (hdecode : decodeStream (encode (code ++ terminator)) = .ok decoded) (cfg : VmConfig) :
    run env cfg cas decoded = run env cfg cas (code ++ terminator) := by
  rcases hcut with hplain | ⟨pre, post, rfl, hpre⟩
  · rw [decodeStream_plain hplain] at hdecode
    rw [Except.ok.inj hdecode]
  · have hshort : ∀ ins ∈ pre ++ loadBody, ins.Short := by
      refine List.forall_mem_append.mpr ⟨fun ins hins => (hpre ins hins).short, ?_⟩
      simp [loadBody, Instr.Short]
    have hsplit : pre ++ (loadBody ++ post) ++ terminator =
        pre ++ loadBody ++ (post ++ terminator) := by simp only [List.append_assoc]
    rw [hsplit, encode_append, decodeStream_encode_append hshort] at hdecode
    rw [hsplit]
    cases htail : decodeStream (encode (post ++ terminator)) with
    | error e =>
      rw [htail] at hdecode
      cases hdecode
    | ok tail =>
      rw [htail] at hdecode
      obtain rfl : pre ++ loadBody ++ tail = decoded := Except.ok.inj hdecode
      exact run_load hpre hview cfg tail (post ++ terminator)

/-! ## How a chip fails -/

/-- The run ends in `ExecError::Deny`. -/
def IsDeny (e : Fault) : Prop := ∃ reason, e = .error (.deny reason)

section Faults

variable {val : ConditionSpec → Metered Fault Bool} (hval : ∀ c, FailsOnly IsDeny (val c))

theorem assertTrue_failsOnly (b : Bool) : FailsOnly IsDeny (assertTrue b) := by
  refine failsOnly_charged fun e he => ?_
  cases b with
  | true => cases he
  | false => exact ⟨_, (Except.error.inj he).symm⟩

include hval

theorem evalBits_failsOnly (extra : Nat) (bits : List ResolvedBit) :
    FailsOnly IsDeny (evalBits val extra bits) := by
  induction bits with
  | nil => exact failsOnly_pure _
  | cons bit bits ih =>
    exact (hval _).bind fun _ => (failsOnly_spend _).bind fun _ => ih.bind fun _ => failsOnly_pure _

theorem evalEach_failsOnly (bits : List ResolvedBit) : FailsOnly IsDeny (evalEach val bits) := by
  induction bits with
  | nil => exact failsOnly_pure _
  | cons bit bits ih =>
    refine (hval _).bind fun b => FailsOnly.bind ?_ fun _ => ih
    unfold assertOrDrop
    split_ifs
    · exact assertTrue_failsOnly b
    · exact failsOnly_spend 1

theorem evalFold_failsOnly (bits : List ResolvedBit) (f : List Bool → Bool) :
    FailsOnly IsDeny (evalFold val bits f) :=
  (evalBits_failsOnly hval 0 bits).bind fun _ => (failsOnly_spend _).bind fun _ =>
    assertTrue_failsOnly _

theorem evalCount_failsOnly (bits : List ResolvedBit) (threshold : Int64) :
    FailsOnly IsDeny (evalCount val bits threshold) :=
  (evalBits_failsOnly hval 1 bits).bind fun _ => (failsOnly_spend _).bind fun _ =>
    (failsOnly_spend _).bind fun _ => assertTrue_failsOnly _

theorem evalBitsCircuit_failsOnly (composition : CompositionMode) (aggregation : AggregationMode)
    (bits : List ResolvedBit) :
    FailsOnly IsDeny (evalBitsCircuit val composition aggregation bits) := by
  cases composition <;> cases aggregation <;>
    first
      | exact evalEach_failsOnly hval bits
      | exact evalFold_failsOnly hval bits _
      | exact evalCount_failsOnly hval bits _

end Faults

/-! ## Conditions and nodes without a body -/

mutual

/-- The conditions of a node, at any depth. -/
def nodeConditions : ResolvedNode → List ConditionSpec
  | .bit b => [b.body.condition]
  | .subChip circuits => circuitsConditions circuits

def nodesConditions : List ResolvedNode → List ConditionSpec
  | [] => []
  | node :: nodes => nodeConditions node ++ nodesConditions nodes

def circuitsConditions : List ResolvedCircuit → List ConditionSpec
  | [] => []
  | .mk _ _ nodes :: circuits => nodesConditions nodes ++ circuitsConditions circuits

end

theorem nodesConditions_of_bitsOf {nodes : List ResolvedNode} {bits : List ResolvedBit}
    (h : bitsOf nodes = some bits) :
    nodesConditions nodes = bits.map fun bit => bit.body.condition := by
  induction nodes generalizing bits with
  | nil =>
    obtain rfl : [] = bits := Option.some.inj h
    rfl
  | cons node nodes ih =>
    rw [bitsOf, List.mapM_cons] at h
    cases node with
    | subChip circuits => cases h
    | bit b =>
      cases hrest : bitsOf nodes with
      | none =>
        rw [bitsOf] at hrest
        simp [hrest] at h
      | some rest =>
        have ih' := ih hrest
        rw [bitsOf] at hrest
        obtain rfl : b :: rest = bits := by simpa [hrest] using h
        rw [nodesConditions, nodeConditions, ih']
        rfl

/-- No atom of the condition, at any depth, reads a field of the body. -/
def BodyFree (c : ConditionSpec) : Prop := Readable none c

section Unreadable

variable {env : VmEnv σ} (lib : TextLib) {cas : σ}
  (hread : ∃ reason, (readBody env cas).result = .error (.error (.deny reason)))

include hread

theorem bodyView_of_denied : bodyView env cas = none := by
  obtain ⟨reason, hread⟩ := hread
  rw [bodyView, hread]
  rfl

theorem readBody_bind_failsOnly {α : Type} (k : Json → Metered Fault α) :
    FailsOnly IsDeny (readBody env cas >>= k) := by
  obtain ⟨reason, hread⟩ := hread
  intro e he
  rw [bind_result, hread] at he
  exact ⟨reason, (Except.error.inj he).symm⟩

theorem evalCond_failsOnly (c : ConditionSpec) : FailsOnly IsDeny (evalCond env lib cas c) := by
  refine evalCond_failsOnly_of_atoms env lib ?_ ?_ ?_ ?_ c
  · intro key
    exact readBody_bind_failsOnly hread _
  · intro key expected
    exact readBody_bind_failsOnly hread _
  · intro field amount
    exact readBody_bind_failsOnly hread _
  · intro field window
    exact (failsOnly_spend 1).bind fun _ => readBody_bind_failsOnly hread _

end Unreadable

section Nodes

variable {env : VmEnv σ} {lib : TextLib} {cas : σ}

mutual

theorem evalNode_failsOnly (hcond : ∀ c, FailsOnly IsDeny (evalCond env lib cas c)) :
    ∀ node : ResolvedNode, FailsOnly IsDeny (evalNode env lib cas node)
  | .bit b => by
    rw [evalNode]
    exact hcond _
  | .subChip circuits => by
    rw [evalNode]
    exact (evalNodesOf_failsOnly hcond circuits).bind fun _ => (failsOnly_spend _).bind fun _ =>
      failsOnly_pure _

theorem evalNodes_failsOnly (hcond : ∀ c, FailsOnly IsDeny (evalCond env lib cas c)) :
    ∀ nodes : List ResolvedNode, FailsOnly IsDeny (evalNodes env lib cas nodes)
  | [] => failsOnly_pure _
  | node :: nodes => by
    rw [evalNodes]
    exact (evalNode_failsOnly hcond node).bind fun _ => (evalNodes_failsOnly hcond nodes).bind
      fun _ => failsOnly_pure _

theorem evalNodesOf_failsOnly (hcond : ∀ c, FailsOnly IsDeny (evalCond env lib cas c)) :
    ∀ circuits : List ResolvedCircuit, FailsOnly IsDeny (evalNodesOf env lib cas circuits)
  | [] => failsOnly_pure _
  | .mk _ _ nodes :: circuits => by
    rw [evalNodesOf]
    exact (evalNodes_failsOnly hcond nodes).bind fun _ => (evalNodesOf_failsOnly hcond circuits).bind
      fun _ => failsOnly_pure _

end

mutual

/-- The nodes come to Booleans exactly when all of their conditions do. -/
theorem evalNode_isOk : ∀ node : ResolvedNode, (evalNode env lib cas node).IsOk ↔
    ∀ c ∈ nodeConditions node, Readable (bodyView env cas) c
  | .bit b => by
    simp only [evalNode, nodeConditions, List.mem_singleton, forall_eq]
    constructor
    · rintro ⟨v, hv⟩
      exact ((evalCond_result env lib cas _ v).mp hv).1
    · intro hread
      exact ⟨_, (evalCond_result env lib cas _ _).mpr ⟨hread, rfl⟩⟩
  | .subChip circuits => by
    rw [evalNode, nodeConditions, ← evalNodesOf_isOk circuits]
    exact isOk_bind_total fun _ => ⟨_, rfl⟩

theorem evalNodes_isOk : ∀ nodes : List ResolvedNode, (evalNodes env lib cas nodes).IsOk ↔
    ∀ c ∈ nodesConditions nodes, Readable (bodyView env cas) c
  | [] => by
    simp only [evalNodes, nodesConditions, List.not_mem_nil, false_implies, implies_true, iff_true]
    exact ⟨_, rfl⟩
  | node :: nodes => by
    rw [evalNodes, nodesConditions, List.forall_mem_append, ← evalNode_isOk node,
      ← evalNodes_isOk nodes]
    exact isOk_bind_both fun _ _ => ⟨_, rfl⟩

theorem evalNodesOf_isOk : ∀ circuits : List ResolvedCircuit,
    (evalNodesOf env lib cas circuits).IsOk ↔
      ∀ c ∈ circuitsConditions circuits, Readable (bodyView env cas) c
  | [] => by
    simp only [evalNodesOf, circuitsConditions, List.not_mem_nil, false_implies, implies_true,
      iff_true]
    exact ⟨_, rfl⟩
  | .mk _ _ nodes :: circuits => by
    rw [evalNodesOf, circuitsConditions, List.forall_mem_append, ← evalNodes_isOk nodes,
      ← evalNodesOf_isOk circuits]
    exact isOk_bind_both fun _ _ => ⟨_, rfl⟩

end

end Nodes

/-! ## The count of the mixed path -/

/-- A circuit with a sub-chip among two or more nodes, aggregated by a count. -/
structure CountsMixed (lib : TextLib) (circuit : ResolvedCircuit) : Prop where
  mixed : bitsOf circuit.nodes = none
  several : 2 ≤ circuit.nodes.length
  counted : circuit.body.aggregationMode lib = .ok .majority ∨
    ∃ k n, circuit.body.aggregationMode lib = .ok (.kOfN k n)

/-- The chip comes to such a circuit and to its count: the circuits before it go on, and none of
its own conditions reads the body. -/
def ReachesMixedCount (env : VmEnv σ) (lib : TextLib) (cas : σ) (circuits : List ResolvedCircuit) :
    Prop :=
  ∃ before circuit after, circuits = before ++ circuit :: after ∧
    (evalCircuits env lib cas before).IsOk ∧ CountsMixed lib circuit ∧
    ∀ c ∈ nodesConditions circuit.nodes, BodyFree c

theorem evalMixedCount_failsOnly {bs : List Bool} (h : bs.length = 1) (threshold : Int64) :
    FailsOnly IsDeny (evalMixedCount bs threshold) := by
  obtain ⟨b, rfl⟩ := List.length_eq_one_iff.mp h
  exact (failsOnly_spend 3).bind fun _ => assertTrue_failsOnly _

section Outcome

variable {env : VmEnv σ} {lib : TextLib} {cas : σ}
  (hread : ∃ reason, (readBody env cas).result = .error (.error (.deny reason)))

include hread

/-- A circuit fails by a denial, unless it comes to a count of the mixed path. -/
theorem evalCircuit_failsOnly {circuit : ResolvedCircuit} {code : List Instr}
    (hcode : compileCircuit lib circuit = .ok code)
    (h : ¬ (CountsMixed lib circuit ∧ ∀ c ∈ nodesConditions circuit.nodes, BodyFree c)) :
    FailsOnly IsDeny (evalCircuit env lib cas circuit) := by
  obtain ⟨composition, aggregation, hc, ha, hcode⟩ := compileCircuit_eq_ok lib hcode
  have hcond := evalCond_failsOnly lib hread
  unfold evalCircuit
  rw [hc, ha]
  obtain ⟨bits, hbits, -, -⟩ | ⟨hbits, hne, -⟩ := hcode
  · rw [hbits]
    exact evalBitsCircuit_failsOnly hcond composition aggregation bits
  rw [hbits]
  have hnodes := evalNodes_failsOnly hcond circuit.nodes
  -- a count that is reached has one node only
  have hcount (hagg : aggregation = .majority ∨ ∃ k n, aggregation = .kOfN k n) (threshold : Int64) :
      FailsOnly IsDeny (evalNodes env lib cas circuit.nodes >>= (evalMixedCount · threshold)) := by
    refine hnodes.bind_ok fun bs hbs => ?_
    have hlen := length_of_evalNodes env lib cas hbs
    refine evalMixedCount_failsOnly ?_ threshold
    have hpos := List.length_pos_iff.mpr hne
    by_contra hone
    refine h ⟨⟨hbits, by omega, ?_⟩, ?_⟩
    · rcases hagg with rfl | ⟨k, n, rfl⟩
      · exact .inl ha
      · exact .inr ⟨k, n, ha⟩
    · have hfree := (evalNodes_isOk circuit.nodes).mp ⟨bs, hbs⟩
      rwa [bodyView_of_denied hread] at hfree
  unfold evalMixed
  cases aggregation with
  | all => exact hnodes.bind fun _ => (failsOnly_spend _).bind fun _ => assertTrue_failsOnly _
  | any => exact hnodes.bind fun _ => (failsOnly_spend _).bind fun _ => assertTrue_failsOnly _
  | firstDecisive =>
    exact hnodes.bind fun _ => (failsOnly_spend _).bind fun _ => assertTrue_failsOnly _
  | majority => exact hcount (.inl rfl) _
  | kOfN k n => exact hcount (.inr ⟨k, n, rfl⟩) _

/-- The count of the mixed path is a type mismatch. -/
theorem evalCircuit_mismatch {circuit : ResolvedCircuit} {code : List Instr}
    (hcode : compileCircuit lib circuit = .ok code) (hmixed : CountsMixed lib circuit)
    (hfree : ∀ c ∈ nodesConditions circuit.nodes, BodyFree c) :
    (evalCircuit env lib cas circuit).result = .error (.error (.typeMismatch .boolToI64)) := by
  obtain ⟨composition, aggregation, hc, ha, -⟩ := compileCircuit_eq_ok lib hcode
  have hok : (evalNodes env lib cas circuit.nodes).IsOk := by
    rw [evalNodes_isOk, bodyView_of_denied hread]
    exact hfree
  obtain ⟨bs, hbs⟩ := hok
  have hlen := length_of_evalNodes env lib cas hbs
  have hcount (threshold : Int64) : (evalNodes env lib cas circuit.nodes >>=
      (evalMixedCount · threshold)).result = .error (.error (.typeMismatch .boolToI64)) := by
    rw [bind_result, hbs, bind_ok]
    have hsev := hmixed.several
    match bs, hlen with
    | [], hlen => simp only [List.length_nil] at hlen; omega
    | [_], hlen => simp only [List.length_singleton] at hlen; omega
    | _ :: _ :: _, _ => rfl
  unfold evalCircuit evalMixed
  rw [hc, hmixed.mixed]
  obtain hagg | ⟨k, n, hagg⟩ := hmixed.counted
  · rw [hagg]
    exact hcount _
  · rw [hagg]
    exact hcount _

/-- A chip over a body that cannot be read goes on, denies, or comes to a count of the mixed
path. -/
theorem evalCircuits_outcome {circuits : List ResolvedCircuit} {code : List Instr}
    (hcode : compileCircuitsInner lib circuits = .ok code) :
    (ReachesMixedCount env lib cas circuits →
      (evalCircuits env lib cas circuits).result = .error (.error (.typeMismatch .boolToI64))) ∧
    (¬ ReachesMixedCount env lib cas circuits →
      FailsOnly IsDeny (evalCircuits env lib cas circuits)) := by
  induction circuits generalizing code with
  | nil =>
    refine ⟨?_, fun _ => failsOnly_pure _⟩
    rintro ⟨before, circuit, after, h, -⟩
    simp at h
  | cons circuit circuits ih =>
    simp only [compileCircuitsInner, bind_eq_ok] at hcode
    obtain ⟨code₁, h₁, code₂, h₂, -⟩ := hcode
    obtain ⟨ihreach, ihnot⟩ := ih h₂
    constructor
    · rintro ⟨before, circuit', after, h, hbefore, hmixed, hfree⟩
      rw [evalCircuits, bind_result]
      cases before with
      | nil =>
        obtain ⟨rfl, rfl⟩ := List.cons.inj h
        rw [evalCircuit_mismatch hread h₁ hmixed hfree]
        rfl
      | cons first before =>
        rw [List.cons_append] at h
        obtain ⟨rfl, rfl⟩ := List.cons.inj h
        rw [evalCircuits, isOk_bind_iff] at hbefore
        obtain ⟨u, hu, hrest⟩ := hbefore
        rw [hu, bind_ok]
        exact ihreach ⟨before, circuit', after, rfl, hrest, hmixed, hfree⟩
    · intro hnot
      have hfirst : FailsOnly IsDeny (evalCircuit env lib cas circuit) := by
        refine evalCircuit_failsOnly hread h₁ ?_
        rintro ⟨hmixed, hfree⟩
        refine hnot ?_
        exact ⟨[], circuit, circuits, rfl, ⟨(), rfl⟩, hmixed, hfree⟩
      refine hfirst.bind_ok fun u hu => ihnot ?_
      rintro ⟨before, circuit', after, rfl, hbefore, hmixed, hfree⟩
      refine hnot ⟨circuit :: before, circuit', after, rfl, ?_, hmixed, hfree⟩
      exact isOk_bind_iff.mpr ⟨u, hu, hbefore⟩

end Outcome

end Ubl.Silicon
