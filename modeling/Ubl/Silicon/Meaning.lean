import Ubl.Silicon.Compile

/-!
# What compiled circuits do

`evalCircuit` is the metered meaning of a compiled circuit: it goes on or it ends the run, and
leaves nothing on the stack either way.

    exec (code ++ rest) core = evalCircuit circuit >>= fun _ => exec rest core

for the code of a circuit (`exec_compileCircuit`).  Bits that are counted are
summed with the saturating addition of the machine (`total`), which counts them as long as
there are fewer than 2^63 (`total_eq_count`).
-/

namespace Ubl.Silicon

open BigEndian Metered ExceptLemmas
open Ubl.Vm
open Ubl.Policy (Decision CompositionMode AggregationMode)

/-! ## Sums of bits -/

/-- `BoolToI64`. -/
def indicator (b : Bool) : Int64 := if b then 1 else 0

/-- `AddI64`. -/
def addI64 (a b : Int64) : Int64 := saturate (a.toInt + b.toInt)

/-- What the row of `AddI64` leaves. -/
def total : List Bool → Int64
  | [] => 0
  | b :: bs => foldTop addI64 (indicator b) (bs.map indicator)

theorem saturate_of_nat {n : Nat} (h : n < 2 ^ 63) : saturate (n : Int) = Int64.ofNat n := by
  have hmax : Int64.maxValue.toInt = 2 ^ 63 - 1 := by decide
  have hmin : Int64.minValue.toInt = -2 ^ 63 := by decide
  unfold saturate
  rw [hmax, hmin, if_neg (by omega), if_neg (by omega)]
  rfl

theorem indicator_toInt (b : Bool) : (indicator b).toInt = (if b then 1 else 0 : Nat) := by
  cases b <;> decide

/-- The sum of fewer than 2^63 bits is their number. -/
theorem total_eq_count (bs : List Bool) (h : bs.length < 2 ^ 63) :
    total bs = Int64.ofNat (bs.count true) := by
  cases bs with
  | nil => rfl
  | cons b bs =>
    rw [total]
    induction bs generalizing b with
    | nil =>
      cases b <;> decide
    | cons c bs ih =>
      have hlen : (c :: bs).length < 2 ^ 63 := by
        simp only [List.length_cons] at h ⊢
        omega
      have hcount := List.count_le_length (a := true) (l := c :: bs)
      have hlt : (c :: bs).count true < 2 ^ 63 := by omega
      rw [List.map_cons, foldTop, ih c hlen, addI64, indicator_toInt, Int64.toInt_ofNat_of_lt hlt,
        ← Nat.cast_add]
      have hsum : (if b then 1 else 0) + (c :: bs).count true = (b :: c :: bs).count true := by
        cases b <;> simp [Nat.add_comm]
      have hle := List.count_le_length (a := true) (l := b :: c :: bs)
      rw [hsum, saturate_of_nat (by omega)]

/-! ## Meaning of circuits -/

section Bits

variable (val : ConditionSpec → Metered Fault Bool)

/-- `AssertTrue`. -/
def assertTrue (b : Bool) : Metered Fault Unit :=
  charged (if b then .ok () else .error (.error (.deny "assert_false")))

/-- The conditions of all bits in turn, with `extra` instructions after each. -/
def evalBits (extra : Nat) : List ResolvedBit → Metered Fault (List Bool)
  | [] => pure []
  | bit :: bits => do
    let b ← val bit.body.condition
    spend extra
    let bs ← evalBits extra bits
    pure (b :: bs)

/-- `AssertTrue` where `on_false` is a denial, `Drop` elsewhere. -/
def assertOrDrop (onFalse : Decision) (b : Bool) : Metered Fault Unit :=
  if onFalse = .deny then assertTrue b else spend 1

/-- Bit after bit, asserted or dropped. -/
def evalEach : List ResolvedBit → Metered Fault Unit
  | [] => pure ()
  | bit :: bits => do
    let b ← val bit.body.condition
    assertOrDrop bit.body.onFalse b
    evalEach bits

def evalFold (bits : List ResolvedBit) (f : List Bool → Bool) : Metered Fault Unit := do
  let bs ← evalBits val 0 bits
  spend (bits.length - 1)
  assertTrue (f bs)

def evalCount (bits : List ResolvedBit) (threshold : Int64) : Metered Fault Unit := do
  let bs ← evalBits val 1 bits
  spend (bits.length - 1)
  spend 2
  assertTrue (decide (threshold ≤ total bs))

def evalBitsCircuit (composition : CompositionMode) (aggregation : AggregationMode)
    (bits : List ResolvedBit) : Metered Fault Unit :=
  match composition, aggregation with
  | .sequential, .all | .sequential, .firstDecisive => evalEach val bits
  | _, .any => evalFold val bits fun bs => bs.any id
  | _, .majority => evalCount val bits (Int64.ofNat (bits.length / 2) + 1)
  | _, .kOfN k _ => evalCount val bits k.toInt64
  | .parallel, .all | .parallel, .firstDecisive => evalFold val bits fun bs => bs.all id
  | .conditional _, .all | .conditional _, .firstDecisive => evalEach val bits

end Bits

section Meaning

variable {σ : Type} (env : VmEnv σ) (lib : TextLib) (cas : σ)

mutual

def evalNode : ResolvedNode → Metered Fault Bool
  | .bit b => evalCond env lib cas b.body.condition
  | .subChip circuits => do
    let bs ← evalNodesOf circuits
    spend (if countNodes circuits = 0 then 1 else countNodes circuits - 1)
    pure (bs.all id)

def evalNodes : List ResolvedNode → Metered Fault (List Bool)
  | [] => pure []
  | node :: nodes => do
    let b ← evalNode node
    let bs ← evalNodes nodes
    pure (b :: bs)

def evalNodesOf : List ResolvedCircuit → Metered Fault (List Bool)
  | [] => pure []
  | .mk _ _ nodes :: circuits => do
    let bs ← evalNodes nodes
    let bs' ← evalNodesOf circuits
    pure (bs ++ bs')

end

/-- The second `BoolToI64` of the mixed path finds the integer that the first has made. -/
def evalMixedCount (bs : List Bool) (threshold : Int64) : Metered Fault Unit :=
  match bs with
  | [b] => do
    spend 3
    assertTrue (decide (threshold ≤ indicator b))
  | _ => do
    spend 1
    charged (.error (.error (.typeMismatch .boolToI64)))

def evalMixed (aggregation : AggregationMode) (nodes : List ResolvedNode) :
    Metered Fault Unit := do
  let bs ← evalNodes env lib cas nodes
  match aggregation with
  | .all | .firstDecisive => do
    spend (nodes.length - 1)
    assertTrue (bs.all id)
  | .any => do
    spend (nodes.length - 1)
    assertTrue (bs.any id)
  | .majority => evalMixedCount bs (Int64.ofNat (nodes.length / 2 + 1))
  | .kOfN k _ => evalMixedCount bs k.toInt64

/-- A circuit that the compiler takes; nothing is said of the others. -/
def evalCircuit (circuit : ResolvedCircuit) : Metered Fault Unit :=
  match circuit.body.compositionMode lib, circuit.body.aggregationMode lib with
  | .ok composition, .ok aggregation =>
    match bitsOf circuit.nodes with
    | some bits => evalBitsCircuit (evalCond env lib cas) composition aggregation bits
    | none => evalMixed env lib cas aggregation circuit.nodes
  | _, _ => pure ()

def evalCircuits : List ResolvedCircuit → Metered Fault Unit
  | [] => pure ()
  | circuit :: circuits => do
    evalCircuit env lib cas circuit
    evalCircuits circuits

end Meaning

/-! ## The code is the meaning -/

section Exec

variable {σ : Type} (env : VmEnv σ) (lib : TextLib)

theorem exec_assertTrue (core : Core σ) (b : Bool) (rest : List Instr) :
    exec (execOp env) (⟨.assertTrue, []⟩ :: rest) (core.push (.bool b)) =
      assertTrue b >>= fun _ => exec (execOp env) rest core := by
  have hstep : execOp env ⟨.assertTrue, []⟩ (core.push (.bool b)) =
      Except.map (fun _ => core)
        (if b then .ok () else .error (.error (.deny "assert_false"))) := by
    cases b <;> rfl
  rw [exec_cons, hstep, charged_map_bind, assertTrue]

/-- `ConstI64(threshold) → CmpI64(GE) → AssertTrue`. -/
theorem exec_threshold (core : Core σ) (a threshold : Int64) (rest : List Instr) :
    exec (execOp env) (⟨.constI64, i64ToBe threshold⟩ :: ⟨.cmpI64, [5]⟩ :: ⟨.assertTrue, []⟩ :: rest)
        (core.push (.i64 a)) =
      spend 2 >>= fun _ => assertTrue (decide (threshold ≤ a)) >>= fun _ =>
        exec (execOp env) rest core := by
  have hcmp : execOp env ⟨.cmpI64, [5]⟩ ((core.push (.i64 a)).push (.i64 threshold)) =
      .ok (core.push (.bool (decide (threshold ≤ a)))) := rfl
  rw [exec_cons_ok _ (execOp_constI64 env _ threshold), exec_cons_ok _ hcmp, spend_bind_spend,
    exec_assertTrue]

theorem exec_assertOrDrop (core : Core σ) (onFalse : Decision) (b : Bool) (rest : List Instr) :
    exec (execOp env) ((if onFalse = .deny then ⟨.assertTrue, []⟩ else ⟨.drop, []⟩) :: rest)
        (core.push (.bool b)) =
      assertOrDrop onFalse b >>= fun _ => exec (execOp env) rest core := by
  unfold assertOrDrop
  split_ifs with hdeny
  · rw [exec_assertTrue]
  · have hdrop : execOp env ⟨.drop, []⟩ (core.push (.bool b)) = .ok core := rfl
    rw [exec_cons_ok _ hdrop]

theorem length_of_evalBits {val : ConditionSpec → Metered Fault Bool} {extra : Nat}
    {bits : List ResolvedBit} {bs : List Bool} (h : (evalBits val extra bits).result = .ok bs) :
    bs.length = bits.length := by
  induction bits generalizing bs with
  | nil =>
    obtain rfl : [] = bs := Except.ok.inj h
    rfl
  | cons bit bits ih =>
    simp only [evalBits, bind_result, bind_eq_ok] at h
    obtain ⟨b, -, -, -, bs', hbs', h⟩ := h
    obtain rfl : b :: bs' = bs := Except.ok.inj h
    rw [List.length_cons, List.length_cons, ih hbs']

/-- The row of `AddI64` leaves the total. -/
theorem exec_foldAdd {bs : List Bool} (hne : bs ≠ []) (core : Core σ) (rest : List Instr) :
    exec (execOp env) (List.replicate (bs.length - 1) ⟨.addI64, []⟩ ++ rest)
        (core.pushAll (bs.map fun b => .i64 (indicator b))) =
      spend (bs.length - 1) >>= fun _ =>
        exec (execOp env) rest (core.push (.i64 (total bs))) := by
  obtain ⟨b, bs, rfl⟩ := List.exists_cons_of_ne_nil hne
  have hfold := exec_fold env Value.i64 addI64 ⟨.addI64, []⟩
    (fun _ _ _ => rfl) (indicator b) (bs.map indicator) core rest
  rw [List.map_map, List.length_map] at hfold
  exact hfold

/-- The code `toBool c` pushes the Boolean that `val c` comes to, on every stack. -/
def Pushes (cas : σ) (toBool : ConditionSpec → List Instr)
    (val : ConditionSpec → Metered Fault Bool) (c : ConditionSpec) : Prop :=
  ∀ core : Core σ, core.cas = cas → ∀ rest, exec (execOp env) (toBool c ++ rest) core =
    val c >>= fun b => exec (execOp env) rest (core.push (.bool b))

theorem pushes_compileToBool (cas : σ) (c : ConditionSpec) :
    Pushes env cas (compileToBool lib) (evalCond env lib cas) c := by
  rintro core rfl rest
  exact exec_compileToBool env lib c core rest

section Bits

variable {cas : σ} {toBool : ConditionSpec → List Instr} {val : ConditionSpec → Metered Fault Bool}
  {bits : List ResolvedBit} (hpush : ∀ bit ∈ bits, Pushes env cas toBool val bit.body.condition)

include hpush

/-- The code of all bits, each followed by instructions that work on its Boolean. -/
theorem exec_bits (post : List Instr) (extra : Nat) (inj : Bool → Value)
    (hpost : ∀ (core : Core σ) b rest, exec (execOp env) (post ++ rest) (core.push (.bool b)) =
      spend extra >>= fun _ => exec (execOp env) rest (core.push (inj b)))
    (core : Core σ) (hcas : core.cas = cas) (rest : List Instr) :
    exec (execOp env) (bits.flatMap (fun bit => toBool bit.body.condition ++ post) ++ rest) core =
      evalBits val extra bits >>= fun bs =>
        exec (execOp env) rest (core.pushAll (bs.map inj)) := by
  induction bits generalizing core with
  | nil => simp [evalBits]
  | cons bit bits ih =>
    have ih' := ih fun b hb => hpush b (List.mem_cons_of_mem _ hb)
    rw [List.flatMap_cons, List.append_assoc, List.append_assoc,
      hpush bit List.mem_cons_self core hcas]
    simp only [evalBits, hpost, bind_assoc, pure_bind, List.map_cons, Core.pushAll_cons]
    exact bind_congr fun b => bind_congr fun _ => ih' (core.push (inj b)) hcas

theorem exec_compileFold (op : Opcode) (f : List Bool → Bool)
    (hfold : ∀ bs : List Bool, bs ≠ [] → ∀ (core : Core σ) rest,
      exec (execOp env) (List.replicate (bs.length - 1) ⟨op, []⟩ ++ rest)
          (core.pushAll (bs.map .bool)) =
        spend (bs.length - 1) >>= fun _ => exec (execOp env) rest (core.push (.bool (f bs))))
    (hne : bits ≠ []) (core : Core σ) (hcas : core.cas = cas) (rest : List Instr) :
    exec (execOp env) (compileFold toBool bits op ++ rest) core =
      evalFold val bits f >>= fun _ => exec (execOp env) rest core := by
  have hbits := exec_bits env hpush [] 0 Value.bool (fun core b rest => by simp) core hcas
    (List.replicate (bits.length - 1) ⟨op, []⟩ ++ ⟨.assertTrue, []⟩ :: rest)
  simp only [List.append_nil] at hbits
  simp only [compileFold, evalFold, List.append_assoc, List.singleton_append, hbits, bind_assoc]
  refine bind_congr_result fun bs hbs => ?_
  have hlen := length_of_evalBits hbs
  have hbs_ne : bs ≠ [] := by
    rintro rfl
    exact hne (List.length_eq_zero_iff.mp hlen.symm)
  rw [← hlen, hfold bs hbs_ne, exec_assertTrue]

theorem exec_compileCount (hne : bits ≠ []) (threshold : Int64) (core : Core σ)
    (hcas : core.cas = cas) (rest : List Instr) :
    exec (execOp env) (compileCount toBool bits threshold ++ rest) core =
      evalCount val bits threshold >>= fun _ => exec (execOp env) rest core := by
  have hbits := exec_bits env hpush [⟨.boolToI64, []⟩] 1 (fun b => .i64 (indicator b))
    (fun core b rest => exec_cons_ok _ rfl rest) core hcas
  simp only [compileCount, evalCount, List.append_assoc, List.cons_append, List.nil_append, hbits,
    bind_assoc]
  refine bind_congr_result fun bs hbs => ?_
  have hlen := length_of_evalBits hbs
  have hbs_ne : bs ≠ [] := by
    rintro rfl
    exact hne (List.length_eq_zero_iff.mp hlen.symm)
  rw [← hlen, exec_foldAdd env hbs_ne, exec_threshold]

theorem exec_compileConditions (core : Core σ) (hcas : core.cas = cas) (rest : List Instr) :
    exec (execOp env) (bits.flatMap
        (fun bit => compileCondition toBool bit.body.condition bit.body.onFalse) ++ rest) core =
      evalEach val bits >>= fun _ => exec (execOp env) rest core := by
  induction bits with
  | nil => simp [evalEach]
  | cons bit bits ih =>
    have ih' := ih fun b hb => hpush b (List.mem_cons_of_mem _ hb)
    rw [List.flatMap_cons, List.append_assoc, compileCondition, List.append_assoc,
      hpush bit List.mem_cons_self core hcas, List.singleton_append]
    simp only [evalEach, bind_assoc]
    refine bind_congr fun b => ?_
    rw [exec_assertOrDrop]
    exact bind_congr fun _ => ih'

theorem exec_compileBits (composition : CompositionMode) (aggregation : AggregationMode)
    (hne : bits ≠ []) (core : Core σ) (hcas : core.cas = cas) (rest : List Instr) :
    exec (execOp env) (compileBits toBool composition aggregation bits ++ rest) core =
      evalBitsCircuit val composition aggregation bits >>= fun _ =>
        exec (execOp env) rest core := by
  have hand := exec_compileFold env hpush .boolAnd (fun bs => bs.all id)
    (fun bs h => exec_foldAnd env h) hne core hcas rest
  have hor := exec_compileFold env hpush .boolOr (fun bs => bs.any id)
    (fun bs h => exec_foldOr env h) hne core hcas rest
  have heach := exec_compileConditions env hpush core hcas rest
  have hcount (threshold : Int64) := exec_compileCount env hpush hne threshold core hcas rest
  cases composition <;> cases aggregation <;>
    first
      | exact heach
      | exact hor
      | exact hand
      | exact hcount _

end Bits

/-! ### Nodes -/

theorem length_of_evalNodes (cas : σ) {nodes : List ResolvedNode} {bs : List Bool}
    (h : (evalNodes env lib cas nodes).result = .ok bs) : bs.length = nodes.length := by
  induction nodes generalizing bs with
  | nil =>
    rw [evalNodes] at h
    obtain rfl : [] = bs := Except.ok.inj h
    rfl
  | cons node nodes ih =>
    simp only [evalNodes, bind_result, bind_eq_ok] at h
    obtain ⟨b, -, bs', hbs', h⟩ := h
    obtain rfl : b :: bs' = bs := Except.ok.inj h
    rw [List.length_cons, List.length_cons, ih hbs']

theorem length_of_evalNodesOf (cas : σ) {circuits : List ResolvedCircuit} {bs : List Bool}
    (h : (evalNodesOf env lib cas circuits).result = .ok bs) :
    bs.length = countNodes circuits := by
  induction circuits generalizing bs with
  | nil =>
    rw [evalNodesOf] at h
    obtain rfl : [] = bs := Except.ok.inj h
    rfl
  | cons circuit circuits ih =>
    obtain ⟨cid, body, nodes⟩ := circuit
    simp only [evalNodesOf, bind_result, bind_eq_ok] at h
    obtain ⟨bs₁, hbs₁, bs₂, hbs₂, h⟩ := h
    obtain rfl : bs₁ ++ bs₂ = bs := Except.ok.inj h
    rw [countNodes, List.length_append, length_of_evalNodes env lib cas hbs₁, ih hbs₂]

mutual

theorem exec_emitNodeAsBool : ∀ (node : ResolvedNode) (core : Core σ) (rest : List Instr),
    exec (execOp env) (emitNodeAsBool lib node ++ rest) core =
      evalNode env lib core.cas node >>= fun b => exec (execOp env) rest (core.push (.bool b))
  | .bit b, core, rest => by
    rw [emitNodeAsBool, evalNode, exec_compileToBool]
  | .subChip circuits, core, rest => by
    have hinner := exec_emitCircuitsAsBools circuits core
    rw [emitNodeAsBool, evalNode]
    by_cases hzero : countNodes circuits = 0
    · simp only [if_pos hzero, List.append_assoc, hinner, bind_assoc, pure_bind]
      refine bind_congr_result fun bs hbs => ?_
      have hlen := length_of_evalNodesOf env lib core.cas hbs
      obtain rfl : bs = [] := List.length_eq_zero_iff.mp (hlen.trans hzero)
      exact exec_pushBool env core true rest
    · simp only [if_neg hzero, List.append_assoc, hinner, bind_assoc, pure_bind]
      refine bind_congr_result fun bs hbs => ?_
      have hlen := length_of_evalNodesOf env lib core.cas hbs
      have hne : bs ≠ [] := by
        rintro rfl
        exact hzero hlen.symm
      rw [← hlen, exec_foldAnd env hne]

theorem exec_emitNodesAsBools : ∀ (nodes : List ResolvedNode) (core : Core σ) (rest : List Instr),
    exec (execOp env) (emitNodesAsBools lib nodes ++ rest) core =
      evalNodes env lib core.cas nodes >>= fun bs =>
        exec (execOp env) rest (core.pushAll (bs.map .bool))
  | [], core, rest => by
    simp [emitNodesAsBools, evalNodes]
  | node :: nodes, core, rest => by
    simp only [emitNodesAsBools, evalNodes, List.append_assoc, exec_emitNodeAsBool node,
      exec_emitNodesAsBools nodes, bind_assoc, pure_bind, Core.push_cas, List.map_cons,
      Core.pushAll_cons]

theorem exec_emitCircuitsAsBools :
    ∀ (circuits : List ResolvedCircuit) (core : Core σ) (rest : List Instr),
    exec (execOp env) (emitCircuitsAsBools lib circuits ++ rest) core =
      evalNodesOf env lib core.cas circuits >>= fun bs =>
        exec (execOp env) rest (core.pushAll (bs.map .bool))
  | [], core, rest => by
    simp [emitCircuitsAsBools, evalNodesOf]
  | .mk _ _ nodes :: circuits, core, rest => by
    simp only [emitCircuitsAsBools, evalNodesOf, List.append_assoc, exec_emitNodesAsBools nodes,
      exec_emitCircuitsAsBools circuits, bind_assoc, pure_bind, Core.pushAll_cas, List.map_append,
      Core.pushAll_append]

end

/-- The mixed count: two nodes or more end in a type mismatch. -/
theorem exec_countInterleaved {bs : List Bool} (hne : bs ≠ []) (threshold : Int64)
    (core : Core σ) (rest : List Instr) :
    exec (execOp env) (countInterleaved bs.length ++
        (⟨.constI64, i64ToBe threshold⟩ :: ⟨.cmpI64, [5]⟩ :: ⟨.assertTrue, []⟩ :: rest))
        (core.pushAll (bs.map .bool)) =
      evalMixedCount bs threshold >>= fun _ => exec (execOp env) rest core := by
  induction bs using List.reverseRecOn with
  | nil => exact absurd rfl hne
  | append_singleton bs b _ =>
    have hstep (core : Core σ) : execOp env ⟨.boolToI64, []⟩ (core.push (.bool b)) =
        .ok (core.push (.i64 (indicator b))) := rfl
    rw [List.map_append, Core.pushAll_append]
    cases bs with
    | nil =>
      simp only [List.nil_append, List.length_singleton, countInterleaved, List.range_one,
        List.flatMap_cons, List.flatMap_nil, List.map_cons, List.map_nil, Core.pushAll_cons,
        Core.pushAll_nil, evalMixedCount, bind_assoc]
      rw [if_neg (by decide), List.append_nil, List.singleton_append, exec_cons_ok _ (hstep _),
        exec_threshold, spend_bind_spend]
    | cons c bs =>
      -- the first `BoolToI64` works on `b`, the second on what it has left
      have hcode : ∃ code, countInterleaved (c :: bs ++ [b]).length =
          ⟨.boolToI64, []⟩ :: ⟨.boolToI64, []⟩ :: code := by
        refine ⟨⟨.addI64, []⟩ :: (List.range bs.length).flatMap fun i =>
          [⟨.boolToI64, []⟩, ⟨.addI64, []⟩], ?_⟩
        have hlen : (c :: bs ++ [b]).length = bs.length + 1 + 1 := by simp
        rw [countInterleaved, hlen, List.range_succ_eq_map, List.range_succ_eq_map]
        simp [List.flatMap_map]
      obtain ⟨code, hcode⟩ := hcode
      have hmismatch (core : Core σ) : execOp env ⟨.boolToI64, []⟩ (core.push (.i64 (indicator b))) =
          .error (.error (.typeMismatch .boolToI64)) := rfl
      have hmeaning : evalMixedCount (c :: bs ++ [b]) threshold = (do
          spend 1
          charged (.error (.error (.typeMismatch .boolToI64)))) := by
        cases bs <;> rfl
      rw [hcode, hmeaning, List.cons_append, List.cons_append]
      simp only [List.map_cons, List.map_nil, Core.pushAll_cons, Core.pushAll_nil]
      rw [exec_cons_ok _ (hstep _), exec_cons_error _ (hmismatch _), bind_assoc,
        charged_error_bind]

theorem exec_mixed (aggregation : AggregationMode) {nodes : List ResolvedNode} (hne : nodes ≠ [])
    (core : Core σ) (rest : List Instr) :
    exec (execOp env) (emitNodesAsBools lib nodes ++ foldNodes aggregation nodes.length ++ rest)
        core =
      evalMixed env lib core.cas aggregation nodes >>= fun _ => exec (execOp env) rest core := by
  rw [List.append_assoc, exec_emitNodesAsBools, evalMixed, bind_assoc]
  refine bind_congr_result fun bs hbs => ?_
  have hlen := length_of_evalNodes env lib core.cas hbs
  have hbs_ne : bs ≠ [] := by
    rintro rfl
    exact hne (List.length_eq_zero_iff.mp hlen.symm)
  rw [← hlen]
  cases aggregation with
  | all =>
    simp only [foldNodes, List.append_assoc, List.singleton_append, exec_foldAnd env hbs_ne,
      exec_assertTrue, bind_assoc]
  | firstDecisive =>
    simp only [foldNodes, List.append_assoc, List.singleton_append, exec_foldAnd env hbs_ne,
      exec_assertTrue, bind_assoc]
  | any =>
    simp only [foldNodes, List.append_assoc, List.singleton_append, exec_foldOr env hbs_ne,
      exec_assertTrue, bind_assoc]
  | majority =>
    simp only [foldNodes, List.append_assoc, List.cons_append, List.nil_append,
      exec_countInterleaved env hbs_ne]
  | kOfN k n =>
    simp only [foldNodes, List.append_assoc, List.cons_append, List.nil_append,
      exec_countInterleaved env hbs_ne]

/-! ### Circuits and chips -/

/-- What the compiler has accepted in a circuit. -/
theorem compileCircuit_eq_ok {circuit : ResolvedCircuit} {code : List Instr}
    (h : compileCircuit lib circuit = .ok code) :
    ∃ composition aggregation, circuit.body.compositionMode lib = .ok composition ∧
      circuit.body.aggregationMode lib = .ok aggregation ∧
      ((∃ bits, bitsOf circuit.nodes = some bits ∧ bits ≠ [] ∧
          code = compileBits (compileToBool lib) composition aggregation bits) ∨
        (bitsOf circuit.nodes = none ∧ circuit.nodes ≠ [] ∧
          code = emitNodesAsBools lib circuit.nodes ++
            foldNodes aggregation circuit.nodes.length)) := by
  simp only [compileCircuit, bind_eq_ok] at h
  obtain ⟨composition, hc, aggregation, ha, collected, hcollect, h⟩ := h
  refine ⟨composition, aggregation, hc, ha, ?_⟩
  unfold collectBits at hcollect
  cases hbits : bitsOf circuit.nodes with
  | some bits =>
    rw [hbits] at hcollect
    obtain rfl := Except.ok.inj hcollect
    simp only [ite_error_eq_ok, List.isEmpty_iff] at h
    exact .inl ⟨bits, rfl, h.1, (Except.ok.inj h.2).symm⟩
  | none =>
    simp only [hbits, ite_error_eq_ok, List.isEmpty_iff] at hcollect
    obtain ⟨hne, hcollect⟩ := hcollect
    obtain rfl := Except.ok.inj hcollect
    exact .inr ⟨rfl, hne, (Except.ok.inj h).symm⟩

theorem exec_compileCircuit {circuit : ResolvedCircuit} {code : List Instr}
    (h : compileCircuit lib circuit = .ok code) (core : Core σ) (rest : List Instr) :
    exec (execOp env) (code ++ rest) core =
      evalCircuit env lib core.cas circuit >>= fun _ => exec (execOp env) rest core := by
  obtain ⟨composition, aggregation, hc, ha, hcode⟩ := compileCircuit_eq_ok lib h
  unfold evalCircuit
  rw [hc, ha]
  obtain ⟨bits, hbits, hne, rfl⟩ | ⟨hbits, hne, rfl⟩ := hcode
  · rw [hbits]
    exact exec_compileBits env (fun bit _ => pushes_compileToBool env lib core.cas _)
      composition aggregation hne core rfl rest
  · rw [hbits]
    exact exec_mixed env lib aggregation hne core rest

end Exec

end Ubl.Silicon
