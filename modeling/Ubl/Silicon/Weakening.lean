import Ubl.Policy.Decisions
import Ubl.Silicon.Runtime

/-!
# Circuits that the compiler lets through

The interpreter works on decisions: it stops at the first denial or aggregates what the bits
decide (`Denied`).  The compiler works on the truth of the conditions and looks at `on_false`
in some modes only (`Passes`).  A compiled circuit runs to `EmitRc` although the interpreter
denies exactly where both hold (`compile_weakens_iff`).
-/

namespace Ubl.Silicon

open Metered ExceptLemmas
open Ubl.Vm
open Ubl.Nrf (Text)
open Ubl.Policy (Decision CompositionMode AggregationMode Expression EvalContext Circuit decisions
  aggregateDecision sequentialDecision evaluate_decision)

variable {σ : Type}

/-! ## When the interpreter denies -/

/-- A row of decisions whose aggregate is a denial. -/
def deniedBy (aggregation : AggregationMode) (ds : List Decision) : Prop :=
  match aggregation with
  | .all => .deny ∈ ds
  | .any => .allow ∉ ds
  | .majority => ds.count .allow ≤ ds.length / 2
  | .kOfN k _ => ds.count .allow < k.toNat
  | .firstDecisive => ds.find? (· ≠ .require) = some .deny

/-- A sequential circuit denies at its first denial, before it aggregates. -/
def Denied (composition : CompositionMode) (aggregation : AggregationMode)
    (ds : List Decision) : Prop :=
  match composition with
  | .sequential => .deny ∈ ds ∨ deniedBy aggregation ds
  | _ => deniedBy aggregation ds

theorem aggregateDecision_deny_iff (aggregation : AggregationMode) {ds : List Decision}
    (hne : ds ≠ []) : aggregateDecision aggregation ds = .deny ↔ deniedBy aggregation ds := by
  unfold aggregateDecision deniedBy
  rw [if_neg hne]
  cases aggregation with
  | all => dsimp only; split_ifs <;> simp_all
  | any => dsimp only; split_ifs <;> simp_all
  | majority => dsimp only; split_ifs <;> simp_all
  | kOfN k n => dsimp only; split_ifs <;> simp_all
  | firstDecisive =>
    dsimp only
    cases ds.find? (· ≠ .require) <;> simp

section Interpreter

variable (expr : ConditionSpec → Expression) (ctx : EvalContext)

/-- The decision of a bit: `on_true` or `on_false`, by its condition. -/
def decisionOf (bit : ResolvedBit) : Decision :=
  if (expr bit.body.condition).evaluate ctx then bit.body.onTrue else bit.body.onFalse

theorem evaluate_deny_iff (body : SiliconCircuitBody) {composition : CompositionMode}
    (hcomp : composition = .sequential ∨ composition = .parallel) (aggregation : AggregationMode)
    {bits : List ResolvedBit} (hne : bits ≠ []) :
    ((runtimeCircuit expr body composition aggregation bits).evaluate ctx).decision = .deny ↔
      Denied composition aggregation (bits.map (decisionOf expr ctx)) := by
  have hds : bits.map (decisionOf expr ctx) ≠ [] := mt List.map_eq_nil_iff.mp hne
  have hdecisions : decisions ctx (bits.map (runtimeBit expr)) =
      bits.map (decisionOf expr ctx) := List.map_map
  rcases hcomp with rfl | rfl
  · rw [evaluate_decision, runtimeCircuit, Circuit.fullDecision, hdecisions, sequentialDecision,
      Denied, ← aggregateDecision_deny_iff aggregation hds]
    split_ifs with hdeny <;> simp [hdeny]
  · rw [evaluate_decision, runtimeCircuit, Circuit.fullDecision, hdecisions]
    exact aggregateDecision_deny_iff aggregation hds

end Interpreter

/-! ## When the compiled circuit goes on -/

section Passes

variable (readable : ConditionSpec → Prop) (value : ConditionSpec → Bool)

/-- The compiled circuit goes on: every condition can be read, and the values are what the mode
asks for.  A `k` from 2^63 on is a negative threshold. -/
def Passes (composition : CompositionMode) (aggregation : AggregationMode)
    (bits : List ResolvedBit) : Prop :=
  (∀ bit ∈ bits, readable bit.body.condition) ∧
    match composition, aggregation with
    | .sequential, .all | .sequential, .firstDecisive =>
      ∀ bit ∈ bits, bit.body.onFalse = .deny → value bit.body.condition
    | _, .any => ∃ bit ∈ bits, value bit.body.condition
    | _, .majority => bits.length / 2 < bits.countP fun bit => value bit.body.condition
    | _, .kOfN k _ =>
      k.toNat < 2 ^ 63 → k.toNat ≤ bits.countP fun bit => value bit.body.condition
    | .parallel, .all | .parallel, .firstDecisive => ∀ bit ∈ bits, value bit.body.condition
    | .conditional _, .all | .conditional _, .firstDecisive =>
      ∀ bit ∈ bits, bit.body.onFalse = .deny → value bit.body.condition

end Passes

theorem assertTrue_eq_ok {b : Bool} : (assertTrue b).result = .ok () ↔ b = true := by
  cases b with
  | true => exact ⟨fun _ => rfl, fun _ => rfl⟩
  | false => exact ⟨fun h => (by cases h), fun h => (by cases h)⟩

/-- A sum of bits is never negative. -/
theorem negative_le_total {bs : List Bool} (h : bs.length < 2 ^ 63) {k : UInt64}
    (hk : ¬ k.toNat < 2 ^ 63) : k.toInt64 ≤ total bs := by
  have hcount := List.count_le_length (a := true) (l := bs)
  have hneg : k.toInt64.toInt < 0 := by
    have hlt := k.toNat_lt
    have hk64 : k.toInt64.toInt = k.toBitVec.toInt := rfl
    rw [hk64, BitVec.toInt_eq_toNat_cond]
    have hbv : k.toBitVec.toNat = k.toNat := rfl
    rw [hbv]
    split_ifs with h2
    · omega
    · omega
  rw [Int64.le_iff_toInt_le, total_eq_count bs h, Int64.toInt_ofNat_of_lt (by omega)]
  omega

section Outcome

variable {val : ConditionSpec → Metered Fault Bool} {readable : ConditionSpec → Prop}
  {value : ConditionSpec → Bool}
  (hval : ∀ c b, (val c).result = .ok b ↔ readable c ∧ b = value c)

include hval

theorem evalBits_eq_ok (extra : Nat) (bits : List ResolvedBit) (bs : List Bool) :
    (evalBits val extra bits).result = .ok bs ↔
      (∀ bit ∈ bits, readable bit.body.condition) ∧
        bs = bits.map fun bit => value bit.body.condition := by
  induction bits generalizing bs with
  | nil =>
    simp only [evalBits, List.not_mem_nil, false_implies, implies_true, true_and, List.map_nil]
    exact ⟨fun h => (Except.ok.inj h).symm, fun h => h ▸ rfl⟩
  | cons bit bits ih =>
    simp only [evalBits, bind_result, bind_eq_ok, hval, ih, List.forall_mem_cons, List.map_cons]
    constructor
    · rintro ⟨b, ⟨hb, rfl⟩, -, -, bs', ⟨hbs, rfl⟩, h⟩
      exact ⟨⟨hb, hbs⟩, (Except.ok.inj h).symm⟩
    · rintro ⟨⟨hb, hbs⟩, rfl⟩
      exact ⟨_, ⟨hb, rfl⟩, (), rfl, _, ⟨hbs, rfl⟩, rfl⟩

theorem evalFold_eq_ok (bits : List ResolvedBit) (f : List Bool → Bool) :
    (evalFold val bits f).result = .ok () ↔
      (∀ bit ∈ bits, readable bit.body.condition) ∧
        f (bits.map fun bit => value bit.body.condition) = true := by
  simp only [evalFold, bind_result, bind_eq_ok, evalBits_eq_ok hval, assertTrue_eq_ok]
  constructor
  · rintro ⟨bs, ⟨hread, rfl⟩, -, -, hf⟩
    exact ⟨hread, hf⟩
  · rintro ⟨hread, hf⟩
    exact ⟨_, ⟨hread, rfl⟩, (), rfl, hf⟩

theorem evalCount_eq_ok (bits : List ResolvedBit) (threshold : Int64) :
    (evalCount val bits threshold).result = .ok () ↔
      (∀ bit ∈ bits, readable bit.body.condition) ∧
        threshold ≤ total (bits.map fun bit => value bit.body.condition) := by
  simp only [evalCount, bind_result, bind_eq_ok, evalBits_eq_ok hval, assertTrue_eq_ok,
    decide_eq_true_iff]
  constructor
  · rintro ⟨bs, ⟨hread, rfl⟩, -, -, -, -, hle⟩
    exact ⟨hread, hle⟩
  · rintro ⟨hread, hle⟩
    exact ⟨_, ⟨hread, rfl⟩, (), rfl, (), rfl, hle⟩

theorem evalEach_eq_ok (bits : List ResolvedBit) :
    (evalEach val bits).result = .ok () ↔
      (∀ bit ∈ bits, readable bit.body.condition) ∧
        ∀ bit ∈ bits, bit.body.onFalse = .deny → value bit.body.condition = true := by
  induction bits with
  | nil =>
    simp only [List.not_mem_nil, false_implies, implies_true, and_self, iff_true]
    rfl
  | cons bit bits ih =>
    have hassert (b : Bool) : (assertOrDrop bit.body.onFalse b).result = .ok () ↔
        (bit.body.onFalse = .deny → b = true) := by
      unfold assertOrDrop
      split_ifs with hdeny
      · simp [assertTrue_eq_ok, hdeny]
      · simp only [hdeny, false_implies, iff_true]
        rfl
    simp only [evalEach, bind_result, bind_eq_ok, hval, ih, List.forall_mem_cons]
    constructor
    · rintro ⟨b, ⟨hb, rfl⟩, ⟨⟩, hok, hread, hrest⟩
      exact ⟨⟨hb, hread⟩, (hassert _).mp hok, hrest⟩
    · rintro ⟨⟨hb, hread⟩, hfirst, hrest⟩
      exact ⟨_, ⟨hb, rfl⟩, (), (hassert _).mpr hfirst, hread, hrest⟩

/-- The outcome of a compiled circuit of bits. -/
theorem evalBitsCircuit_eq_ok (composition : CompositionMode) (aggregation : AggregationMode)
    {bits : List ResolvedBit} (hlen : bits.length < 2 ^ 63) :
    (evalBitsCircuit val composition aggregation bits).result = .ok () ↔
      Passes readable value composition aggregation bits := by
  set bs := bits.map fun bit => value bit.body.condition with hbs
  have hlen' : bs.length = bits.length := by simp [hbs]
  have hcount : bs.count true = bits.countP fun bit => value bit.body.condition := by
    rw [hbs, List.count_eq_countP, List.countP_map]
    congr 1
    funext bit
    exact beq_true _
  have heach := evalEach_eq_ok hval bits
  have hany : (evalFold val bits fun bs => bs.any id).result = .ok () ↔
      (∀ bit ∈ bits, readable bit.body.condition) ∧ ∃ bit ∈ bits, value bit.body.condition := by
    rw [evalFold_eq_ok hval]
    simp
  have hall : (evalFold val bits fun bs => bs.all id).result = .ok () ↔
      (∀ bit ∈ bits, readable bit.body.condition) ∧ ∀ bit ∈ bits, value bit.body.condition := by
    rw [evalFold_eq_ok hval]
    simp
  have hmajority : (evalCount val bits (Int64.ofNat (bits.length / 2) + 1)).result = .ok () ↔
      (∀ bit ∈ bits, readable bit.body.condition) ∧
        bits.length / 2 < bits.countP fun bit => value bit.body.condition := by
    rw [evalCount_eq_ok hval, ← hcount, ← hlen', majority_threshold_le_total (hlen' ▸ hlen)]
  have hkofn (k : UInt64) : (evalCount val bits k.toInt64).result = .ok () ↔
      (∀ bit ∈ bits, readable bit.body.condition) ∧
        (k.toNat < 2 ^ 63 → k.toNat ≤ bits.countP fun bit => value bit.body.condition) := by
    rw [evalCount_eq_ok hval, ← hcount]
    refine and_congr_right fun _ => ?_
    by_cases hk : k.toNat < 2 ^ 63
    · rw [k_threshold_le_total (hlen' ▸ hlen) hk]
      exact ⟨fun h _ => h, fun h => h hk⟩
    · exact ⟨fun _ h => absurd h hk, fun _ => negative_le_total (hlen' ▸ hlen) hk⟩
  cases composition <;> cases aggregation <;>
    first
      | exact heach
      | exact hany
      | exact hall
      | exact hmajority
      | exact hkofn _

end Outcome

/-! ## Where the two part -/

theorem compositionMode_cases {lib : TextLib} {body : SiliconCircuitBody}
    {composition : CompositionMode} (h : body.compositionMode lib = .ok composition) :
    composition = .sequential ∨ composition = .parallel := by
  unfold SiliconCircuitBody.compositionMode at h
  simp only at h
  split_ifs at h
  · exact .inl (Except.ok.inj h).symm
  · exact .inr (Except.ok.inj h).symm

/-- A block that ends the run keeps its program from `EmitRc`, whatever the fuel. -/
theorem not_emits_of_error {env : VmEnv σ} {cas : σ} {code : List Instr} {m : Metered Fault Unit}
    (hblock : Block env cas code m) (hinput : env.inputs ≠ []) (hsign : ∀ b, env.signJws b ≠ [])
    {e : Fault} (h : m.result = .error e) (cfg : VmConfig) :
    ¬ Emits (run env cfg cas (code ++ terminator)) := by
  rintro ⟨out, vm, hrun, -⟩
  by_cases hfuel : fuelFor (withTerminator m).cost ≤ cfg.fuelLimit.toNat
  · rw [run_block_error hblock hinput cfg h hfuel] at hrun
    cases hrun
  · rw [run_block_exhausted hblock hinput hsign cfg hfuel] at hrun
    cases hrun

/-- The program of one circuit of bits, decoded. -/
theorem decodes_single {lib : TextLib} {circuit : ResolvedCircuit} {bits : List ResolvedBit}
    (hbits : bitsOf circuit.nodes = some bits)
    (hshort : ∀ bit ∈ bits, ∀ ins ∈ compileToBool lib bit.body.condition, ins.Short)
    {bytes : List UInt8} (hbytes : compileChipToUblVm lib [circuit] = .ok bytes) :
    ∃ code, compileCircuit lib circuit = .ok code ∧ bits ≠ [] ∧
      decodeStream bytes = .ok (code ++ terminator) := by
  simp only [compileChipToUblVm, compileCircuitsInner, bind_eq_ok] at hbytes
  obtain ⟨code, ⟨code₁, h₁, code₂, h₂, hcode⟩, hbytes⟩ := hbytes
  obtain rfl := Except.ok.inj h₂
  rw [List.append_nil] at hcode
  obtain rfl := Except.ok.inj hcode
  obtain rfl := Except.ok.inj hbytes
  obtain ⟨composition, aggregation, -, -, hcode⟩ := compileCircuit_eq_ok lib h₁
  obtain ⟨bits', hbits', hne, rfl⟩ | ⟨hnone, -, -⟩ := hcode
  · obtain rfl : bits = bits' := Option.some.inj (hbits.symm.trans hbits')
    refine ⟨_, h₁, hne, Decodes.append ?_ (Decodes.of_short (by simp [terminator, Instr.Short]))⟩
    exact compileBits_decodes (fun bit hbit => Decodes.of_short (hshort bit hbit)) _ _
  · rw [hbits] at hnone
    cases hnone

/-- A circuit of bits that the interpreter denies runs to `EmitRc` when compiled exactly when the
VM's reading of its conditions passes in the circuit's mode. -/
theorem emits_single_iff (t : Text) (lib : TextLib) (env : VmEnv σ) (cas : σ)
    {body : Json} (htext : HoldsText t env cas body) (hsign : ∀ b, env.signJws b ≠ [])
    {circuit : ResolvedCircuit} (composition : CompositionMode) (aggregation : AggregationMode)
    {bits : List ResolvedBit} (hc : circuit.body.compositionMode lib = .ok composition)
    (ha : circuit.body.aggregationMode lib = .ok aggregation)
    (hbits : bitsOf circuit.nodes = some bits) (hlen : bits.length < 2 ^ 63)
    {code : List Instr} (hcode : compileCircuit lib circuit = .ok code) :
    (∃ cfg, Emits (run env cfg cas (code ++ terminator))) ↔
      Passes (Readable (some (rho t body)))
        (vmValue lib (some (rho t body)) env.bodySize env.now) composition aggregation bits := by
  have hinput : env.inputs ≠ [] := by
    obtain ⟨cid, -, hcid, -⟩ := htext.input
    intro h
    rw [h] at hcid
    cases hcid
  have hblock := block_compileCircuit env lib hcode cas
  have hmeaning : evalCircuit env lib cas circuit =
      evalBitsCircuit (evalCond env lib cas) composition aggregation bits := by
    unfold evalCircuit
    rw [hc, ha, hbits]
  have hval (c : ConditionSpec) (b : Bool) : (evalCond env lib cas c).result = .ok b ↔
      Readable (some (rho t body)) c ∧
        b = vmValue lib (some (rho t body)) env.bodySize env.now c := by
    rw [← htext.bodyView]
    exact evalCond_result env lib cas c b
  rw [← evalBitsCircuit_eq_ok hval composition aggregation hlen, ← hmeaning]
  constructor
  · rintro ⟨cfg, hemit⟩
    cases h : (evalCircuit env lib cas circuit).result with
    | ok u => rfl
    | error e => exact absurd hemit (not_emits_of_error hblock hinput hsign h cfg)
  · intro h
    exact ⟨_, (emits_block_iff hblock hinput hsign (enoughFuel_max false false _)).mpr h⟩

/-- Compilation does not weaken a circuit of bits on a body exactly when the interpreter does not
deny it or the VM's reading of its conditions does not pass. -/
theorem compile_weakens_iff (t : Text) (lib : TextLib) (env : VmEnv σ) (cas : σ)
    (members : List (String × Json)) (htext : HoldsText t env cas (.object members))
    (hsign : ∀ b, env.signJws b ≠ []) (circuit : ResolvedCircuit)
    (composition : CompositionMode) (aggregation : AggregationMode) (bits : List ResolvedBit)
    (hc : circuit.body.compositionMode lib = .ok composition)
    (ha : circuit.body.aggregationMode lib = .ok aggregation)
    (hbits : bitsOf circuit.nodes = some bits) (hlen : bits.length < 2 ^ 63)
    (hshort : ∀ bit ∈ bits, ∀ ins ∈ compileToBool lib bit.body.condition, ins.Short)
    (bytes : List UInt8) (hbytes : compileChipToUblVm lib [circuit] = .ok bytes) :
    (((runtimeCircuit ConditionSpec.toExpression circuit.body composition aggregation bits).evaluate
          (contextOf members env.bodySize)).decision = .deny →
        ∀ code, decodeStream bytes = .ok code → ∀ cfg, ¬ Emits (run env cfg cas code)) ↔
      ¬ (Denied composition aggregation
            (bits.map (decisionOf ConditionSpec.toExpression (contextOf members env.bodySize))) ∧
          Passes (Readable (some (rho t (.object members))))
            (vmValue lib (some (rho t (.object members))) env.bodySize env.now)
            composition aggregation bits) := by
  obtain ⟨code, hcode, hne, hdecode⟩ := decodes_single hbits hshort hbytes
  rw [evaluate_deny_iff ConditionSpec.toExpression (contextOf members env.bodySize) circuit.body
      (compositionMode_cases hc) aggregation hne,
    ← emits_single_iff t lib env cas htext hsign composition aggregation hc ha hbits hlen hcode, hdecode]
  constructor
  · rintro h ⟨hdenied, cfg, hemit⟩
    exact h hdenied _ rfl cfg hemit
  · intro h hdenied code' hcode' cfg hemit
    obtain rfl := Except.ok.inj hcode'
    exact h ⟨hdenied, cfg, hemit⟩

/-- One bit that asks for a token. -/
def tokenCircuit : ResolvedCircuit :=
  sampleCircuit "sequential" "all" [(.contextHas "token", .allow, .deny)]

theorem compile_weakens_iff_token : ∃ bytes, compileChipToUblVm plainLib [tokenCircuit] = .ok bytes ∧
    (((runtimeCircuit ConditionSpec.toExpression tokenCircuit.body .sequential .all
          [⟨"b3:11", ⟨"B", "B", .contextHas "token", .allow, .deny, []⟩⟩]).evaluate
        (contextOf [] 2)).decision = .deny →
      ∀ code, decodeStream bytes = .ok code → ∀ cfg,
        ¬ Emits (run (textEnv Nrf.asciiText "\x7b\x7d" (.object []) 2) cfg () code)) := by
  refine ⟨_, rfl, (compile_weakens_iff Nrf.asciiText plainLib
    (textEnv Nrf.asciiText "\x7b\x7d" (.object []) 2) () [] (holdsText_textEnv _ _ _ _) ?_
    tokenCircuit .sequential .all _ rfl rfl rfl ?_ ?_ _ rfl).mpr ?_⟩
  · simp [textEnv]
  · simp
  · intro bit hbit
    obtain rfl := List.mem_singleton.mp hbit
    simp [compileToBool, loadBody, Instr.Short]
    decide
  · rintro ⟨-, -, hvalue⟩
    have htoken := hvalue _ List.mem_cons_self rfl
    cases htoken

/-- One bit that denies on true. -/
def denyOnTrue : ResolvedCircuit :=
  sampleCircuit "sequential" "all" [(.always true, .deny, .allow)]

/-- The interpreter denies on the bit that is true, the compiled program drops its Boolean. -/
theorem compile_weakens_denyOnTrue :
    ∃ bytes code, compileChipToUblVm plainLib [denyOnTrue] = .ok bytes ∧
      decodeStream bytes = .ok code ∧
      HoldsText Nrf.asciiText (textEnv Nrf.asciiText "\x7b\x7d" (.object []) 2) () (.object []) ∧
      ((runtimeCircuit ConditionSpec.toExpression denyOnTrue.body .sequential .all
          [⟨"b3:11", ⟨"B", "B", .always true, .deny, .allow, []⟩⟩]).evaluate
        (contextOf [] 2)).decision = .deny ∧
      ∃ cfg, Emits (run (textEnv Nrf.asciiText "\x7b\x7d" (.object []) 2) cfg () code) := by
  have htext := holdsText_textEnv Nrf.asciiText "\x7b\x7d" (.object []) 2
  have hbits : bitsOf denyOnTrue.nodes =
      some [⟨"b3:11", ⟨"B", "B", .always true, .deny, .allow, []⟩⟩] := rfl
  have hbytes : compileChipToUblVm plainLib [denyOnTrue] = .ok
      (encode ([⟨.pushBool, [1]⟩, ⟨.drop, []⟩] ++ terminator)) := rfl
  obtain ⟨code, hcode, -, hdecode⟩ := decodes_single hbits (by simp [compileToBool, Instr.Short])
    hbytes
  refine ⟨_, _, hbytes, hdecode, htext, by decide, ?_⟩
  refine (emits_single_iff Nrf.asciiText plainLib _ () htext (by simp [textEnv])
    .sequential .all rfl rfl hbits (by simp) hcode).mpr ?_
  simp [Passes, Readable]

end Ubl.Silicon
