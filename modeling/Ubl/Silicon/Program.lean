import Ubl.Silicon.Agreement
import Ubl.Silicon.Meaning

/-!
# Running compiled chips

A `Block` is a piece of code that goes on with the stack it found or ends the run.  Compiled
circuits are blocks, blocks can be put one after the other, and a program made of a block and
the terminator runs to `EmitRc` exactly when its block goes on and the fuel lasts
(`run_block_ok`, `run_block_error`, `run_block_exhausted`).
-/

namespace Ubl.Silicon

open BigEndian Metered ExceptLemmas
open Ubl.Vm
open Ubl.Policy (Decision CompositionMode AggregationMode)

variable {σ : Type}

/-- Code that comes to `m` and then goes on where it was. -/
structure Block (env : VmEnv σ) (cas : σ) (code : List Instr) (m : Metered Fault Unit) : Prop where
  emitFree : EmitFree code
  exec_append : ∀ core : Core σ, core.cas = cas → ∀ rest,
    exec (execOp env) (code ++ rest) core = m >>= fun _ => exec (execOp env) rest core

theorem Block.nil (env : VmEnv σ) (cas : σ) : Block env cas [] (pure ()) :=
  ⟨emitFree_nil, fun _ _ _ => (pure_bind _ _).symm⟩

theorem Block.append {env : VmEnv σ} {cas : σ} {xs ys : List Instr} {m n : Metered Fault Unit}
    (hx : Block env cas xs m) (hy : Block env cas ys n) :
    Block env cas (xs ++ ys) (m >>= fun _ => n) := by
  refine ⟨emitFree_append.mpr ⟨hx.emitFree, hy.emitFree⟩, fun core hcas rest => ?_⟩
  rw [List.append_assoc, hx.exec_append core hcas, bind_assoc]
  exact bind_congr fun _ => hy.exec_append core hcas rest

/-- A block with the two instructions of the terminator charged behind it. -/
def withTerminator (m : Metered Fault Unit) : Metered Fault Unit := do
  m
  spend 2

theorem program_eq (code : List Instr) :
    code ++ terminator = (code ++ [⟨.pushInput, toBE 2 0⟩]) ++ [⟨.emitRc, []⟩] := by
  simp [terminator]

section Run

variable {env : VmEnv σ} {cas : σ} {code : List Instr} {m : Metered Fault Unit}
  (hblock : Block env cas code m) (hinput : env.inputs ≠ [])

include hblock hinput

/-- The program up to its `EmitRc`. -/
theorem exec_before_emitRc : ∃ core : Core σ,
    exec (execOp env) (code ++ [⟨.pushInput, toBE 2 0⟩]) (initial cas) =
      m >>= fun _ => spend 1 >>= fun _ => pure core := by
  obtain ⟨cid, inputs, hinputs⟩ := List.exists_cons_of_ne_nil hinput
  refine ⟨(initial cas).push (.cid cid), ?_⟩
  have hpush : execOp env ⟨.pushInput, toBE 2 0⟩ (initial cas) =
      .ok ((initial cas).push (.cid cid)) := by
    have hzero : ofBE (toBE 2 0) = 0 := by decide
    simp only [execOp, length_toBE, hzero, hinputs]
    rfl
  rw [hblock.exec_append _ rfl, exec_cons_ok _ hpush]
  rfl

omit hinput in
theorem emitFree_before_emitRc : EmitFree (code ++ [⟨.pushInput, toBE 2 0⟩]) := by
  simp [hblock.emitFree]

theorem run_block_error (cfg : VmConfig) {e : Fault} (h : m.result = .error e)
    (hfuel : fuelFor (withTerminator m).cost ≤ cfg.fuelLimit.toNat) :
    run env cfg cas (code ++ terminator) = .error e := by
  obtain ⟨core, hexec⟩ := exec_before_emitRc hblock hinput
  have herror : exec (execOp env) (code ++ [⟨.pushInput, toBE 2 0⟩]) (initial cas) =
      ⟨.error e, m.cost⟩ := by
    rw [hexec, bind_eq_of_error h]
  have hcost : (withTerminator m).cost = m.cost := by
    rw [withTerminator, bind_eq_of_error h]
  rw [program_eq]
  refine run_error env cfg cas (emitFree_before_emitRc hblock) _ ?_ ?_
  · rw [herror]
  · rw [herror, ← hcost]
    exact hfuel

/-- The cost of a block that goes on, with and without the terminator. -/
theorem cost_before_emitRc (h : m.result = .ok ()) :
    (withTerminator m).cost =
        (exec (execOp env) (code ++ [⟨.pushInput, toBE 2 0⟩]) (initial cas)).cost + 1 ∧
      ∃ core, (exec (execOp env) (code ++ [⟨.pushInput, toBE 2 0⟩]) (initial cas)).result =
        .ok core := by
  obtain ⟨core, hexec⟩ := exec_before_emitRc hblock hinput
  rw [hexec, withTerminator, bind_eq_of_result h, bind_eq_of_result h]
  exact ⟨rfl, core, rfl⟩

theorem run_block_ok (hsign : ∀ b, env.signJws b ≠ []) (cfg : VmConfig) (h : m.result = .ok ())
    (hfuel : fuelFor (withTerminator m).cost ≤ cfg.fuelLimit.toNat) :
    Emits (run env cfg cas (code ++ terminator)) := by
  obtain ⟨hcost, core, hok⟩ := cost_before_emitRc hblock hinput h
  rw [program_eq]
  rw [hcost] at hfuel
  exact (run_emitRc env cfg cas (emitFree_before_emitRc hblock) hsign hok [] []).1 hfuel

theorem run_block_exhausted (hsign : ∀ b, env.signJws b ≠ []) (cfg : VmConfig)
    (hfuel : ¬ fuelFor (withTerminator m).cost ≤ cfg.fuelLimit.toNat) :
    run env cfg cas (code ++ terminator) = .error (.error .fuelExhausted) := by
  rw [program_eq]
  cases h : m.result with
  | ok u =>
    obtain ⟨hcost, core, hok⟩ := cost_before_emitRc hblock hinput h
    rw [hcost] at hfuel
    exact (run_emitRc env cfg cas (emitFree_before_emitRc hblock) hsign hok [] []).2 hfuel
  | error e =>
    obtain ⟨core, hexec⟩ := exec_before_emitRc hblock hinput
    refine run_exhausted env cfg cas (emitFree_before_emitRc hblock) _ ?_
    rw [hexec, bind_eq_of_error h]
    rwa [withTerminator, bind_eq_of_error h] at hfuel

/-- One unit of fuel for every instruction is enough. -/
theorem enoughFuel_block {cfg : VmConfig} (hfuel : EnoughFuel cfg (code ++ terminator)) :
    fuelFor (withTerminator m).cost ≤ cfg.fuelLimit.toNat := by
  refine (fuelFor_mono ?_).trans hfuel
  have hlen := exec_cost_le (execOp env) (code ++ [⟨.pushInput, toBE 2 0⟩]) (initial cas)
  have hcode : (code ++ terminator).length = code.length + 2 := by simp [terminator]
  rw [List.length_append, List.length_singleton] at hlen
  rw [hcode]
  cases h : m.result with
  | ok u =>
    obtain ⟨hcost, -⟩ := cost_before_emitRc hblock hinput h
    omega
  | error e =>
    obtain ⟨core, hexec⟩ := exec_before_emitRc hblock hinput
    rw [hexec, bind_eq_of_error h] at hlen
    rw [withTerminator, bind_eq_of_error h]
    exact hlen.trans (by omega)

/-- With enough fuel the program comes to `EmitRc` exactly when its block goes on. -/
theorem emits_block_iff (hsign : ∀ b, env.signJws b ≠ []) {cfg : VmConfig}
    (hfuel : EnoughFuel cfg (code ++ terminator)) :
    Emits (run env cfg cas (code ++ terminator)) ↔ m.result = .ok () := by
  have hcost := enoughFuel_block hblock hinput hfuel
  refine ⟨fun hemit => ?_, fun h => run_block_ok hblock hinput hsign cfg h hcost⟩
  cases h : m.result with
  | ok u => rfl
  | error e =>
    obtain ⟨out, vm, hrun, -⟩ := hemit
    rw [run_block_error hblock hinput cfg h hcost] at hrun
    cases hrun

end Run

/-! ## Compiled circuits are blocks -/

namespace Composable

variable {P : List Instr → Prop} (hP : Composable P)

include hP

theorem threshold (t : Int64) (op : UInt8) :
    P [⟨.constI64, i64ToBe t⟩, ⟨.cmpI64, [op]⟩, ⟨.assertTrue, []⟩] := by
  refine hP.ofPlain fun ins hins => ?_
  simp only [List.mem_cons, List.not_mem_nil, or_false] at hins
  rcases hins with rfl | rfl | rfl <;> exact plain_of_payload (by simp) (by decide) (by decide)

theorem compileBits {toBool : ConditionSpec → List Instr} {bits : List ResolvedBit}
    (h : ∀ bit ∈ bits, P (toBool bit.body.condition)) (composition : CompositionMode)
    (aggregation : AggregationMode) : P (compileBits toBool composition aggregation bits) := by
  have hassert : P [⟨.assertTrue, []⟩] := hP.single (by simp) (by decide) (by decide)
  have heach : P (bits.flatMap
      fun bit => compileCondition toBool bit.body.condition bit.body.onFalse) := by
    refine hP.flatMap fun bit hbit => hP.append (h bit hbit) ?_
    split_ifs
    · exact hassert
    · exact hP.single (by simp) (by decide) (by decide)
  have hfold (op : Opcode) (hput : op ≠ .casPut) (hemit : op ≠ .emitRc) :
      P (compileFold toBool bits op) :=
    hP.append (hP.append (hP.flatMap h) (hP.row _ hput hemit)) hassert
  have hcount (t : Int64) : P (compileCount toBool bits t) := by
    have hbits : P (bits.flatMap fun bit => toBool bit.body.condition ++ [⟨.boolToI64, []⟩]) :=
      hP.flatMap fun bit hbit =>
        hP.append (h bit hbit) (hP.single (by simp) (by decide) (by decide))
    exact hP.append (hP.append hbits (hP.row _ (by decide) (by decide))) (hP.threshold t 5)
  cases composition <;> cases aggregation <;>
    first
      | exact heach
      | exact hfold _ (by decide) (by decide)
      | exact hcount _

variable (lib : TextLib)

mutual

theorem emitNodeAsBool : ∀ node : ResolvedNode, P (emitNodeAsBool lib node)
  | .bit b => by
    rw [Silicon.emitNodeAsBool]
    exact hP.compileToBool lib _
  | .subChip circuits => by
    have hinner := emitCircuitsAsBools circuits
    rw [Silicon.emitNodeAsBool]
    split_ifs
    · exact hP.append hinner (hP.single (by simp) (by decide) (by decide))
    · exact hP.append hinner (hP.row _ (by decide) (by decide))

theorem emitNodesAsBools : ∀ nodes : List ResolvedNode, P (emitNodesAsBools lib nodes)
  | [] => hP.nil
  | node :: nodes => by
    rw [Silicon.emitNodesAsBools]
    exact hP.append (emitNodeAsBool node) (emitNodesAsBools nodes)

theorem emitCircuitsAsBools : ∀ circuits : List ResolvedCircuit,
    P (emitCircuitsAsBools lib circuits)
  | [] => hP.nil
  | .mk _ _ nodes :: circuits => by
    rw [Silicon.emitCircuitsAsBools]
    exact hP.append (emitNodesAsBools nodes) (emitCircuitsAsBools circuits)

end

omit lib in
theorem foldNodes (aggregation : AggregationMode) (n : Nat) : P (foldNodes aggregation n) := by
  have hassert : P [⟨.assertTrue, []⟩] := hP.single (by simp) (by decide) (by decide)
  have hinterleaved : P (countInterleaved n) := by
    refine hP.flatMap fun i _ => hP.ofPlain fun ins hins => ?_
    split_ifs at hins <;> simp only [List.mem_cons, List.not_mem_nil, or_false] at hins
    · rcases hins with rfl | rfl <;> exact plain_of_payload (by simp) (by decide) (by decide)
    · obtain rfl := hins
      exact plain_of_payload (by simp) (by decide) (by decide)
  cases aggregation with
  | all => exact hP.append (hP.row _ (by decide) (by decide)) hassert
  | any => exact hP.append (hP.row _ (by decide) (by decide)) hassert
  | firstDecisive => exact hP.append (hP.row _ (by decide) (by decide)) hassert
  | majority => exact hP.append hinterleaved (hP.threshold _ 5)
  | kOfN k m => exact hP.append hinterleaved (hP.threshold _ 5)

theorem compileCircuit {circuit : ResolvedCircuit} {code : List Instr}
    (h : compileCircuit lib circuit = .ok code) : P code := by
  obtain ⟨composition, aggregation, -, -, hcode⟩ := compileCircuit_eq_ok lib h
  obtain ⟨bits, -, -, rfl⟩ | ⟨-, -, rfl⟩ := hcode
  · exact hP.compileBits (fun bit _ => hP.compileToBool lib _) composition aggregation
  · exact hP.append (hP.emitNodesAsBools lib _) (hP.foldNodes _ _)

theorem compileCircuitsInner {circuits : List ResolvedCircuit} {code : List Instr}
    (h : compileCircuitsInner lib circuits = .ok code) : P code := by
  induction circuits generalizing code with
  | nil =>
    obtain rfl : [] = code := Except.ok.inj h
    exact hP.nil
  | cons circuit circuits ih =>
    simp only [Silicon.compileCircuitsInner, bind_eq_ok] at h
    obtain ⟨code₁, h₁, code₂, h₂, h⟩ := h
    obtain rfl : code₁ ++ code₂ = code := Except.ok.inj h
    exact hP.append (hP.compileCircuit lib h₁) (ih h₂)

end Composable

section Compiled

variable (env : VmEnv σ) (lib : TextLib)

theorem block_compileCircuit {circuit : ResolvedCircuit} {code : List Instr}
    (h : compileCircuit lib circuit = .ok code) (cas : σ) :
    Block env cas code (evalCircuit env lib cas circuit) := by
  refine ⟨Composable.emitFree.compileCircuit lib h, ?_⟩
  rintro core rfl rest
  exact exec_compileCircuit env lib h core rest

theorem block_compileCircuitsInner {circuits : List ResolvedCircuit} {code : List Instr}
    (h : compileCircuitsInner lib circuits = .ok code) (cas : σ) :
    Block env cas code (evalCircuits env lib cas circuits) := by
  induction circuits generalizing code with
  | nil =>
    obtain rfl : [] = code := Except.ok.inj h
    exact Block.nil env cas
  | cons circuit circuits ih =>
    simp only [compileCircuitsInner, bind_eq_ok] at h
    obtain ⟨code₁, h₁, code₂, h₂, h⟩ := h
    obtain rfl : code₁ ++ code₂ = code := Except.ok.inj h
    exact (block_compileCircuit env lib h₁ cas).append (ih h₂)

end Compiled

end Ubl.Silicon
