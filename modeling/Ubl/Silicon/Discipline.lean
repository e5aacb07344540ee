import Ubl.Silicon.Framing

/-!
# The stack discipline of compiled conditions

Every circuit is folded as if each of its conditions left one Boolean and nothing else.  So they
do: on any stack the code of a condition ends with that stack and one Boolean on top
(`compileToBool_discipline`), or in a denial, a type mismatch or without fuel.  It never pops
what it has not pushed.  A machine without inputs is the one other case: there `PushInput` has
an invalid payload.
-/

namespace Ubl.Silicon

open BigEndian Utf8 Metered ExceptLemmas
open Ubl.Vm

variable {σ : Type}

/-- `Vm::run` on a machine that has something on its stack already. -/
def runOn (env : VmEnv σ) (cfg : VmConfig) (core : Core σ) (code : List Instr) :
    Except Fault (VmOutcome × Machine σ) :=
  runFrom env cfg code ⟨core, 0, 0, []⟩

/-- The faults of compiled conditions. -/
def Disciplined (env : VmEnv σ) (e : Fault) : Prop :=
  IsDeny e ∨ (∃ op, e = .error (.typeMismatch op)) ∨ e = .error .fuelExhausted ∨
    (env.inputs = [] ∧ e = .error (.invalidPayload .pushInput))

section Discipline

variable (env : VmEnv σ) (lib : TextLib)

/-- With fuel for its code the condition pushes `b`, on any stack over this store. -/
def LeavesBool (cas : σ) (c : ConditionSpec) (b : Bool) : Prop :=
  ∀ core : Core σ, core.cas = cas → ∀ cfg, EnoughFuel cfg (compileToBool lib c) →
    ∃ out vm, runOn env cfg core (compileToBool lib c) = .ok (out, vm) ∧
      vm.core = core.push (.bool b)

/-- The Boolean of a connective is made of those of its operands. -/
def Connects (cas : σ) : ConditionSpec → Bool → Prop
  | .and cs, b => ∃ bs, List.Forall₂ (LeavesBool env lib cas) cs bs ∧ b = bs.all id
  | .or cs, b => ∃ bs, List.Forall₂ (LeavesBool env lib cas) cs bs ∧ b = bs.any id
  | .not c, b => ∃ b', LeavesBool env lib cas c b' ∧ b = !b'
  | _, _ => True

/-- How a run of the code of `c` may end that began with `core`. -/
def KeepsDiscipline (core : Core σ) (c : ConditionSpec) :
    Except Fault (VmOutcome × Machine σ) → Prop
  | .error e => Disciplined env e
  | .ok (_, vm) => ∃ b, vm.core = core.push (.bool b) ∧ Connects env lib core.cas c b

/-! ## Faults -/

theorem readBody_failsOnly (cas : σ) : FailsOnly (Disciplined env) (readBody env cas) := by
  refine FailsOnly.bind (failsOnly_charged fun e he => ?_) fun cid =>
    FailsOnly.bind (failsOnly_charged fun e he => ?_) fun bytes => failsOnly_charged fun e he => ?_
  · split at he
    · cases he
    · rename_i hinput
      have hnone : env.inputs = [] := List.isEmpty_iff.mp (by simpa using hinput)
      exact .inr (.inr (.inr ⟨hnone, (Except.error.inj he).symm⟩))
  · split at he
    · cases he
    · exact .inl ⟨_, (Except.error.inj he).symm⟩
  · split at he
    · cases he
    · exact .inl ⟨_, (Except.error.inj he).symm⟩

theorem keyField_failsOnly (j : Json) (key : String) :
    FailsOnly (Disciplined env) (charged (keyField env j key)) := by
  refine failsOnly_charged fun e he => ?_
  unfold keyField at he
  split at he
  · cases he
  · exact .inl ⟨_, (Except.error.inj he).symm⟩

theorem intOperand_failsOnly (op : Opcode) (v : Value) :
    FailsOnly (Disciplined env) (charged (intOperand op v)) := by
  refine failsOnly_charged fun e he => ?_
  unfold intOperand at he
  split at he
  · cases he
  · exact .inr (.inl ⟨op, (Except.error.inj he).symm⟩)

theorem evalCond_disciplined (cas : σ) (c : ConditionSpec) :
    FailsOnly (Disciplined env) (evalCond env lib cas c) := by
  have hbody := readBody_failsOnly env cas
  refine evalCond_failsOnly_of_atoms env lib ?_ ?_ ?_ ?_ c
  · intro key
    exact hbody.bind fun _ => (failsOnly_spend 1).bind fun _ => failsOnly_pure _
  · intro key expected
    refine hbody.bind fun j => FailsOnly.bind (failsOnly_charged fun e he => ?_) fun _ =>
      (failsOnly_spend 2).bind fun _ => failsOnly_pure _
    unfold stringField at he
    split at he
    · cases he
    · exact .inl ⟨_, (Except.error.inj he).symm⟩
  · intro field amount
    exact hbody.bind fun j => (keyField_failsOnly env j field).bind fun v =>
      (failsOnly_spend 1).bind fun _ => (intOperand_failsOnly env _ v).bind fun _ =>
        failsOnly_pure _
  · intro field window
    exact (failsOnly_spend 1).bind fun _ => hbody.bind fun j =>
      (keyField_failsOnly env j field).bind fun v => (intOperand_failsOnly env _ v).bind fun _ =>
        (failsOnly_spend 2).bind fun _ => failsOnly_pure _

/-! ## Booleans -/

/-- The code of a condition by itself, on any stack. -/
theorem exec_alone (c : ConditionSpec) (core : Core σ) :
    exec (execOp env) (compileToBool lib c) core =
      evalCond env lib core.cas c >>= fun b => pure (core.push (.bool b)) := by
  have hexec := exec_compileToBool env lib c core []
  rwa [List.append_nil] at hexec

/-- A run of the code of a condition follows its meaning. -/
theorem runOn_follows (cfg : VmConfig) (c : ConditionSpec) (core : Core σ) :
    FollowsMeter cfg 0 (exec (execOp env) (compileToBool lib c) core)
      (runOn env cfg core (compileToBool lib c)) (runFrom env cfg []) := by
  have hmeter := runFrom_append env cfg (Composable.emitFree.compileToBool lib c) []
    ⟨core, 0, 0, []⟩ (n := 0) rfl (Nat.zero_le _)
  rwa [List.append_nil] at hmeter

theorem leavesBool_of_result {cas : σ} {c : ConditionSpec} {b : Bool}
    (h : (evalCond env lib cas c).result = .ok b) : LeavesBool env lib cas c b := by
  rintro core rfl cfg hfuel
  have hresult : (exec (execOp env) (compileToBool lib c) core).result =
      .ok (core.push (.bool b)) := by
    rw [exec_alone, bind_result, h]
    rfl
  have hcost := exec_cost_of_ok (execOp env) hresult
  obtain ⟨vm, hcore, -, hrun⟩ := (runOn_follows env lib cfg c core).ok _ hresult
    (by rwa [hcost, Nat.zero_add])
  exact ⟨_, _, hrun, hcore⟩

theorem leavesBools_of_result {cas : σ} {cs : List ConditionSpec} {bs : List Bool}
    (h : (evalConds env lib cas cs).result = .ok bs) :
    List.Forall₂ (LeavesBool env lib cas) cs bs := by
  induction cs generalizing bs with
  | nil =>
    obtain rfl : [] = bs := Except.ok.inj h
    exact .nil
  | cons c cs ih =>
    simp only [evalConds, bind_result, bind_eq_ok] at h
    obtain ⟨b, hb, bs', hbs', h⟩ := h
    obtain rfl : b :: bs' = bs := Except.ok.inj h
    exact .cons (leavesBool_of_result env lib hb) (ih hbs')

theorem connects_of_result {cas : σ} {c : ConditionSpec} {b : Bool}
    (h : (evalCond env lib cas c).result = .ok b) : Connects env lib cas c b := by
  have hempty {cs : List ConditionSpec} (hcs : cs.isEmpty) :
      List.Forall₂ (LeavesBool env lib cas) cs [] := by
    obtain rfl := List.isEmpty_iff.mp hcs
    exact .nil
  cases c with
  | and cs =>
    rw [evalCond] at h
    split_ifs at h with hcs
    · exact ⟨[], hempty hcs, (Except.ok.inj h).symm⟩
    · simp only [bind_result, bind_eq_ok] at h
      obtain ⟨bs, hbs, -, -, h⟩ := h
      exact ⟨bs, leavesBools_of_result env lib hbs, (Except.ok.inj h).symm⟩
  | or cs =>
    rw [evalCond] at h
    split_ifs at h with hcs
    · exact ⟨[], hempty hcs, (Except.ok.inj h).symm⟩
    · simp only [bind_result, bind_eq_ok] at h
      obtain ⟨bs, hbs, -, -, h⟩ := h
      exact ⟨bs, leavesBools_of_result env lib hbs, (Except.ok.inj h).symm⟩
  | not c =>
    simp only [evalCond, bind_result, bind_eq_ok] at h
    obtain ⟨b', hb', -, -, h⟩ := h
    exact ⟨b', leavesBool_of_result env lib hb', (Except.ok.inj h).symm⟩
  | _ => trivial

/-- The code of a condition ends in one of its faults, or with one Boolean on the stack that it
found. -/
theorem compileToBool_discipline (c : ConditionSpec)
    (hfits : ∀ text ∈ c.texts lib, text.length < 65536) (core : Core σ) (cfg : VmConfig) :
    ∃ code, decodeStream (encode (compileToBool lib c)) = .ok code ∧
      KeepsDiscipline env lib core c (runOn env cfg core code) := by
  refine ⟨_, decodeStream_encode ((allShort_compileToBool lib c).mpr hfits), ?_⟩
  have hmeter := runOn_follows env lib cfg c core
  by_cases hfuel : fuelFor (0 + (exec (execOp env) (compileToBool lib c) core).cost) ≤
      cfg.fuelLimit.toNat
  · cases h : (evalCond env lib core.cas c).result with
    | error e =>
      have hresult : (exec (execOp env) (compileToBool lib c) core).result = .error e := by
        rw [exec_alone, bind_result, h]
        rfl
      rw [hmeter.error e hresult hfuel]
      exact evalCond_disciplined env lib core.cas c e h
    | ok b =>
      have hresult : (exec (execOp env) (compileToBool lib c) core).result =
          .ok (core.push (.bool b)) := by
        rw [exec_alone, bind_result, h]
        rfl
      obtain ⟨vm, hcore, -, hrun⟩ := hmeter.ok _ hresult hfuel
      rw [hrun]
      exact ⟨b, hcore, connects_of_result env lib h⟩
  · rw [hmeter.exhausted hfuel]
    exact .inr (.inr (.inl rfl))

end Discipline

/-- `And [ContextHas "token", Not (Always false)]`. -/
def tokenAndTrue : ConditionSpec := .and [.contextHas "token", .not (.always false)]

/-- A limit that the samples do not reach. -/
def amplyFueled : VmConfig := ⟨1000, false, false⟩

/-- A machine with an integer on its stack. -/
def sevenOnTop : Core Unit := (initial ()).push (.i64 7)

theorem compileToBool_discipline_token :
    ∃ code, decodeStream (encode (compileToBool plainLib tokenAndTrue)) = .ok code ∧
      KeepsDiscipline (textEnv Nrf.asciiText "\x7b\x7d" (.object []) 2) plainLib sevenOnTop
        tokenAndTrue
        (runOn (textEnv Nrf.asciiText "\x7b\x7d" (.object []) 2) amplyFueled sevenOnTop code) := by
  refine compileToBool_discipline (textEnv Nrf.asciiText "\x7b\x7d" (.object []) 2) plainLib
    tokenAndTrue ?_ sevenOnTop amplyFueled
  intro text htext
  obtain rfl : text = utf8 "token" := by
    simpa [tokenAndTrue, ConditionSpec.texts, ConditionSpec.textsOfAll] using htext
  decide

/-- A machine that got no inputs. -/
def noInputEnv : VmEnv Unit := { textEnv Nrf.asciiText "\x7b\x7d" (.object []) 2 with inputs := [] }

/-- Without an input the first instruction of `ContextHas` is an invalid payload. -/
theorem compileToBool_no_input :
    ∃ code e, decodeStream (encode (compileToBool plainLib (.contextHas "token"))) = .ok code ∧
      runOn noInputEnv amplyFueled (initial ()) code = .error e ∧
      ¬ IsDeny e ∧ (∀ op, e ≠ .error (.typeMismatch op)) ∧ e ≠ .error .fuelExhausted := by
  have hshort : AllShort (compileToBool plainLib (.contextHas "token")) := by
    simp only [compileToBool, loadBody, AllShort]
    decide
  have hmeter := runOn_follows noInputEnv plainLib amplyFueled (.contextHas "token") (initial ())
  refine ⟨_, .error (.invalidPayload .pushInput), decodeStream_encode hshort, ?_, ?_, ?_, ?_⟩
  · refine hmeter.error _ rfl ?_
    decide
  · rintro ⟨reason, h⟩
    cases h
  · intro op h
    cases h
  · intro h
    cases h

end Ubl.Silicon
