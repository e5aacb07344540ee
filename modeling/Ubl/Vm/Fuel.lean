import Ubl.Vm.Metering

/-!
# Fuel

A program and its inputs fix the number of instructions that a run executes when the fuel lasts
(`executed`; `Executes` says it of the runs themselves).  With at least that much fuel the limit
makes no difference, and no instruction fails for want of it (`fueled_execOp`); with less, the run
ends in `FuelExhausted` after as many instructions as there were units.

The counter of a `Vm` saturates at `u64::MAX`; no slice of instructions is as long as that.
-/

namespace Ubl.Vm

open ExceptLemmas

variable {σ : Type}

/-- The instructions that are executed: up to `EmitRc`, to the first that fails, or all. -/
def executed (env : VmEnv σ) : List Instr → Core σ → Nat
  | [], _ => 0
  | ins :: code, core =>
    if ins.op = .emitRc then 1
    else
      match execOp env ins core with
      | .error _ => 1
      | .ok core => executed env code core + 1

/-- The step counter of the machine when a run has ended, well or not. -/
def stepsAtEnd (env : VmEnv σ) (cfg : VmConfig) : List Instr → Machine σ → Nat
  | [], vm => vm.steps
  | ins :: code, vm =>
    match charge cfg vm with
    | .error _ => vm.steps
    | .ok vm =>
      let vm := { vm with steps := vm.steps + 1 }
      if ins.op = .emitRc then vm.steps
      else
        match execOp env ins vm.core with
        | .error _ => vm.steps
        | .ok core => stepsAtEnd env cfg code (traced cfg ins.op none { vm with core })

/-- The machine of `Vm::new`. -/
def start (cas : σ) : Machine σ := ⟨initial cas, 0, 0, []⟩

/-- What a run returns, its trace aside. -/
def untraced (r : Except Fault (VmOutcome × Machine σ)) : Except Fault (VmOutcome × Machine σ) :=
  r.map fun p => ({ p.1 with trace := [] }, { p.2 with trace := [] })

variable {env : VmEnv σ} {cfg : VmConfig}

theorem executed_le_length (code : List Instr) (core : Core σ) :
    executed env code core ≤ code.length := by
  induction code generalizing core with
  | nil => exact le_rfl
  | cons ins code ih =>
    rw [executed, List.length_cons]
    split_ifs
    · omega
    · cases execOp env ins core with
      | error e => exact Nat.succ_le_succ (Nat.zero_le _)
      | ok core => exact Nat.succ_le_succ (ih core)

/-! ## One instruction -/

/-- A charge that fits the limit. -/
theorem charge_ok {vm : Machine σ} (hlt : vm.fuelUsed < u64Max)
    (hfuel : vm.fuelUsed + 1 ≤ cfg.fuelLimit.toNat) :
    charge cfg vm = .ok { vm with fuelUsed := vm.fuelUsed + 1 } := by
  have hmin : min (vm.fuelUsed + 1) u64Max = vm.fuelUsed + 1 := min_eq_left hlt
  rw [charge, hmin, if_neg (not_lt.mpr hfuel)]

theorem charge_exhausted {vm : Machine σ} (hlt : vm.fuelUsed < u64Max)
    (hfuel : cfg.fuelLimit.toNat < vm.fuelUsed + 1) :
    charge cfg vm = .error (.error .fuelExhausted) := by
  have hmin : min (vm.fuelUsed + 1) u64Max = vm.fuelUsed + 1 := min_eq_left hlt
  rw [charge, hmin, if_pos hfuel]

theorem limit_le (L : UInt64) : L.toNat ≤ u64Max := Nat.le_sub_one_of_lt L.toNat_lt

section Step

variable {ins : Instr} {code : List Instr} {vm : Machine σ}

/-- The machine that an instruction which does not end the run leaves to the next one. -/
def Machine.after (cfg : VmConfig) (op : Opcode) (core : Core σ) (vm : Machine σ) : Machine σ :=
  traced cfg op none ⟨core, vm.steps + 1, vm.fuelUsed + 1, vm.trace⟩

@[simp] theorem after_core (op : Opcode) (core : Core σ) :
    (vm.after cfg op core).core = core := traced_core _ _ _ _

@[simp] theorem after_fuelUsed (op : Opcode) (core : Core σ) :
    (vm.after cfg op core).fuelUsed = vm.fuelUsed + 1 := traced_fuelUsed _ _ _ _

@[simp] theorem after_steps (op : Opcode) (core : Core σ) :
    (vm.after cfg op core).steps = vm.steps + 1 := by
  unfold Machine.after traced
  split_ifs <;> rfl

/-- A turn of the loop with fuel for it. -/
theorem runFrom_charged (hlt : vm.fuelUsed < u64Max)
    (hfuel : vm.fuelUsed + 1 ≤ cfg.fuelLimit.toNat) :
    runFrom env cfg (ins :: code) vm =
      if ins.op = .emitRc then
        emitRc env cfg ⟨vm.core, vm.steps + 1, vm.fuelUsed + 1, vm.trace⟩
      else execOp env ins vm.core >>= fun core => runFrom env cfg code (vm.after cfg ins.op core) := by
  rw [runFrom, charge_ok hlt hfuel, bind_ok]
  rfl

theorem stepsAtEnd_charged (hlt : vm.fuelUsed < u64Max)
    (hfuel : vm.fuelUsed + 1 ≤ cfg.fuelLimit.toNat) :
    stepsAtEnd env cfg (ins :: code) vm =
      if ins.op = .emitRc then vm.steps + 1
      else
        match execOp env ins vm.core with
        | .error _ => vm.steps + 1
        | .ok core => stepsAtEnd env cfg code (vm.after cfg ins.op core) := by
  rw [stepsAtEnd, charge_ok hlt hfuel]
  rfl

theorem executed_pos : 0 < executed env (ins :: code) vm.core := by
  rw [executed]
  split_ifs
  · exact Nat.one_pos
  · split
    · exact Nat.one_pos
    · exact Nat.succ_pos _

theorem executed_cons_ok (hop : ins.op ≠ .emitRc) {core : Core σ}
    (h : execOp env ins vm.core = .ok core) :
    executed env (ins :: code) vm.core = executed env code core + 1 := by
  rw [executed, if_neg hop, h]

end Step

/-! ## Runs with enough fuel -/

/-- Two limits that both are enough. -/
theorem runFrom_eq_of_enough {ghost trace : Bool} {L L' : UInt64} (code : List Instr)
    (vm : Machine σ) (hL : vm.fuelUsed + executed env code vm.core ≤ L.toNat)
    (hL' : vm.fuelUsed + executed env code vm.core ≤ L'.toNat) :
    runFrom env ⟨L, ghost, trace⟩ code vm = runFrom env ⟨L', ghost, trace⟩ code vm := by
  induction code generalizing vm with
  | nil => rfl
  | cons ins code ih =>
    have hpos := @executed_pos _ env ins code vm
    have hlt : vm.fuelUsed < u64Max := by
      have := limit_le L
      omega
    rw [runFrom_charged hlt (by simp only; omega), runFrom_charged hlt (by simp only; omega)]
    split_ifs with hop
    · rfl
    · cases hstep : execOp env ins vm.core with
      | error e => rfl
      | ok core =>
        rw [executed_cons_ok hop hstep] at hL hL'
        exact ih (vm.after ⟨L, ghost, trace⟩ ins.op core) (by simp; omega) (by simp; omega)

/-- The counters at the end of a run that had enough fuel. -/
theorem counters_of_enough (code : List Instr) (vm : Machine σ) (hsteps : vm.steps = vm.fuelUsed)
    (hL : vm.fuelUsed + executed env code vm.core ≤ cfg.fuelLimit.toNat) :
    stepsAtEnd env cfg code vm = vm.fuelUsed + executed env code vm.core ∧
      ∀ out vm', runFrom env cfg code vm = .ok (out, vm') →
        out.steps = vm.fuelUsed + executed env code vm.core ∧
        out.fuelUsed = vm.fuelUsed + executed env code vm.core := by
  induction code generalizing vm with
  | nil =>
    refine ⟨hsteps, fun out vm' h => ?_⟩
    obtain ⟨rfl, -⟩ := Prod.mk.inj (Except.ok.inj h)
    exact ⟨hsteps, rfl⟩
  | cons ins code ih =>
    have hpos := @executed_pos _ env ins code vm
    have hlt : vm.fuelUsed < u64Max := by
      have := limit_le cfg.fuelLimit
      omega
    rw [runFrom_charged hlt (by omega), stepsAtEnd_charged hlt (by omega)]
    by_cases hop : ins.op = .emitRc
    · rw [if_pos hop, if_pos hop, executed, if_pos hop, hsteps]
      refine ⟨rfl, fun out vm' h => ?_⟩
      unfold emitRc at h
      dsimp only at h
      split_ifs at h
      obtain ⟨rfl, -⟩ := Prod.mk.inj (Except.ok.inj h)
      refine ⟨?_, traced_fuelUsed _ _ _ _⟩
      unfold traced
      split_ifs <;> rfl
    · rw [if_neg hop, if_neg hop]
      cases hstep : execOp env ins vm.core with
      | error e =>
        rw [executed, if_neg hop, hstep, hsteps]
        exact ⟨rfl, fun out vm' h => (by cases h)⟩
      | ok core =>
        rw [executed_cons_ok hop hstep] at hL ⊢
        have hrec := ih (vm.after cfg ins.op core) (by simp [hsteps]) (by simp; omega)
        simp only [after_fuelUsed, after_core] at hrec
        have hsum : vm.fuelUsed + (executed env code core + 1) =
            vm.fuelUsed + 1 + executed env code core := by omega
        rw [hsum]
        exact hrec

/-! ## Runs without -/

/-- The run stops when the fuel is used up. -/
theorem exhausted_of_less (code : List Instr) (vm : Machine σ) (hsteps : vm.steps = vm.fuelUsed)
    (hmax : vm.fuelUsed + executed env code vm.core ≤ u64Max)
    (hused : vm.fuelUsed ≤ cfg.fuelLimit.toNat)
    (hL : cfg.fuelLimit.toNat < vm.fuelUsed + executed env code vm.core) :
    runFrom env cfg code vm = .error (.error .fuelExhausted) ∧
      stepsAtEnd env cfg code vm = cfg.fuelLimit.toNat := by
  induction code generalizing vm with
  | nil => exact absurd hL (not_lt.mpr hused)
  | cons ins code ih =>
    have hpos := @executed_pos _ env ins code vm
    have hlt : vm.fuelUsed < u64Max := by omega
    by_cases hone : vm.fuelUsed + 1 ≤ cfg.fuelLimit.toNat
    · have hmore : 1 < executed env (ins :: code) vm.core := by omega
      have hop : ins.op ≠ .emitRc := by
        intro hop
        rw [executed, if_pos hop] at hmore
        exact absurd hmore (lt_irrefl 1)
      cases hstep : execOp env ins vm.core with
      | error e =>
        rw [executed, if_neg hop, hstep] at hmore
        exact absurd hmore (lt_irrefl 1)
      | ok core =>
        rw [executed_cons_ok hop hstep] at hmax hL
        rw [runFrom_charged hlt hone, stepsAtEnd_charged hlt hone, if_neg hop, if_neg hop, hstep]
        exact ih (vm.after cfg ins.op core) (by simp [hsteps]) (by simp; omega) (by simpa)
          (by simp; omega)
    · have hcharge : charge cfg vm = .error (.error .fuelExhausted) :=
        charge_exhausted hlt (not_le.mp hone)
      rw [runFrom, hcharge, stepsAtEnd, hcharge]
      exact ⟨rfl, by simp only; omega⟩

/-! ## What the number is -/

/-- No instruction fails for want of fuel. -/
def Fueled {α : Type} (r : Except Fault α) : Prop := r ≠ .error (.error .fuelExhausted)

theorem Fueled.bind {α β : Type} {x : Except Fault α} {k : α → Except Fault β} (hx : Fueled x)
    (hk : ∀ a, Fueled (k a)) : Fueled (x >>= k) := by
  cases x with
  | error e => exact fun h => hx (congrArg Except.error (Except.error.inj h))
  | ok a => exact hk a

theorem fueled_ok {α : Type} (a : α) : Fueled (.ok a) := fun h => (by cases h)

theorem fueled_error {α : Type} {e : ExecError} (h : e ≠ .fuelExhausted) :
    Fueled (.error (.error e) : Except Fault α) := by
  intro heq
  exact h (Fault.error.inj (Except.error.inj heq))

theorem fueled_pop (core : Core σ) : Fueled core.pop := by
  unfold Core.pop
  split
  · exact fueled_error (fun h => (by cases h))
  · exact fueled_ok _

theorem fueled_popAs {α : Type} (op : Opcode) (cast : Value → Option α) (core : Core σ) :
    Fueled (core.popAs op cast) := by
  have hpop := fueled_pop core
  unfold Core.popAs
  cases hres : core.pop with
  | error e =>
    rw [hres] at hpop
    exact fun h => hpop (congrArg Except.error (Except.error.inj h))
  | ok p =>
    obtain ⟨v, core⟩ := p
    dsimp only
    cases cast v with
    | some a => exact fueled_ok _
    | none => exact fueled_error fun h => (by cases h)

theorem fueled_execOp (ins : Instr) (core : Core σ) : Fueled (execOp env ins core) := by
  rcases ins with ⟨op, payload⟩
  cases op <;> simp only [execOp, binI64, cmpI64, binBool, binNum, popNumFor, withText, pushNum,
    deny, invalidPayload]
  -- what is there pops, splits on what it finds, and pushes or fails
  all_goals
    repeat' first
      | exact fueled_ok _
      | exact fueled_error (fun h => (by cases h))
      | exact fun h => (by cases h)
      | refine Fueled.bind (fueled_popAs _ _ _) fun _ => ?_
      | refine Fueled.bind (fueled_pop _) fun _ => ?_
      | split

theorem fueled_emitRc (vm : Machine σ) : Fueled (emitRc env cfg vm) := by
  unfold emitRc
  dsimp only
  split_ifs
  · exact fueled_error fun h => (by cases h)
  · exact fueled_ok _

/-- With enough fuel the run does not end for want of it. -/
theorem fueled_runFrom (code : List Instr) (vm : Machine σ)
    (hL : vm.fuelUsed + executed env code vm.core ≤ cfg.fuelLimit.toNat) :
    Fueled (runFrom env cfg code vm) := by
  induction code generalizing vm with
  | nil => exact fueled_ok _
  | cons ins code ih =>
    have hpos := @executed_pos _ env ins code vm
    have hlt : vm.fuelUsed < u64Max := by
      have := limit_le cfg.fuelLimit
      omega
    rw [runFrom_charged hlt (by omega)]
    split_ifs with hop
    · exact fueled_emitRc _
    · have hins : Fueled (execOp env ins vm.core) := fueled_execOp ins vm.core
      cases hstep : execOp env ins vm.core with
      | error e =>
        rw [hstep] at hins
        exact fun h => hins (congrArg Except.error (Except.error.inj h))
      | ok core =>
        rw [executed_cons_ok hop hstep] at hL
        exact ih (vm.after cfg ins.op core) (by simp; omega)

theorem charge_core {vm vm' : Machine σ} (h : charge cfg vm = .ok vm') : vm'.core = vm.core := by
  unfold charge at h
  dsimp only at h
  split_ifs at h
  rw [← Except.ok.inj h]

/-- What is not executed is not looked at. -/
theorem runFrom_take_executed (code : List Instr) (vm : Machine σ) :
    runFrom env cfg (code.take (executed env code vm.core)) vm = runFrom env cfg code vm := by
  induction code generalizing vm with
  | nil => rfl
  | cons ins code ih =>
    by_cases hop : ins.op = .emitRc
    · rw [executed, if_pos hop]
      simp only [List.take_succ_cons, runFrom, if_pos hop]
    · cases hstep : execOp env ins vm.core with
      | error e =>
        rw [executed, if_neg hop, hstep]
        simp only [List.take_succ_cons, runFrom, if_neg hop]
        cases hcharge : charge cfg vm with
        | error e => rfl
        | ok vm' => simp only [bind_ok, charge_core hcharge, hstep, bind_error]
      | ok core =>
        rw [executed_cons_ok hop hstep, List.take_succ_cons]
        simp only [runFrom, if_neg hop]
        cases hcharge : charge cfg vm with
        | error e => rfl
        | ok vm' =>
          simp only [bind_ok, charge_core hcharge, hstep]
          have hnext := ih (traced cfg ins.op none ⟨core, vm'.steps + 1, vm'.fuelUsed, vm'.trace⟩)
          rwa [traced_core] at hnext

/-- Fewer instructions than that run well, each for a unit, and none of them ends the run. -/
theorem runFrom_take_of_lt {n : Nat} (code : List Instr) (vm : Machine σ)
    (hn : n < executed env code vm.core) (hL : vm.fuelUsed + n ≤ cfg.fuelLimit.toNat) :
    ∃ out vm', runFrom env cfg (code.take n) vm = .ok (out, vm') ∧ out.rcCid = none ∧
      out.steps = vm.steps + n ∧ out.fuelUsed = vm.fuelUsed + n := by
  induction n generalizing code vm with
  | zero => exact ⟨_, _, rfl, rfl, rfl, rfl⟩
  | succ n ih =>
    cases code with
    | nil => exact absurd hn (Nat.not_lt_zero _)
    | cons ins code =>
      have hlt : vm.fuelUsed < u64Max := by
        have := limit_le cfg.fuelLimit
        omega
      have hop : ins.op ≠ .emitRc := by
        intro hop
        rw [executed, if_pos hop] at hn
        omega
      cases hstep : execOp env ins vm.core with
      | error e =>
        rw [executed, if_neg hop, hstep] at hn
        exact absurd hn (by simp)
      | ok core =>
        rw [executed_cons_ok hop hstep] at hn
        obtain ⟨out, vm', hrun, hcid, hsteps, hfuel⟩ := ih code (vm.after cfg ins.op core)
          (by simp; omega) (by simp; omega)
        refine ⟨out, vm', ?_, hcid, by simp at hsteps; omega, by simp at hfuel; omega⟩
        rw [List.take_succ_cons, runFrom_charged hlt (by omega), if_neg hop, hstep]
        exact hrun

/-- Where it is not all of them, the last one is an `EmitRc` or it fails. -/
theorem stops_of_executed_lt (code : List Instr) (vm : Machine σ)
    (hlt : executed env code vm.core < code.length) :
    (∃ ins, code[executed env code vm.core - 1]? = some ins ∧ ins.op = .emitRc) ∨
      ∃ e, runFrom env cfg code vm = .error e := by
  induction code generalizing vm with
  | nil => exact absurd hlt (Nat.not_lt_zero _)
  | cons ins code ih =>
    by_cases hop : ins.op = .emitRc
    · rw [executed, if_pos hop]
      exact .inl ⟨ins, rfl, hop⟩
    · cases hstep : execOp env ins vm.core with
      | error e =>
        right
        rw [runFrom]
        cases hcharge : charge cfg vm with
        | error e => exact ⟨e, rfl⟩
        | ok vm' =>
          exact ⟨e, by simp only [bind_ok, if_neg hop, charge_core hcharge, hstep, bind_error]⟩
      | ok core =>
        rw [executed_cons_ok hop hstep] at hlt ⊢
        rw [runFrom]
        cases hcharge : charge cfg vm with
        | error e => exact .inr ⟨e, rfl⟩
        | ok vm' =>
          simp only [bind_ok, if_neg hop, charge_core hcharge, hstep]
          have hrec := ih (traced cfg ins.op none ⟨core, vm'.steps + 1, vm'.fuelUsed, vm'.trace⟩)
          rw [traced_core] at hrec
          rcases hrec (Nat.lt_of_succ_lt_succ hlt) with hlast | herror
          · obtain ⟨last, hlast, hemit⟩ := hlast
            refine .inl ⟨last, ?_, hemit⟩
            cases code with
            | nil => cases hlast
            | cons ins' code =>
              have hpos : 0 < executed env (ins' :: code) core :=
                @executed_pos _ env ins' code { vm with core }
              rwa [Nat.add_sub_cancel, ← Nat.sub_add_cancel hpos, List.getElem?_cons_succ]
          · exact .inr herror

/-! ## The trace, and what follows `EmitRc` -/

theorem untraced_emitRc {ghost trace trace' : Bool} {L : UInt64} {core : Core σ} {steps fuel : Nat}
    {tr tr' : List TraceStep} :
    untraced (emitRc env ⟨L, ghost, trace⟩ ⟨core, steps, fuel, tr⟩) =
      untraced (emitRc env ⟨L, ghost, trace'⟩ ⟨core, steps, fuel, tr'⟩) := by
  unfold emitRc traced
  cases trace <;> cases trace' <;>
    simp only [rcPayload, if_true, if_false, Bool.false_eq_true] <;> split_ifs <;> rfl

theorem untraced_runFrom {ghost trace trace' : Bool} {L : UInt64} (code : List Instr)
    {core : Core σ} {steps fuel : Nat} {tr tr' : List TraceStep} :
    untraced (runFrom env ⟨L, ghost, trace⟩ code ⟨core, steps, fuel, tr⟩) =
      untraced (runFrom env ⟨L, ghost, trace'⟩ code ⟨core, steps, fuel, tr'⟩) := by
  induction code generalizing core steps fuel tr tr' with
  | nil => rfl
  | cons ins code ih =>
    rw [runFrom, runFrom]
    by_cases hfuel : min (fuel + 1) u64Max > L.toNat
    · rw [charge, charge, if_pos hfuel, if_pos hfuel]
      rfl
    · rw [charge, charge, if_neg hfuel, if_neg hfuel, bind_ok, bind_ok]
      by_cases hop : ins.op = .emitRc
      · simp only [if_pos hop]
        exact untraced_emitRc
      · simp only [if_neg hop]
        cases execOp env ins core with
        | error e => rfl
        | ok core =>
          simp only [bind_ok, traced]
          cases trace <;> cases trace' <;> exact ih

/-- What follows an `EmitRc` is never looked at. -/
theorem runFrom_emitRc_append (pre : List Instr) {emit : Instr} (hemit : emit.op = .emitRc)
    (rest rest' : List Instr) (vm : Machine σ) :
    runFrom env cfg (pre ++ emit :: rest) vm = runFrom env cfg (pre ++ emit :: rest') vm := by
  induction pre generalizing vm with
  | nil => simp only [List.nil_append, runFrom, if_pos hemit]
  | cons ins pre ih =>
    rw [List.cons_append, List.cons_append, runFrom, runFrom]
    simp only [ih]

/-- `n` is the number of instructions that the machine executes: fewer of them run well and do not
end the run, and the last one is the last there is, an `EmitRc`, or fails. -/
structure Executes (env : VmEnv σ) (ghost : Bool) (cas : σ) (code : List Instr) (n : Nat) :
    Prop where
  goesOn : ∀ m < n, ∀ (L : UInt64) (trace : Bool), m ≤ L.toNat → ∃ out vm,
    run env ⟨L, ghost, trace⟩ cas (code.take m) = .ok (out, vm) ∧ out.rcCid = none ∧
      out.steps = m ∧ out.fuelUsed = m
  ends : n = code.length ∨ (∃ ins, code[n - 1]? = some ins ∧ ins.op = .emitRc) ∨
    ∃ e, run env ⟨.ofNat u64Max, ghost, false⟩ cas (code.take n) = .error e

theorem executes_executed (env : VmEnv σ) (ghost : Bool) (cas : σ) (code : List Instr) :
    Executes env ghost cas code (executed env code (initial cas)) where
  goesOn m hm L trace hL := by
    obtain ⟨out, vm, hrun, hcid, hsteps, hfuel⟩ :=
      @runFrom_take_of_lt _ env ⟨L, ghost, trace⟩ m code (start cas) hm (by simpa [start] using hL)
    exact ⟨out, vm, hrun, hcid, by simpa [start] using hsteps, by simpa [start] using hfuel⟩
  ends := by
    rcases (executed_le_length code (initial cas)).eq_or_lt with heq | hlt
    · exact .inl heq
    · rw [run]
      exact .inr ((stops_of_executed_lt code (start cas) hlt).imp_right fun ⟨e, he⟩ =>
        ⟨e, (runFrom_take_executed code (start cas)).trans he⟩)

/-- The meter: `executed` units are enough, and it takes no fewer. -/
theorem fuel_metering (env : VmEnv σ) (ghost : Bool) (cas : σ) (code : List Instr)
    (hlen : code.length ≤ u64Max) :
    Executes env ghost cas code (executed env code (initial cas)) ∧
    (∀ (L : UInt64) (trace : Bool), executed env code (initial cas) ≤ L.toNat →
      run env ⟨L, ghost, trace⟩ cas code = run env ⟨.ofNat u64Max, ghost, trace⟩ cas code ∧
      run env ⟨L, ghost, trace⟩ cas code ≠ .error (.error .fuelExhausted) ∧
      stepsAtEnd env ⟨L, ghost, trace⟩ code (start cas) = executed env code (initial cas) ∧
      ∀ out vm, run env ⟨L, ghost, trace⟩ cas code = .ok (out, vm) →
        out.steps = executed env code (initial cas) ∧
        out.fuelUsed = executed env code (initial cas)) ∧
    (∀ (L : UInt64) (trace : Bool), L.toNat < executed env code (initial cas) →
      run env ⟨L, ghost, trace⟩ cas code = .error (.error .fuelExhausted) ∧
      stepsAtEnd env ⟨L, ghost, trace⟩ code (start cas) = L.toNat) ∧
    (∀ (L : UInt64) (trace trace' : Bool), untraced (run env ⟨L, ghost, trace⟩ cas code) =
      untraced (run env ⟨L, ghost, trace'⟩ cas code)) ∧
    ∀ (cfg : VmConfig) (pre rest rest' : List Instr) (emit : Instr), emit.op = .emitRc →
      code = pre ++ emit :: rest → run env cfg cas code = run env cfg cas (pre ++ emit :: rest') := by
  have hmax : executed env code (initial cas) ≤ u64Max := (executed_le_length code _).trans hlen
  have hzero : (0 : Nat) + executed env code (initial cas) = executed env code (initial cas) :=
    Nat.zero_add _
  refine ⟨executes_executed env ghost cas code, fun L trace hL => ?_, fun L trace hL => ?_,
    fun L trace trace' => untraced_runFrom code, ?_⟩
  · have hcounters := @counters_of_enough _ env ⟨L, ghost, trace⟩ code (start cas) rfl
      (hzero.trans_le hL)
    rw [show (start cas).fuelUsed + executed env code (start cas).core =
      executed env code (initial cas) from hzero] at hcounters
    exact ⟨runFrom_eq_of_enough code (start cas) (hzero.trans_le hL) (hzero.trans_le hmax),
      fueled_runFrom code (start cas) (hzero.trans_le hL), hcounters⟩
  · exact exhausted_of_less code (start cas) rfl (hzero.trans_le hmax) (Nat.zero_le _)
      (hL.trans_eq hzero.symm)
  · rintro cfg pre rest rest' emit hemit rfl
    exact runFrom_emitRc_append pre hemit rest rest' _

/-- A machine whose signer signs and whose store forgets. -/
def forgetful : VmEnv Unit where
  put cas _ := (cas, ⟨"b3:0"⟩)
  get _ _ := none
  signJws _ := [0]
  canon v := v
  fromSlice _ := none
  toVec _ := []
  numFromValue _ := none
  parseBigInt _ := .error "invalid digit found in string"
  blake3 _ := []
  verify _ _ _ := false
  base64 _ := "AA"
  now := 0
  inputs := []
  bodySize := 0

/-- `CONST_I64 7; DROP; EMIT_RC; DROP`. -/
def pushAndDrop : List Instr :=
  [⟨.constI64, [0, 0, 0, 0, 0, 0, 0, 7]⟩, ⟨.drop, []⟩, ⟨.emitRc, []⟩, ⟨.drop, []⟩]

theorem fuel_metering_sample :
    executed forgetful pushAndDrop (initial ()) = 3 ∧
      (∃ out vm, run forgetful ⟨2, false, false⟩ () (pushAndDrop.take 2) = .ok (out, vm) ∧
        out.steps = 2) ∧
      run forgetful ⟨2, false, false⟩ () pushAndDrop = .error (.error .fuelExhausted) ∧
      stepsAtEnd forgetful ⟨2, false, false⟩ pushAndDrop (start ()) = 2 ∧
      run forgetful ⟨3, false, false⟩ () pushAndDrop ≠ .error (.error .fuelExhausted) ∧
      run forgetful ⟨3, false, false⟩ () pushAndDrop =
        run forgetful ⟨.ofNat u64Max, false, false⟩ () pushAndDrop := by
  have hlen : pushAndDrop.length ≤ u64Max := by decide
  have hthree : executed forgetful pushAndDrop (initial ()) = 3 := by rfl
  obtain ⟨hexecutes, henough, hless, -⟩ := fuel_metering forgetful false () pushAndDrop hlen
  obtain ⟨hexhausted, hsteps⟩ := hless 2 false (by rw [hthree]; decide)
  obtain ⟨hsame, hends, -⟩ := henough 3 false (by rw [hthree]; decide)
  obtain ⟨out, vm, hrun, -, htwo, -⟩ :=
    hexecutes.goesOn 2 (by rw [hthree]; decide) 2 false le_rfl
  exact ⟨hthree, ⟨out, vm, hrun, htwo⟩, hexhausted, hsteps, hends, hsame⟩

end Ubl.Vm
