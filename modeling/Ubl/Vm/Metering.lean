import Ubl.Vm.Exec

/-!
# Runs as metered programs

Up to `EmitRc` a run is the straight-line execution of its instructions, cut off where the
fuel ends: with `m := exec (execOp env) xs core`,

* `fuelFor m.cost ≤ cfg.fuelLimit` and the run does what `m.result` says, or
* the run ends in `FuelExhausted`.

`run_emitRc` says this for a whole program `xs ++ [EmitRc]`.  Below it, the single
instructions that compiled conditions are made of.
-/

namespace Ubl.Vm

open BigEndian Utf8 Metered ExceptLemmas

variable {σ : Type}

theorem fuelFor_mono {m n : Nat} (h : m ≤ n) : fuelFor m ≤ fuelFor n := by
  unfold fuelFor
  omega

theorem fuelFor_succ (n : Nat) : min (fuelFor n + 1) u64Max = fuelFor (n + 1) := by
  unfold fuelFor
  omega

/-- The greatest limit is enough for every program. -/
theorem enoughFuel_max (ghost trace : Bool) (code : List Instr) :
    EnoughFuel ⟨UInt64.ofNat u64Max, ghost, trace⟩ code :=
  min_le_right code.length u64Max

@[simp] theorem traced_core (cfg : VmConfig) (op : Opcode) (note : Option String)
    (vm : Machine σ) : (traced cfg op note vm).core = vm.core := by
  unfold traced
  split_ifs <;> rfl

@[simp] theorem traced_fuelUsed (cfg : VmConfig) (op : Opcode) (note : Option String)
    (vm : Machine σ) : (traced cfg op note vm).fuelUsed = vm.fuelUsed := by
  unfold traced
  split_ifs <;> rfl

/-- No instruction of the program ends the run. -/
def EmitFree (code : List Instr) : Prop := ∀ ins ∈ code, ins.op ≠ .emitRc

@[simp] theorem emitFree_nil : EmitFree [] := by simp [EmitFree]

@[simp] theorem emitFree_cons {ins : Instr} {code : List Instr} :
    EmitFree (ins :: code) ↔ ins.op ≠ .emitRc ∧ EmitFree code := by
  simp [EmitFree]

@[simp] theorem emitFree_append {xs ys : List Instr} :
    EmitFree (xs ++ ys) ↔ EmitFree xs ∧ EmitFree ys := by
  simp only [EmitFree, List.mem_append]
  exact ⟨fun h => ⟨fun i hi => h i (.inl hi), fun i hi => h i (.inr hi)⟩,
    fun h i hi => hi.elim (h.1 i) (h.2 i)⟩

/-- A charge that does not fit ends the run. -/
theorem runFrom_cons_exhausted (env : VmEnv σ) (cfg : VmConfig) (ins : Instr) (code : List Instr)
    (vm : Machine σ) (h : cfg.fuelLimit.toNat < min (vm.fuelUsed + 1) u64Max) :
    runFrom env cfg (ins :: code) vm = .error (.error .fuelExhausted) := by
  have hc : charge cfg vm = .error (.error .fuelExhausted) := by
    unfold charge
    exact if_pos h
  rw [runFrom, hc]
  rfl

/-- One instruction of a run, fuel permitting. -/
theorem runFrom_cons (env : VmEnv σ) (cfg : VmConfig) {ins : Instr} (hop : ins.op ≠ .emitRc)
    (code : List Instr) (vm : Machine σ) (h : min (vm.fuelUsed + 1) u64Max ≤ cfg.fuelLimit.toNat) :
    runFrom env cfg (ins :: code) vm =
      execOp env ins vm.core >>= fun core =>
        runFrom env cfg code (traced cfg ins.op none
          ⟨core, vm.steps + 1, min (vm.fuelUsed + 1) u64Max, vm.trace⟩) := by
  have hc : charge cfg vm = .ok { vm with fuelUsed := min (vm.fuelUsed + 1) u64Max } := by
    unfold charge
    exact if_neg (not_lt.mpr h)
  rw [runFrom, hc, bind_ok, if_neg hop]

/-- A run over a block of instructions with the metered outcome `m`, `n` charges after the start
of the program: it does what `m` says when the fuel lasts, and what follows the block is `next`. -/
structure FollowsMeter (cfg : VmConfig) (n : Nat) (m : Metered Fault (Core σ))
    (r : Except Fault (VmOutcome × Machine σ))
    (next : Machine σ → Except Fault (VmOutcome × Machine σ)) : Prop where
  error : ∀ e, m.result = .error e → fuelFor (n + m.cost) ≤ cfg.fuelLimit.toNat → r = .error e
  ok : ∀ core, m.result = .ok core → fuelFor (n + m.cost) ≤ cfg.fuelLimit.toNat →
    ∃ vm, vm.core = core ∧ vm.fuelUsed = fuelFor (n + m.cost) ∧ r = next vm
  exhausted : ¬ fuelFor (n + m.cost) ≤ cfg.fuelLimit.toNat → r = .error (.error .fuelExhausted)

/-- The fuel after `n` charged instructions is `fuelFor n`; a block of instructions then does
what `exec` says, when the fuel lasts. -/
theorem runFrom_append (env : VmEnv σ) (cfg : VmConfig) {xs : List Instr}
    (hx : EmitFree xs) (ys : List Instr) (vm : Machine σ) {n : Nat}
    (hfuel : vm.fuelUsed = fuelFor n) (hn : fuelFor n ≤ cfg.fuelLimit.toNat) :
    FollowsMeter cfg n (exec (execOp env) xs vm.core) (runFrom env cfg (xs ++ ys) vm)
      (runFrom env cfg ys) := by
  induction xs generalizing vm n with
  | nil =>
    refine ⟨?_, ?_, ?_⟩
    · intro e he
      cases he
    · intro core hcore _
      cases hcore
      exact ⟨vm, rfl, hfuel, rfl⟩
    · intro h
      exact absurd hn h
  | cons ins xs ih =>
    obtain ⟨hop, hx'⟩ := emitFree_cons.mp hx
    have hnext : min (vm.fuelUsed + 1) u64Max = fuelFor (n + 1) := by
      rw [hfuel, fuelFor_succ]
    rw [List.cons_append]
    by_cases h1 : fuelFor (n + 1) ≤ cfg.fuelLimit.toNat
    · have hrun := runFrom_cons env cfg hop (xs ++ ys) vm (hnext ▸ h1)
      cases hstep : execOp env ins vm.core with
      | error e =>
        rw [exec_cons_error _ hstep]
        rw [hstep, bind_error] at hrun
        refine ⟨?_, ?_, ?_⟩
        · intro e' he' _
          cases he'
          exact hrun
        · intro core hcore
          cases hcore
        · intro h
          exact absurd h1 h
      | ok core =>
        rw [hstep, bind_ok, hnext] at hrun
        have hrec := ih hx' (traced cfg ins.op none
          ⟨core, vm.steps + 1, fuelFor (n + 1), vm.trace⟩) (n := n + 1) (by simp) h1
        rw [traced_core, ← hrun] at hrec
        rw [exec_cons_ok _ hstep]
        have hsum : n + (1 + (exec (execOp env) xs core).cost) =
            n + 1 + (exec (execOp env) xs core).cost := by omega
        refine ⟨?_, ?_, ?_⟩
        all_goals simp only [spend_bind_result, spend_bind_cost, hsum]
        · exact hrec.error
        · exact hrec.ok
        · exact hrec.exhausted
    · -- the charge of this instruction already fails, and the whole block costs no less
      have hcost : 1 ≤ (exec (execOp env) (ins :: xs) vm.core).cost := by
        rw [exec_cons]
        cases execOp env ins vm.core with
        | error e => exact le_rfl
        | ok core => exact Nat.le_add_right 1 _
      have hrest : ¬ fuelFor (n + (exec (execOp env) (ins :: xs) vm.core).cost) ≤
          cfg.fuelLimit.toNat := by
        have hmono := fuelFor_mono (Nat.add_le_add_left hcost n)
        omega
      have hrun := runFrom_cons_exhausted env cfg ins (xs ++ ys) vm (by rw [hnext]; omega)
      exact ⟨fun _ _ h => absurd h hrest, fun _ _ h => absurd h hrest, fun _ => hrun⟩

section Whole

variable (env : VmEnv σ) (cfg : VmConfig) (cas : σ) {xs : List Instr}
  (hx : EmitFree xs)

include hx

theorem run_append (ys : List Instr) :
    FollowsMeter cfg 0 (exec (execOp env) xs (initial cas)) (run env cfg cas (xs ++ ys))
      (runFrom env cfg ys) :=
  runFrom_append env cfg hx ys ⟨initial cas, 0, 0, []⟩ rfl (Nat.zero_le _)

/-- A run that fails before its end, fuel permitting. -/
theorem run_error (ys : List Instr) {e : Fault}
    (h : (exec (execOp env) xs (initial cas)).result = .error e)
    (hfuel : fuelFor (exec (execOp env) xs (initial cas)).cost ≤ cfg.fuelLimit.toNat) :
    run env cfg cas (xs ++ ys) = .error e :=
  (run_append env cfg cas hx ys).error e h (by rwa [Nat.zero_add])

/-- A run without the fuel for it. -/
theorem run_exhausted (ys : List Instr)
    (hfuel : ¬ fuelFor (exec (execOp env) xs (initial cas)).cost ≤ cfg.fuelLimit.toNat) :
    run env cfg cas (xs ++ ys) = .error (.error .fuelExhausted) :=
  (run_append env cfg cas hx ys).exhausted (by rwa [Nat.zero_add])

/-- A run that gets to its end, fuel permitting. -/
theorem run_ok {core : Core σ} (h : (exec (execOp env) xs (initial cas)).result = .ok core)
    (hfuel : fuelFor (exec (execOp env) xs (initial cas)).cost ≤ cfg.fuelLimit.toNat) :
    ∃ out vm, run env cfg cas xs = .ok (out, vm) ∧ vm.core = core := by
  obtain ⟨vm, hcore, -, hrun⟩ :=
    (run_append env cfg cas hx []).ok core h (by rwa [Nat.zero_add])
  rw [List.append_nil] at hrun
  exact ⟨_, _, hrun, hcore⟩

/-- The end of a program that comes to `EmitRc`. -/
theorem run_emitRc (hsign : ∀ b, env.signJws b ≠ []) {core : Core σ}
    (h : (exec (execOp env) xs (initial cas)).result = .ok core) (payload : List UInt8)
    (rest : List Instr) :
    (fuelFor ((exec (execOp env) xs (initial cas)).cost + 1) ≤ cfg.fuelLimit.toNat →
      Emits (run env cfg cas (xs ++ ⟨.emitRc, payload⟩ :: rest))) ∧
    (¬ fuelFor ((exec (execOp env) xs (initial cas)).cost + 1) ≤ cfg.fuelLimit.toNat →
      run env cfg cas (xs ++ ⟨.emitRc, payload⟩ :: rest) = .error (.error .fuelExhausted)) := by
  have hmeter := run_append env cfg cas hx (⟨.emitRc, payload⟩ :: rest)
  set cost := (exec (execOp env) xs (initial cas)).cost with hcostdef
  have hmono : fuelFor cost ≤ fuelFor (cost + 1) := fuelFor_mono (Nat.le_succ _)
  by_cases hcost : fuelFor cost ≤ cfg.fuelLimit.toNat
  · obtain ⟨vm, -, hused, hrun⟩ := hmeter.ok core h (by rwa [Nat.zero_add])
    rw [Nat.zero_add] at hused
    have hnext : min (vm.fuelUsed + 1) u64Max = fuelFor (cost + 1) := by
      rw [hused, fuelFor_succ]
    rw [hrun]
    constructor
    · intro hlast
      have hc : charge cfg vm = .ok { vm with fuelUsed := fuelFor (cost + 1) } := by
        unfold charge
        rw [hnext]
        exact if_neg (not_lt.mpr hlast)
      rw [runFrom, hc, bind_ok, if_pos rfl, emitRc]
      simp only [if_neg (hsign _)]
      exact ⟨_, _, rfl, rfl⟩
    · intro hlast
      exact runFrom_cons_exhausted env cfg _ _ vm (by rw [hnext]; exact not_le.mp hlast)
  · refine ⟨fun hlast => absurd (hmono.trans hlast) hcost, fun _ => ?_⟩
    exact hmeter.exhausted (by rwa [Nat.zero_add])

end Whole

/-! ## The store -/

/-- Where the instruction goes on, the store is `cas`. -/
def KeepsCas (cas : σ) (r : Except Fault (Core σ)) : Prop := ∀ core, r = .ok core → core.cas = cas

theorem keepsCas_error (cas : σ) (e : Fault) : KeepsCas cas (.error e) := by
  intro core h
  cases h

theorem keepsCas_ok {cas : σ} {core : Core σ} (h : core.cas = cas) : KeepsCas cas (.ok core) := by
  intro core' h'
  obtain rfl := Except.ok.inj h'
  exact h

theorem keepsCas_pop {core : Core σ} {cas : σ} (hcas : core.cas = cas)
    {k : Value × Core σ → Except Fault (Core σ)}
    (hk : ∀ v core', core'.cas = cas → KeepsCas cas (k (v, core'))) :
    KeepsCas cas (core.pop >>= k) := by
  unfold Core.pop
  split
  · exact keepsCas_error _ _
  · exact hk _ _ hcas

theorem keepsCas_popAs {α : Type} {op : Opcode} {cast : Value → Option α} {core : Core σ} {cas : σ}
    (hcas : core.cas = cas) {k : α × Core σ → Except Fault (Core σ)}
    (hk : ∀ a core', core'.cas = cas → KeepsCas cas (k (a, core'))) :
    KeepsCas cas (core.popAs op cast >>= k) := by
  have hpop : core.popAs op cast >>= k = core.pop >>= fun p =>
      (cast p.1).elim (.error (.error (.typeMismatch op))) fun a => k (a, p.2) := by
    unfold Core.popAs
    cases core.pop with
    | error e => rfl
    | ok p =>
      simp only [bind_ok]
      cases cast p.1 <;> rfl
  rw [hpop]
  refine keepsCas_pop hcas fun v core' hcas' => ?_
  show KeepsCas cas ((cast v).elim (.error (.error (.typeMismatch op))) fun a => k (a, core'))
  cases cast v with
  | none => exact keepsCas_error _ _
  | some a => exact hk _ _ hcas'

/-- Only `CasPut` changes the store. -/
theorem execOp_keepsCas (env : VmEnv σ) {ins : Instr} (hop : ins.op ≠ .casPut) (core : Core σ) :
    KeepsCas core.cas (execOp env ins core) := by
  rcases ins with ⟨op, payload⟩
  cases op <;> simp only [execOp, binI64, cmpI64, binBool, binNum, popNumFor, withText, pushNum,
    deny, invalidPayload]
  case casPut => exact absurd rfl hop
  -- what is left pops, splits on what it finds, and pushes or fails
  all_goals
    repeat' first
      | exact keepsCas_error _ _
      | exact keepsCas_ok (by assumption)
      | exact keepsCas_ok rfl
      | refine keepsCas_popAs rfl fun _ _ _ => ?_
      | refine keepsCas_popAs (by assumption) fun _ _ _ => ?_
      | refine keepsCas_pop rfl fun _ _ _ => ?_
      | refine keepsCas_pop (by assumption) fun _ _ _ => ?_
      | split

theorem exec_keepsCas (env : VmEnv σ) {code : List Instr} (hcode : ∀ ins ∈ code, ins.op ≠ .casPut)
    (core : Core σ) : KeepsCas core.cas (exec (execOp env) code core).result := by
  induction code generalizing core with
  | nil => exact keepsCas_ok rfl
  | cons ins code ih =>
    rw [exec_cons]
    cases hstep : execOp env ins core with
    | error e => exact keepsCas_error _ e
    | ok core' =>
      have hcas := execOp_keepsCas env (hcode ins List.mem_cons_self) core core' hstep
      rw [charged_ok_bind, spend_bind_result, ← hcas]
      exact ih (fun i hi => hcode i (List.mem_cons_of_mem _ hi)) core'

/-! ## Blocks of pushes and their folds -/

/-- Pushes the values in order; the last one ends on top. -/
def Core.pushAll (core : Core σ) (vs : List Value) : Core σ := vs.foldl Core.push core

@[simp] theorem Core.pushAll_nil (core : Core σ) : core.pushAll [] = core := rfl

@[simp] theorem Core.pushAll_cons (core : Core σ) (v : Value) (vs : List Value) :
    core.pushAll (v :: vs) = (core.push v).pushAll vs := rfl

theorem Core.pushAll_append (core : Core σ) (vs ws : List Value) :
    core.pushAll (vs ++ ws) = (core.pushAll vs).pushAll ws :=
  List.foldl_append

@[simp] theorem Core.pushAll_cas (core : Core σ) (vs : List Value) :
    (core.pushAll vs).cas = core.cas := by
  induction vs generalizing core with
  | nil => rfl
  | cons v vs ih => rw [Core.pushAll_cons, ih, Core.push_cas]

/-- The value a row of binary instructions makes of the values under it, the last two first. -/
def foldTop {α : Type} (f : α → α → α) : α → List α → α
  | x, [] => x
  | x, y :: ys => f x (foldTop f y ys)

/-- `n` binary instructions fold the top `n + 1` values into one. -/
theorem exec_fold (env : VmEnv σ) {α : Type} (inj : α → Value) (f : α → α → α) (ins : Instr)
    (hstep : ∀ (core : Core σ) a b,
      execOp env ins ((core.push (inj a)).push (inj b)) = .ok (core.push (inj (f a b))))
    (x : α) (xs : List α) (core : Core σ) (rest : List Instr) :
    exec (execOp env) (List.replicate xs.length ins ++ rest)
        ((core.push (inj x)).pushAll (xs.map inj)) =
      spend xs.length >>= fun _ => exec (execOp env) rest (core.push (inj (foldTop f x xs))) := by
  induction xs generalizing x core rest with
  | nil => simp [foldTop]
  | cons y ys ih =>
    have hlast : List.replicate (ys.length + 1) ins ++ rest =
        List.replicate ys.length ins ++ ins :: rest := by
      rw [List.replicate_succ', List.append_assoc, List.singleton_append]
    rw [List.length_cons, hlast, List.map_cons, Core.pushAll_cons, ih y (core.push (inj x)),
      exec_cons_ok _ (hstep core x (foldTop f y ys)), spend_bind_spend]
    rfl

theorem foldTop_and (b : Bool) (bs : List Bool) :
    foldTop (· && ·) b bs = (b :: bs).all id := by
  induction bs generalizing b with
  | nil => simp [foldTop]
  | cons c bs ih => rw [foldTop, ih, List.all_cons (l := c :: bs)]; rfl

theorem foldTop_or (b : Bool) (bs : List Bool) :
    foldTop (· || ·) b bs = (b :: bs).any id := by
  induction bs generalizing b with
  | nil => simp [foldTop]
  | cons c bs ih => rw [foldTop, ih, List.any_cons (l := c :: bs)]; rfl

end Ubl.Vm
