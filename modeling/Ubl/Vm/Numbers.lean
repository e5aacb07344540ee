import Ubl.Unc1.Checked
import Ubl.Vm.Fuel

/-!
# The numeric opcodes

`execNum` is a turn of the loop with the arithmetic in which making a ratio over zero and dividing by
zero panic, as they do in the machine.  It does what `execOp` does (`execNum_eq`): a numeric opcode
pushes a number or returns an error, and so does not end the process

    execOp env ins core = .error .panic ↔ ZeroLimit env ins core        (execOp_panic_iff)

but for `NumToRat` when its payload is the number zero and what it pops has a rational value.
-/

namespace Ubl.Vm

open BigEndian Metered ExceptLemmas
open Ubl.Unc1 (NumFault)

variable {σ : Type}

/-! ## The opcodes over checked arithmetic -/

def numericOps : List Opcode :=
  [.numFromDecimalStr, .numFromF64Bits, .numAdd, .numSub, .numMul, .numDiv, .numToDec, .numToRat,
    .numCompare]

def pushChecked (label : String) (r : Except NumFault Unc1.Num) (core : Core σ) :
    Except Fault (Core σ) :=
  match r with
  | .ok n => .ok (core.push (.num n))
  | .error (.err e) => deny (label ++ ": " ++ e)
  | .error .panic => .error .panic

def binChecked (env : VmEnv σ) (op : Opcode) (label : String)
    (f : Unc1.Num → Unc1.Num → Except NumFault Unc1.Num) (core : Core σ) :
    Except Fault (Core σ) := do
  let (b, core) ← popNumFor env op core
  let (a, core) ← popNumFor env op core
  pushChecked label (f a b) core

def execNum (env : VmEnv σ) (ins : Instr) (core : Core σ) : Except Fault (Core σ) :=
  match ins.op with
  | .numFromDecimalStr => do
    let (raw, core) ← core.popAs .numFromDecimalStr Value.asBytes
    withText .numFromDecimalStr raw fun decimal =>
      pushChecked "num_from_decimal_str" ((Unc1.fromDecimalStr decimal).mapError .err) core
  | .numFromF64Bits => do
    let (bits, core) ← core.popAs .numFromF64Bits Value.asI64
    if bits < 0 then invalidPayload .numFromF64Bits
    else pushChecked "num_from_f64_bits" (Unc1.Checked.fromF64Bits bits.toUInt64) core
  | .numAdd => binChecked env .numAdd "num_op_error" (Unc1.Checked.add env.parseBigInt) core
  | .numSub => binChecked env .numSub "num_op_error" (Unc1.Checked.sub env.parseBigInt) core
  | .numMul => binChecked env .numMul "num_op_error" (Unc1.Checked.mul env.parseBigInt) core
  | .numDiv => binChecked env .numDiv "num_op_error" (Unc1.Checked.div env.parseBigInt) core
  | .numToDec =>
    if ins.payload.length ≠ 5 then invalidPayload .numToDec
    else
      match Unc1.RoundingMode.fromU8 (ins.payload.getD 4 0) with
      | .error _ => invalidPayload .numToDec
      | .ok rm => do
        let (a, core) ← popNumFor env .numToDec core
        let scale := UInt32.ofNat (ofBE (ins.payload.take 4))
        pushChecked "num_to_dec" (Unc1.Checked.toDec env.parseBigInt a scale rm) core
  | .numToRat =>
    if ins.payload.length ≠ 8 then invalidPayload .numToRat
    else do
      let (a, core) ← popNumFor env .numToRat core
      let limitDen := UInt64.ofNat (ofBE ins.payload)
      pushChecked "num_to_rat" (Unc1.Checked.toRat env.parseBigInt a limitDen) core
  | .numCompare =>
    binChecked env .numCompare "num_compare" (Unc1.Checked.compare env.parseBigInt) core
  | _ => execOp env ins core

section Checked

variable (env : VmEnv σ)

theorem pushChecked_mapError (label : String) (r : Except String Unc1.Num) (core : Core σ) :
    pushChecked label (r.mapError .err) core = pushNum label r core := by
  cases r <;> rfl

theorem binChecked_eq {f : Unc1.Num → Unc1.Num → Except NumFault Unc1.Num}
    {g : Unc1.Num → Unc1.Num → Except String Unc1.Num} (h : ∀ a b, f a b = (g a b).mapError .err)
    (op : Opcode) (label : String) (core : Core σ) :
    binChecked env op label f core = binNum env op label g core := by
  unfold binChecked binNum
  refine bind_congr fun b => bind_congr fun a => ?_
  dsimp only
  rw [h, pushChecked_mapError]

/-- With partial arithmetic the opcodes do the same. -/
theorem execNum_eq (ins : Instr) (core : Core σ) : execNum env ins core = execOp env ins core := by
  rcases ins with ⟨op, payload⟩
  cases op with
  | numFromDecimalStr => simp only [execNum, execOp, pushChecked_mapError]
  | numFromF64Bits =>
    simp only [execNum, execOp, Unc1.Checked.fromF64Bits_eq, pushChecked_mapError]
  | numAdd => exact binChecked_eq env (fun a b => @Unc1.Checked.add_eq env.parseBigInt a b) _ _ _
  | numSub => exact binChecked_eq env (fun a b => @Unc1.Checked.sub_eq env.parseBigInt a b) _ _ _
  | numMul => exact binChecked_eq env (fun a b => @Unc1.Checked.mul_eq env.parseBigInt a b) _ _ _
  | numDiv => exact binChecked_eq env (fun a b => @Unc1.Checked.div_eq env.parseBigInt a b) _ _ _
  | numToDec =>
    simp only [execNum, execOp, Unc1.Checked.toDec_eq]
    split_ifs
    · rfl
    · cases Unc1.RoundingMode.fromU8 (payload.getD 4 0) with
      | error e => rfl
      | ok rm => exact bind_congr fun popped => pushChecked_mapError _ _ _
  | numToRat =>
    simp only [execNum, execOp, Unc1.Checked.toRat_eq]
    split_ifs
    · rfl
    · refine bind_congr fun popped => ?_
      cases Unc1.toRat env.parseBigInt popped.1 (UInt64.ofNat (ofBE payload)) with
      | ok n => rfl
      | error e => cases e <;> rfl
  | numCompare => exact binChecked_eq env (fun a b => @Unc1.Checked.compare_eq env.parseBigInt a b) _ _ _
  | _ => rfl

end Checked

/-! ## What an opcode comes to -/

/-- Popping fails with an error, and never with a panic. -/
theorem popAs_bind_cases {α : Type} {Q : Except Fault (Core σ) → Prop}
    (herror : ∀ e, Q (.error (.error e))) {op : Opcode} {cast : Value → Option α} {core : Core σ}
    {k : α × Core σ → Except Fault (Core σ)} (hk : ∀ a core', Q (k (a, core'))) :
    Q (core.popAs op cast >>= k) := by
  unfold Core.popAs Core.pop
  cases core.stack with
  | nil => exact herror _
  | cons v stack =>
    dsimp only
    cases cast v with
    | none => exact herror _
    | some a => exact hk a _

theorem pop_bind_cases {Q : Except Fault (Core σ) → Prop} (herror : ∀ e, Q (.error (.error e)))
    {core : Core σ} {k : Value × Core σ → Except Fault (Core σ)}
    (hk : ∀ v core', Q (k (v, core'))) : Q (core.pop >>= k) := by
  unfold Core.pop
  cases core.stack with
  | nil => exact herror _
  | cons v stack => exact hk v _

/-- What is pushed, if nothing fails, is a number. -/
def PushesNum (r : Except Fault (Core σ)) : Prop :=
  ∀ core', r = .ok core' → ∃ (n : Unc1.Num) (core : Core σ), core' = core.push (.num n)

theorem pushesNum_error (e : Fault) : PushesNum (.error e : Except Fault (Core σ)) := by
  intro core' h
  cases h

theorem pushesNum_pushNum (label : String) (r : Except String Unc1.Num) (core : Core σ) :
    PushesNum (pushNum label r core) := by
  cases r with
  | error e => exact pushesNum_error _
  | ok n =>
    intro core' h
    obtain rfl := Except.ok.inj h
    exact ⟨n, core, rfl⟩

variable (env : VmEnv σ)

theorem execOp_pushesNum {ins : Instr} (hop : ins.op ∈ numericOps) (core : Core σ) :
    PushesNum (execOp env ins core) := by
  have hpop {α : Type} {op : Opcode} {cast : Value → Option α} {core : Core σ}
      {k : α × Core σ → Except Fault (Core σ)} (hk : ∀ a core', PushesNum (k (a, core'))) :
      PushesNum (core.popAs op cast >>= k) :=
    popAs_bind_cases (fun _ => pushesNum_error _) hk
  have hbin (op : Opcode) (label : String) (f : Unc1.Num → Unc1.Num → Except String Unc1.Num) :
      PushesNum (binNum env op label f core) :=
    hpop fun b core' => hpop fun a core'' => pushesNum_pushNum label (f a b) core''
  rcases ins with ⟨op, payload⟩
  simp only [numericOps, List.mem_cons, List.not_mem_nil, or_false] at hop
  rcases hop with rfl | rfl | rfl | rfl | rfl | rfl | rfl | rfl | rfl
  · refine hpop fun raw core' => ?_
    show PushesNum (withText _ raw _)
    unfold withText
    split
    · exact pushesNum_pushNum _ _ _
    · exact pushesNum_error _
  · refine hpop fun bits core' => ?_
    dsimp only
    split_ifs
    · exact pushesNum_error _
    · exact pushesNum_pushNum _ _ _
  · exact hbin _ _ _
  · exact hbin _ _ _
  · exact hbin _ _ _
  · exact hbin _ _ _
  · simp only [execOp]
    split_ifs
    · exact pushesNum_error _
    · split
      · exact pushesNum_error _
      · exact hpop fun a core' => pushesNum_pushNum _ _ _
  · simp only [execOp]
    split_ifs
    · exact pushesNum_error _
    · refine hpop fun a core' => ?_
      dsimp only
      split
      · exact pushesNum_pushNum "" (.ok _) core'
      · exact pushesNum_error _
      · exact pushesNum_error _
  · exact hbin _ _ _

/-- `NumToRat` with the limit zero, and a number with a rational value on top of the stack. -/
def ZeroLimit (ins : Instr) (core : Core σ) : Prop :=
  ins.op = .numToRat ∧ ins.payload.length = 8 ∧ UInt64.ofNat (ofBE ins.payload) = 0 ∧
    ∃ a core' r, popNumFor env .numToRat core = .ok (a, core') ∧
      Unc1.toRational env.parseBigInt a = .ok r

theorem numToRat_panic_iff (payload : List UInt8) (core : Core σ) :
    execOp env ⟨.numToRat, payload⟩ core = .error .panic ↔ ZeroLimit env ⟨.numToRat, payload⟩ core := by
  simp only [execOp, ZeroLimit]
  by_cases hlength : payload.length = 8
  · rw [if_neg (not_not.mpr hlength)]
    cases hpop : popNumFor env .numToRat core with
    | error e =>
      have hne : e ≠ .panic := by
        rintro rfl
        have hnot : ¬ (popNumFor env .numToRat core >>= fun p => .ok p.2) = .error .panic :=
          @popAs_bind_cases σ _ (· ≠ .error .panic) (by simp) _ _ core (fun p => .ok p.2) (by simp)
        exact hnot (by rw [hpop]; rfl)
      simp [hne]
    | ok popped =>
      obtain ⟨a, core'⟩ := popped
      have hpanic := @Unc1.Checked.toRat_panics_iff env.parseBigInt a (UInt64.ofNat (ofBE payload))
      simp only [bind_ok]
      refine Iff.trans ?_ (hpanic.trans ?_)
      · cases Unc1.toRat env.parseBigInt a (UInt64.ofNat (ofBE payload)) with
        | ok n => simp
        | error e => cases e <;> simp [deny]
      · simp [hlength]
  · rw [if_pos hlength]
    simp [hlength, invalidPayload]

/-- No other opcode panics. -/
theorem execOp_ne_panic {ins : Instr} (hop : ins.op ≠ .numToRat) (core : Core σ) :
    execOp env ins core ≠ .error .panic := by
  have hpop {core : Core σ} {k : Value × Core σ → Except Fault (Core σ)}
      (hk : ∀ v core', k (v, core') ≠ .error .panic) : core.pop >>= k ≠ .error .panic :=
    @pop_bind_cases σ (· ≠ .error .panic) nofun core k hk
  have hpopAs {α : Type} {op : Opcode} {cast : Value → Option α} {core : Core σ}
      {k : α × Core σ → Except Fault (Core σ)} (hk : ∀ a core', k (a, core') ≠ .error .panic) :
      core.popAs op cast >>= k ≠ .error .panic :=
    @popAs_bind_cases σ α (· ≠ .error .panic) nofun op cast core k hk
  have hok (core : Core σ) : (.ok core : Except Fault (Core σ)) ≠ .error .panic := nofun
  have herror (e : ExecError) : (.error (.error e) : Except Fault (Core σ)) ≠ .error .panic := nofun
  rcases ins with ⟨op, payload⟩
  cases op <;> simp only [execOp, binI64, cmpI64, binBool, binNum, popNumFor, withText, pushNum,
    deny, invalidPayload]
  case numToRat => exact absurd rfl hop
  -- what is left pops, splits on what it finds, and pushes or fails
  all_goals
    repeat' first
      | exact hok _
      | exact herror _
      | refine hpopAs fun _ _ => ?_
      | refine hpop fun _ _ => ?_
      | split

theorem execOp_panic_iff (ins : Instr) (core : Core σ) :
    execOp env ins core = .error .panic ↔ ZeroLimit env ins core := by
  by_cases hop : ins.op = .numToRat
  · obtain ⟨op, payload⟩ := ins
    obtain rfl : op = .numToRat := hop
    exact numToRat_panic_iff env payload core
  · exact iff_of_false (execOp_ne_panic env hop core) (fun h => hop h.1)

/-! ## Runs -/

/-- A run that panics has come to an instruction that does. -/
theorem runFrom_panic {cfg : VmConfig} {code : List Instr} {vm : Machine σ}
    (h : runFrom env cfg code vm = .error .panic) : ∃ pre ins post core,
      code = pre ++ ins :: post ∧ EmitFree pre ∧
        (exec (execOp env) pre vm.core).result = .ok core ∧ ZeroLimit env ins core := by
  induction code generalizing vm with
  | nil => cases h
  | cons ins code ih =>
    simp only [runFrom, charge] at h
    by_cases hfuel : min (vm.fuelUsed + 1) u64Max > cfg.fuelLimit.toNat
    · rw [if_pos hfuel] at h
      cases h
    rw [if_neg hfuel, bind_ok] at h
    by_cases hemit : ins.op = .emitRc
    · -- the end of a run denies or returns
      rw [if_pos hemit] at h
      simp only [emitRc] at h
      split_ifs at h
      cases h
    · rw [if_neg hemit] at h
      cases hstep : execOp env ins vm.core with
      | error e =>
        rw [hstep, bind_error] at h
        obtain rfl := Except.error.inj h
        exact ⟨[], ins, code, vm.core, rfl, emitFree_nil, rfl, (execOp_panic_iff env ins _).mp hstep⟩
      | ok core' =>
        rw [hstep, bind_ok] at h
        obtain ⟨pre, ins', post, core, rfl, hfree, hexec, hzero⟩ := ih h
        refine ⟨ins :: pre, ins', post, core, rfl, emitFree_cons.mpr ⟨hemit, hfree⟩, ?_, hzero⟩
        rw [exec_cons_ok _ hstep, spend_bind_result]
        rwa [traced_core] at hexec

/-- The opcode pushes a number or returns an error. -/
def Completes (r : Except Fault (Core σ)) : Prop :=
  (∃ (n : Unc1.Num) (core : Core σ), r = .ok (core.push (.num n))) ∨ ∃ e, r = .error (.error e)

/-- A numeric opcode completes but where `NumToRat` is given the limit zero and a number with a
rational value; its loop ends with any limit, and a program all of whose instructions avoid the limit
zero does not panic. -/
theorem numericOps_complete_iff {σ : Type} (env : VmEnv σ) :
    (∀ ins core, ins.op ∈ numericOps →
      (Completes (execNum env ins core) ↔ ¬ ZeroLimit env ins core)) ∧
    (∀ ins core, execNum env ins core = execOp env ins core) ∧
    (∀ (r : ℚ) (limitDen : UInt64),
      Fueled.Settles (fun turns => Unc1.approximateTurns limitDen.toNat turns 0 1 1 0 r)
        (.ok (Unc1.approximateLoop limitDen.toNat r.den 0 1 1 0 r))) ∧
    ∀ cfg cas code,
      (∀ pre ins post core, code = pre ++ ins :: post → EmitFree pre →
        (exec (execOp env) pre (initial cas)).result = .ok core → ¬ ZeroLimit env ins core) →
      run env cfg cas code ≠ .error .panic := by
  refine ⟨fun ins core hop => ?_, execNum_eq env, fun r limitDen => Unc1.approximateTurns_settles,
    fun cfg cas code h hpanic => ?_⟩
  · rw [execNum_eq, ← execOp_panic_iff]
    have hpushes := execOp_pushesNum env hop core
    cases hexec : execOp env ins core with
    | ok core' =>
      obtain ⟨n, core'', rfl⟩ := hpushes core' hexec
      exact iff_of_true (.inl ⟨n, core'', rfl⟩) nofun
    | error e =>
      cases e with
      | error e => exact iff_of_true (.inr ⟨e, rfl⟩) nofun
      | panic => exact iff_of_false (by rintro (⟨n, core', h⟩ | ⟨e, h⟩) <;> cases h) (fun h => h rfl)
  · obtain ⟨pre, ins, post, core, hcode, hfree, hexec, hzero⟩ := runFrom_panic env hpanic
    exact h pre ins post core hcode hfree hexec hzero

/-- A machine that reads integers. -/
def reading : VmEnv Unit := { forgetful with parseBigInt := Unc1.parseNumeral }

/-- `NUM_TO_RAT 1` on an integer. -/
theorem numericOps_complete_sample :
    Completes (execNum reading ⟨.numToRat, toBE 8 1⟩ ((initial ()).push (.i64 1))) := by
  refine ((numericOps_complete_iff reading).1 _ _ (by decide)).mpr fun h => ?_
  exact absurd h.2.2.1 (by decide)

/-- `CONST_I64 1; NUM_TO_RAT 0`. -/
theorem zero_limit_panics :
    run reading ⟨10, false, false⟩ () [⟨.constI64, i64ToBe 1⟩, ⟨.numToRat, toBE 8 0⟩] =
        .error .panic ∧
      ¬ Completes (execNum reading ⟨.numToRat, toBE 8 0⟩ ((initial ()).push (.i64 1))) := by
  have hzero : ZeroLimit reading ⟨.numToRat, toBE 8 0⟩ ((initial ()).push (.i64 1)) := by
    refine ⟨rfl, by decide, by decide, .int (toString (1 : Int)) none, initial (), 1, rfl, ?_⟩
    exact Unc1.toRational_int Unc1.parseNumeral_toString 1 none
  have hpanic := (execOp_panic_iff reading _ _).mpr hzero
  constructor
  · have hconst : execOp reading ⟨.constI64, i64ToBe 1⟩ (initial ()) =
        .ok ((initial ()).push (.i64 1)) := rfl
    have hexec : exec (execOp reading) [⟨.constI64, i64ToBe 1⟩, ⟨.numToRat, toBE 8 0⟩] (initial ()) =
        spend 1 >>= fun _ => charged (.error .panic) := by
      rw [exec_cons_ok _ hconst, exec_cons_error _ hpanic]
    have hfree : EmitFree [⟨.constI64, i64ToBe 1⟩, ⟨.numToRat, toBE 8 0⟩] := by simp
    refine run_error reading _ () hfree [] (by rw [hexec]; rfl) ?_
    rw [hexec]
    decide
  · rw [execNum_eq, hpanic]
    rintro (⟨n, core, h⟩ | ⟨e, h⟩) <;> cases h

end Ubl.Vm
