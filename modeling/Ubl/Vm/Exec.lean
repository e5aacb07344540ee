import Ubl.Lib.Metered
import Ubl.Lib.Utf8
import Ubl.Unc1.Arith
import Ubl.Vm.Canon
import Ubl.Vm.Tlv

/-!
# `ubl_vm`: the machine

A stack machine over a content-addressed store.  `execOp` is one turn of the loop of
`Vm::run` for every opcode but `EmitRc`, which ends the run; `run` adds what the loop does
around it: one unit of fuel an instruction, the step counter and the trace.

The code the machine runs is straight-line, so away from `EmitRc` it is `Metered.exec` of
`execOp`, cut off where the fuel ends (`run_append`).
-/

namespace Ubl.Vm

open BigEndian Utf8 Metered

/-- Textual `b3:...` or `cidv1:...`. -/
structure Cid where
  text : String
deriving DecidableEq

inductive Value where
  | i64 (v : Int64)
  | bytes (b : List UInt8)
  | json (v : Json)
  | num (n : Unc1.Num)
  | cid (c : Cid)
  | bool (b : Bool)
  | unit

inductive ExecError where
  | fuelExhausted
  | stackUnderflow (op : Opcode)
  | typeMismatch (op : Opcode)
  | invalidPayload (op : Opcode)
  | deny (reason : String)
deriving DecidableEq

/-- How a run ends when it does not return `Ok`. -/
inductive Fault where
  | error (e : ExecError)
  | panic
deriving DecidableEq

structure VmConfig where
  fuelLimit : UInt64
  ghost : Bool
  trace : Bool

structure TraceStep where
  step : Nat
  op : Opcode
  fuelAfter : Nat
  stackDepth : Nat
  note : Option String

/-- The providers of a machine, the crates it calls and its fixed inputs.  The clock does not
move during a run. -/
structure VmEnv (σ : Type) where
  /-- `CasProvider::put`. -/
  put : σ → List UInt8 → σ × Cid
  /-- `CasProvider::get`. -/
  get : σ → Cid → Option (List UInt8)
  /-- `SignProvider::sign_jws`. -/
  signJws : List UInt8 → List UInt8
  /-- `CanonProvider::canon`. -/
  canon : Json → Json
  /-- `serde_json::from_slice`. -/
  fromSlice : List UInt8 → Option Json
  /-- `serde_json::to_vec`. -/
  toVec : Json → List UInt8
  /-- `serde_json::from_value::<Num>`. -/
  numFromValue : Json → Option Unc1.Num
  /-- `BigInt::from_str`. -/
  parseBigInt : String → Except String Int
  /-- `blake3::hash`. -/
  blake3 : List UInt8 → List UInt8
  /-- Ed25519 verification of a message with a 64-byte signature under a 32-byte key. -/
  verify : (pubkey sig msg : List UInt8) → Bool
  /-- `URL_SAFE_NO_PAD.encode`. -/
  base64 : List UInt8 → String
  /-- Seconds since the epoch, as `i64`. -/
  now : Int64
  inputs : List Cid
  /-- Bytes of the chip's NRF-1 representation. -/
  bodySize : UInt64

/-- What an instruction reads and changes.  The head of `stack` is its top. -/
structure Core (σ : Type) where
  stack : List Value
  cas : σ
  rcBody : Json
  proofs : List Cid

variable {σ : Type}

namespace Core

def push (core : Core σ) (v : Value) : Core σ := { core with stack := v :: core.stack }

@[simp] theorem push_stack (core : Core σ) (v : Value) :
    (core.push v).stack = v :: core.stack := rfl

@[simp] theorem push_cas (core : Core σ) (v : Value) : (core.push v).cas = core.cas := rfl

def pop (core : Core σ) : Except Fault (Value × Core σ) :=
  match core.stack with
  | [] => .error (.error (.stackUnderflow .drop))
  | v :: stack => .ok (v, { core with stack })

@[simp] theorem pop_push (core : Core σ) (v : Value) : (core.push v).pop = .ok (v, core) := rfl

/-- Pops a value and takes it at one of the types the opcode works on. -/
def popAs {α : Type} (op : Opcode) (cast : Value → Option α) (core : Core σ) :
    Except Fault (α × Core σ) :=
  match core.pop with
  | .error e => .error e
  | .ok (v, core) =>
    match cast v with
    | some a => .ok (a, core)
    | none => .error (.error (.typeMismatch op))

theorem popAs_push {α : Type} {op : Opcode} {cast : Value → Option α} {v : Value} {a : α}
    (h : cast v = some a) (core : Core σ) : popAs op cast (core.push v) = .ok (a, core) := by
  simp [popAs, h]

theorem popAs_push_none {α : Type} {op : Opcode} {cast : Value → Option α} {v : Value}
    (h : cast v = none) (core : Core σ) :
    popAs op cast (core.push v) = .error (.error (.typeMismatch op)) := by
  simp [popAs, h]

end Core

namespace Value

def asI64 : Value → Option Int64
  | .i64 v => some v
  | _ => none

def asBool : Value → Option Bool
  | .bool b => some b
  | _ => none

def asBytes : Value → Option (List UInt8)
  | .bytes b => some b
  | _ => none

def asCid : Value → Option Cid
  | .cid c => some c
  | _ => none

def asJson : Value → Option Json
  | .json v => some v
  | _ => none

/-- The operands of `EqBytes`. -/
def asText : Value → Option (List UInt8)
  | .bytes b => some b
  | .cid c => some (utf8 c.text)
  | _ => none

/-- The operand of `SetRcBody`. -/
def asRcBody : Value → Option Json
  | .json v => some v
  | .num n => some (Unc1.toValue n)
  | _ => none

end Value

/-- `pop_num_for`. -/
def popNumFor (env : VmEnv σ) (op : Opcode) (core : Core σ) : Except Fault (Unc1.Num × Core σ) :=
  core.popAs op fun
    | .num n => some n
    | .i64 v => some (.int (toString v.toInt) none)
    | .json v => env.numFromValue v
    | _ => none

/-! ## Machine integers -/

def i64ToBe (v : Int64) : List UInt8 := toBE 8 v.toUInt64.toNat

def i64FromBe (b : List UInt8) : Int64 := (UInt64.ofNat (ofBE b)).toInt64

@[simp] theorem length_i64ToBe (v : Int64) : (i64ToBe v).length = 8 := length_toBE 8 _

@[simp] theorem i64FromBe_i64ToBe (v : Int64) : i64FromBe (i64ToBe v) = v := by
  have h : v.toUInt64.toNat < 256 ^ 8 := v.toUInt64.toNat_lt
  rw [i64FromBe, i64ToBe, ofBE_toBE_of_lt h, UInt64.ofNat_toNat]
  rfl

/-- An integer brought into the range of `i64`, as the `saturating_` operations do. -/
def saturate (z : Int) : Int64 :=
  if z > Int64.maxValue.toInt then .maxValue
  else if z < Int64.minValue.toInt then .minValue
  else .ofInt z

/-- The comparison byte of `CmpI64`: EQ, NE, LT, LE, GT, GE. -/
def cmp (op : UInt8) (a b : Int64) : Option Bool :=
  match op.toNat with
  | 0 => some (a == b)
  | 1 => some (a != b)
  | 2 => some (decide (a < b))
  | 3 => some (decide (a ≤ b))
  | 4 => some (decide (a > b))
  | 5 => some (decide (a ≥ b))
  | _ => none

/-! ## One instruction -/

def deny (reason : String) : Except Fault (Core σ) := .error (.error (.deny reason))

def invalidPayload (op : Opcode) : Except Fault (Core σ) := .error (.error (.invalidPayload op))

/-- `AddI64`, `SubI64`, `MulI64` and `DivI64`: `b` is on top of `a`. -/
def binI64 (op : Opcode) (f : Int64 → Int64 → Int64) (core : Core σ) : Except Fault (Core σ) := do
  let (b, core) ← core.popAs op Value.asI64
  let (a, core) ← core.popAs op Value.asI64
  .ok (core.push (.i64 (f a b)))

/-- `CmpI64` and `CmpTimestamp`. -/
def cmpI64 (op : Opcode) (payload : List UInt8) (core : Core σ) : Except Fault (Core σ) := do
  match payload with
  | [byte] => do
    let (b, core) ← core.popAs op Value.asI64
    let (a, core) ← core.popAs op Value.asI64
    match cmp byte a b with
    | some ok => .ok (core.push (.bool ok))
    | none => invalidPayload op
  | _ => invalidPayload op

/-- `BoolOr` and `BoolAnd`. -/
def binBool (op : Opcode) (f : Bool → Bool → Bool) (core : Core σ) : Except Fault (Core σ) := do
  let (b, core) ← core.popAs op Value.asBool
  let (a, core) ← core.popAs op Value.asBool
  .ok (core.push (.bool (f a b)))

/-- Pushes the number of an `unc1` operation, or denies with its error text. -/
def pushNum (label : String) (r : Except String Unc1.Num) (core : Core σ) : Except Fault (Core σ) :=
  match r with
  | .ok n => .ok (core.push (.num n))
  | .error e => deny (label ++ ": " ++ e)

/-- `NumAdd`, `NumSub`, `NumMul`, `NumDiv` and `NumCompare`. -/
def binNum (env : VmEnv σ) (op : Opcode) (label : String) (f : Unc1.Num → Unc1.Num → Except String Unc1.Num)
    (core : Core σ) : Except Fault (Core σ) := do
  let (b, core) ← popNumFor env op core
  let (a, core) ← popNumFor env op core
  pushNum label (f a b) core

/-- The opcodes whose payload is a UTF-8 text. -/
def withText (op : Opcode) (payload : List UInt8) (k : String → Except Fault (Core σ)) :
    Except Fault (Core σ) :=
  match fromUtf8 payload with
  | some s => k s
  | none => invalidPayload op

/-- What `JsonGetKey` pushes for the value of a key. -/
def getKeyValue (env : VmEnv σ) (extracted : Option Json) : Option Value :=
  match extracted with
  | none => none
  | some v =>
    match v.asI64 with
    | some n => some (.i64 n)
    | none =>
      if (v.get "@num").isSome then (env.numFromValue v).map .num else none

def execOp (env : VmEnv σ) (ins : Instr) (core : Core σ) : Except Fault (Core σ) :=
  match ins.op with
  | .constI64 =>
    if ins.payload.length ≠ 8 then invalidPayload .constI64
    else .ok (core.push (.i64 (i64FromBe ins.payload)))
  | .constBytes => .ok (core.push (.bytes ins.payload))
  | .drop => do
    let (_, core) ← core.pop
    .ok core
  | .pushInput =>
    if ins.payload.length ≠ 2 then invalidPayload .pushInput
    else
      match env.inputs[ofBE ins.payload]? with
      | some cid => .ok (core.push (.cid cid))
      | none => invalidPayload .pushInput
  | .addI64 => binI64 .addI64 (fun a b => saturate (a.toInt + b.toInt)) core
  | .subI64 => binI64 .subI64 (fun a b => saturate (a.toInt - b.toInt)) core
  | .mulI64 => binI64 .mulI64 (fun a b => saturate (a.toInt * b.toInt)) core
  | .cmpI64 => cmpI64 .cmpI64 ins.payload core
  | .assertTrue => do
    let (v, core) ← core.popAs .assertTrue Value.asBool
    if v then .ok core else deny "assert_false"
  | .casGet => do
    let (cid, core) ← core.popAs .casGet Value.asCid
    match env.get core.cas cid with
    | some bytes => .ok (core.push (.bytes bytes))
    | none => deny "cas_get_not_found"
  | .casPut => do
    let (bytes, core) ← core.popAs .casPut Value.asBytes
    let (cas, cid) := env.put core.cas bytes
    .ok (({ core with cas } : Core σ).push (.cid cid))
  | .jsonNormalize => do
    let (bytes, core) ← core.popAs .jsonNormalize Value.asBytes
    match env.fromSlice bytes with
    | some v => .ok (core.push (.json (env.canon v)))
    | none => deny "json_parse_error"
  | .jsonValidate => do
    let (v, core) ← core.popAs .jsonValidate Value.asJson
    .ok (core.push (.json v))
  | .jsonGetKey =>
    withText .jsonGetKey ins.payload fun key => do
      let (v, core) ← core.popAs .jsonGetKey Value.asJson
      match getKeyValue env (v.get key) with
      | some value => .ok (core.push value)
      | none => deny "json_key_missing_or_not_i64"
  | .hashBlake3 => do
    let (bytes, core) ← core.popAs .hashBlake3 Value.asBytes
    .ok (core.push (.bytes (env.blake3 bytes)))
  | .setRcBody => do
    let (v, core) ← core.popAs .setRcBody Value.asRcBody
    .ok { core with rcBody := v }
  | .attachProof => do
    let (cid, core) ← core.popAs .attachProof Value.asCid
    .ok { core with proofs := core.proofs ++ [cid] }
  -- signing is done in `EmitRc`
  | .signDefault => .ok core
  | .dup => do
    let (v, core) ← core.pop
    .ok ((core.push v).push v)
  | .swap => do
    let (b, core) ← core.pop
    let (a, core) ← core.pop
    .ok ((core.push b).push a)
  | .verifySig => do
    let (pubkey, core) ← core.popAs .verifySig Value.asBytes
    let (sig, core) ← core.popAs .verifySig Value.asBytes
    let (msg, core) ← core.popAs .verifySig Value.asBytes
    let valid := pubkey.length == 32 && sig.length == 64 && env.verify pubkey sig msg
    .ok (core.push (.bool valid))
  | .numFromDecimalStr => do
    let (raw, core) ← core.popAs .numFromDecimalStr Value.asBytes
    withText .numFromDecimalStr raw fun decimal =>
      pushNum "num_from_decimal_str" (Unc1.fromDecimalStr decimal) core
  | .numFromF64Bits => do
    let (bits, core) ← core.popAs .numFromF64Bits Value.asI64
    if bits < 0 then invalidPayload .numFromF64Bits
    else pushNum "num_from_f64_bits" (Unc1.fromF64Bits bits.toUInt64) core
  | .numAdd => binNum env .numAdd "num_op_error" (Unc1.add env.parseBigInt) core
  | .numSub => binNum env .numSub "num_op_error" (Unc1.sub env.parseBigInt) core
  | .numMul => binNum env .numMul "num_op_error" (Unc1.mul env.parseBigInt) core
  | .numDiv => binNum env .numDiv "num_op_error" (Unc1.div env.parseBigInt) core
  | .numToDec =>
    if ins.payload.length ≠ 5 then invalidPayload .numToDec
    else
      match Unc1.RoundingMode.fromU8 (ins.payload.getD 4 0) with
      | .error _ => invalidPayload .numToDec
      | .ok rm => do
        let (a, core) ← popNumFor env .numToDec core
        let scale := UInt32.ofNat (ofBE (ins.payload.take 4))
        pushNum "num_to_dec" (Unc1.toDec env.parseBigInt a scale rm) core
  | .numToRat =>
    if ins.payload.length ≠ 8 then invalidPayload .numToRat
    else do
      let (a, core) ← popNumFor env .numToRat core
      match Unc1.toRat env.parseBigInt a (UInt64.ofNat (ofBE ins.payload)) with
      | .ok n => .ok (core.push (.num n))
      | .error (.err e) => deny ("num_to_rat: " ++ e)
      | .error .panic => .error .panic
  | .numWithUnit =>
    withText .numWithUnit ins.payload fun unit => do
      let (a, core) ← popNumFor env .numWithUnit core
      pushNum "num_with_unit" (a.withUnit unit) core
  | .numAssertUnit =>
    withText .numAssertUnit ins.payload fun unit => do
      let (a, core) ← popNumFor env .numAssertUnit core
      pushNum "num_assert_unit" ((a.assertUnit unit).map fun _ => a) core
  | .numCompare => binNum env .numCompare "num_compare" (Unc1.compare env.parseBigInt) core
  | .jsonGetKeyBytes =>
    withText .jsonGetKeyBytes ins.payload fun key => do
      let (v, core) ← core.popAs .jsonGetKeyBytes Value.asJson
      match (v.get key).bind Json.asStr with
      | some s => .ok (core.push (.bytes (utf8 s)))
      | none => deny ("json_key_missing_or_not_string: " ++ key)
  | .jsonHasKey =>
    withText .jsonHasKey ins.payload fun key => do
      let (v, core) ← core.popAs .jsonHasKey Value.asJson
      .ok (core.push (.bool (((v.get key).map fun val => !val.isNull).getD false)))
  | .eqBytes => do
    let (b, core) ← core.popAs .eqBytes Value.asText
    let (a, core) ← core.popAs .eqBytes Value.asText
    .ok (core.push (.bool (a == b)))
  | .pushBodySize => .ok (core.push (.i64 env.bodySize.toInt64))
  | .pushBool =>
    match ins.payload with
    | [byte] => .ok (core.push (.bool (byte != 0)))
    | _ => invalidPayload .pushBool
  | .boolNot => do
    let (b, core) ← core.popAs .boolNot Value.asBool
    .ok (core.push (.bool !b))
  | .boolOr => binBool .boolOr (· || ·) core
  | .boolAnd => binBool .boolAnd (· && ·) core
  | .boolToI64 => do
    let (b, core) ← core.popAs .boolToI64 Value.asBool
    .ok (core.push (.i64 (if b then 1 else 0)))
  | .divI64 =>
    binI64 .divI64 (fun a b => if b = 0 then 0 else saturate (a.toInt.tdiv b.toInt)) core
  | .pushTimestamp => .ok (core.push (.i64 env.now))
  | .cmpTimestamp => cmpI64 .cmpTimestamp ins.payload core
  -- ends the run, see `emitRc`
  | .emitRc => .ok core

/-! ## The loop -/

/-- A `Vm` between two instructions. -/
structure Machine (σ : Type) where
  core : Core σ
  steps : Nat
  fuelUsed : Nat
  trace : List TraceStep

structure VmOutcome where
  rcCid : Option Cid
  rcSig : Option String
  rcPayloadCid : Option Cid
  steps : Nat
  fuelUsed : Nat
  trace : List TraceStep

/-- `u64::MAX`. -/
def u64Max : Nat := 2 ^ 64 - 1

/-- `charge(1)`. -/
def charge (cfg : VmConfig) (vm : Machine σ) : Except Fault (Machine σ) :=
  let next := min (vm.fuelUsed + 1) u64Max
  if next > cfg.fuelLimit.toNat then .error (.error .fuelExhausted)
  else .ok { vm with fuelUsed := next }

def traced (cfg : VmConfig) (op : Opcode) (note : Option String) (vm : Machine σ) : Machine σ :=
  if cfg.trace then
    { vm with trace := vm.trace ++ [⟨vm.steps, op, vm.fuelUsed, vm.core.stack.length, note⟩] }
  else vm

/-- The JSON of an `RcPayload`, fields in declaration order. -/
def rcPayload (env : VmEnv σ) (cfg : VmConfig) (vm : Machine σ) : Json :=
  .object
    [("subject_cid", .null),
     ("engine", .string "rb-vm/0.1.0"),
     ("ghost", .bool cfg.ghost),
     ("inputs", .array (env.inputs.map fun c => .string c.text)),
     ("proofs", .array (vm.core.proofs.map fun c => .string c.text)),
     ("steps", .number (.posInt (UInt64.ofNat vm.steps))),
     ("fuel_used", .number (.posInt (UInt64.ofNat vm.fuelUsed))),
     ("policy_id", .string "default:v1"),
     ("decision", .object [("status", .string "ok")]),
     ("body", vm.core.rcBody)]

def emitRc (env : VmEnv σ) (cfg : VmConfig) (vm : Machine σ) :
    Except Fault (VmOutcome × Machine σ) :=
  let vm := traced cfg .emitRc (some "emit_rc") vm
  let bytes := env.toVec (env.canon (rcPayload env cfg vm))
  let sigBytes := env.signJws bytes
  if sigBytes = [] then .error (.error (.deny "emit_rc_missing_signature"))
  else
    let (cas, cid) := env.put vm.core.cas bytes
    .ok (⟨some cid, some ("ed25519:" ++ env.base64 sigBytes), some cid, vm.steps, vm.fuelUsed,
      vm.trace⟩, { vm with core := { vm.core with cas }, trace := [] })

/-- `Vm::run`: the outcome and the machine it leaves behind. -/
def runFrom (env : VmEnv σ) (cfg : VmConfig) :
    List Instr → Machine σ → Except Fault (VmOutcome × Machine σ)
  | [], vm => .ok (⟨none, none, none, vm.steps, vm.fuelUsed, vm.trace⟩, { vm with trace := [] })
  | ins :: code, vm => do
    let vm ← charge cfg vm
    let vm := { vm with steps := vm.steps + 1 }
    if ins.op = .emitRc then emitRc env cfg vm
    else
      let core ← execOp env ins vm.core
      runFrom env cfg code (traced cfg ins.op none { vm with core })

/-- The core of `Vm::new`. -/
def initial (cas : σ) : Core σ := ⟨[], cas, .object [], []⟩

/-- `Vm::new(cfg, cas, …).with_body_size(…).run(code)`. -/
def run (env : VmEnv σ) (cfg : VmConfig) (cas : σ) (code : List Instr) :
    Except Fault (VmOutcome × Machine σ) :=
  runFrom env cfg code ⟨initial cas, 0, 0, []⟩

/-- The run has come to `EmitRc` and has returned its receipt. -/
def Emits (r : Except Fault (VmOutcome × Machine σ)) : Prop :=
  ∃ out vm, r = .ok (out, vm) ∧ out.rcCid.isSome

/-- The fuel a program of `n` charged instructions needs: the counter saturates, so the greatest
limit is enough for every program. -/
def fuelFor (n : Nat) : Nat := min n u64Max

/-- One unit of fuel for every instruction of the program. -/
def EnoughFuel (cfg : VmConfig) (code : List Instr) : Prop :=
  fuelFor code.length ≤ cfg.fuelLimit.toNat

end Ubl.Vm
