import Ubl.Policy.Circuit
import Ubl.Vm.Metering

/-!
# Silicon conditions and their two meanings

A `ConditionSpec` is read in two ways: `toExpression` hands it to the interpreter of the policy
engine, `compileToBool` turns it into instructions that push one Boolean.

`evalCond` says what those instructions do, with their cost and their faults:

    exec (compileToBool c ++ rest) core = evalCond c >>= fun b => exec rest (core.push b)

and `evalCond_result` splits this into the values that must be readable (`Readable`) and the
Boolean that comes out (`vmValue`).
-/

namespace Ubl.Silicon

open BigEndian Utf8 Metered
open Ubl.Vm
open Ubl.Policy (Expression EvalContext)

/-- Library functions on texts that the compiler calls. -/
structure TextLib where
  /-- `Value::to_string`. -/
  display : Json → String
  /-- `str::to_lowercase`. -/
  toLowercase : String → String

inductive ConditionSpec where
  | always (value : Bool)
  | contextHas (key : String)
  | contextEquals (key : String) (value : Json)
  | bodySizeLte (limit : UInt64)
  | typeEquals (chipType : String)
  | and (conditions : List ConditionSpec)
  | or (conditions : List ConditionSpec)
  | not (condition : ConditionSpec)
  | amountLte (field : String) (amount : Int64)
  | timestampWithinSecs (field : String) (windowSecs : Int64)

namespace ConditionSpec

/-- Induction over a condition, the operands of `And` and `Or` first. -/
theorem ind {P : ConditionSpec → Prop} (always : ∀ b, P (.always b))
    (contextHas : ∀ k, P (.contextHas k)) (contextEquals : ∀ k v, P (.contextEquals k v))
    (bodySizeLte : ∀ n, P (.bodySizeLte n)) (typeEquals : ∀ t, P (.typeEquals t))
    (and : ∀ cs : List ConditionSpec, (∀ c ∈ cs, P c) → P (.and cs))
    (or : ∀ cs : List ConditionSpec, (∀ c ∈ cs, P c) → P (.or cs))
    (not : ∀ c, P c → P (.not c)) (amountLte : ∀ f a, P (.amountLte f a))
    (timestampWithinSecs : ∀ f w, P (.timestampWithinSecs f w)) : ∀ c, P c := by
  intro c
  refine @ConditionSpec.rec P (fun cs => ∀ c ∈ cs, P c) always contextHas contextEquals
    bodySizeLte typeEquals and or not amountLte timestampWithinSecs ?_ ?_ c
  · simp
  · intro c cs hc hcs
    simpa using ⟨hc, hcs⟩

mutual

/-- `to_expression`.  The conditions that only the VM can decide become `Always(true)`. -/
def toExpression : ConditionSpec → Expression
  | .always value => .always value
  | .contextHas key => .contextHas key
  | .contextEquals key value => .contextEquals key value
  | .bodySizeLte limit => .bodySizeLte limit
  | .typeEquals chipType => .typeEquals chipType
  | .and conditions => .and (toExpressions conditions)
  | .or conditions => .or (toExpressions conditions)
  | .not condition => .not (toExpression condition)
  | .amountLte _ _ => .always true
  | .timestampWithinSecs _ _ => .always true

def toExpressions : List ConditionSpec → List Expression
  | [] => []
  | c :: cs => toExpression c :: toExpressions cs

end

end ConditionSpec

/-! ## The compiler -/

/-- `PushInput(0) → CasGet → JsonNormalize`. -/
def loadBody : List Instr := [⟨.pushInput, toBE 2 0⟩, ⟨.casGet, []⟩, ⟨.jsonNormalize, []⟩]

/-- JSON strings are compared as they are, other values by their `Display` text. -/
def expectedText (lib : TextLib) (value : Json) : List UInt8 :=
  match value.asStr with
  | some s => utf8 s
  | none => utf8 (lib.display value)

/-- `JsonGetKeyBytes(key) → ConstBytes(expected) → EqBytes` after the body. -/
def compileFieldEquals (key : String) (expected : List UInt8) : List Instr :=
  loadBody ++ [⟨.jsonGetKeyBytes, utf8 key⟩, ⟨.constBytes, expected⟩, ⟨.eqBytes, []⟩]

mutual

/-- `compile_to_bool`: the instructions whose TLV the source appends, in order. -/
def compileToBool (lib : TextLib) : ConditionSpec → List Instr
  | .always value => [⟨.pushBool, [if value then 1 else 0]⟩]
  | .contextHas key => loadBody ++ [⟨.jsonHasKey, utf8 key⟩]
  | .contextEquals key value => compileFieldEquals key (expectedText lib value)
  | .typeEquals chipType => compileFieldEquals "@type" (utf8 chipType)
  | .bodySizeLte limit =>
    [⟨.pushBodySize, []⟩, ⟨.constI64, i64ToBe limit.toInt64⟩, ⟨.cmpI64, [3]⟩]
  | .and conditions =>
    if conditions.isEmpty then [⟨.pushBool, [1]⟩]
    else compileAllToBool lib conditions ++ List.replicate (conditions.length - 1) ⟨.boolAnd, []⟩
  | .or conditions =>
    if conditions.isEmpty then [⟨.pushBool, [0]⟩]
    else compileAllToBool lib conditions ++ List.replicate (conditions.length - 1) ⟨.boolOr, []⟩
  | .not condition => compileToBool lib condition ++ [⟨.boolNot, []⟩]
  | .amountLte field amount =>
    loadBody ++ [⟨.jsonGetKey, utf8 field⟩, ⟨.constI64, i64ToBe amount⟩, ⟨.cmpI64, [3]⟩]
  | .timestampWithinSecs field windowSecs =>
    ⟨.pushTimestamp, []⟩ :: loadBody ++
      [⟨.jsonGetKey, utf8 field⟩, ⟨.subI64, []⟩, ⟨.constI64, i64ToBe windowSecs⟩, ⟨.cmpI64, [3]⟩]

def compileAllToBool (lib : TextLib) : List ConditionSpec → List Instr
  | [] => []
  | c :: cs => compileToBool lib c ++ compileAllToBool lib cs

end

theorem compileAllToBool_eq_flatMap (lib : TextLib) (cs : List ConditionSpec) :
    compileAllToBool lib cs = cs.flatMap (compileToBool lib) := by
  induction cs with
  | nil => rfl
  | cons c cs ih => rw [compileAllToBool, ih, List.flatMap_cons]

/-! ## What compiled code is made of -/

/-- An instruction of the compiler apart from those after `loadBody`: it has a short payload,
does not write to the store and does not end the run. -/
structure Plain (ins : Instr) : Prop where
  short : ins.Short
  noPut : ins.op ≠ .casPut
  noEmit : ins.op ≠ .emitRc

theorem plain_of_payload {op : Opcode} {payload : List UInt8} (hlen : payload.length ≤ 8)
    (hput : op ≠ .casPut) (hemit : op ≠ .emitRc) : Plain ⟨op, payload⟩ :=
  ⟨by show payload.length < 65536; omega, hput, hemit⟩

/-- A property of pieces of code that all compiled code has: pieces may be put one after the
other, and a piece is a plain instruction or loads the body. -/
structure Composable (P : List Instr → Prop) : Prop where
  nil : P []
  append : ∀ {xs ys}, P xs → P ys → P (xs ++ ys)
  plain : ∀ {ins}, Plain ins → P [ins]
  load : ∀ {ys}, EmitFree ys → P (loadBody ++ ys)

namespace Composable

theorem emitFree : Composable EmitFree where
  nil := emitFree_nil
  append hx hy := emitFree_append.mpr ⟨hx, hy⟩
  plain h := by simp [h.noEmit]
  load h := emitFree_append.mpr ⟨by simp [loadBody], h⟩

variable {P : List Instr → Prop} (hP : Composable P)

include hP

theorem flatMap {α : Type} {l : List α} {f : α → List Instr} (h : ∀ a ∈ l, P (f a)) :
    P (l.flatMap f) := by
  induction l with
  | nil => exact hP.nil
  | cons a l ih =>
    rw [List.flatMap_cons]
    exact hP.append (h a List.mem_cons_self) (ih fun b hb => h b (List.mem_cons_of_mem _ hb))

theorem ofPlain {code : List Instr} (h : ∀ ins ∈ code, Plain ins) : P code := by
  have hsingle := hP.flatMap (l := code) (f := fun ins => [ins]) fun ins hins => hP.plain (h ins hins)
  simpa using hsingle

/-- A row of one opcode without payload. -/
theorem row (n : Nat) {op : Opcode} (hput : op ≠ .casPut) (hemit : op ≠ .emitRc) :
    P (List.replicate n ⟨op, []⟩) := by
  refine hP.ofPlain fun ins hins => ?_
  obtain rfl := (List.mem_replicate.mp hins).2
  exact plain_of_payload (Nat.zero_le _) hput hemit

theorem single {op : Opcode} {payload : List UInt8} (hlen : payload.length ≤ 8)
    (hput : op ≠ .casPut) (hemit : op ≠ .emitRc) : P [⟨op, payload⟩] :=
  hP.plain (plain_of_payload hlen hput hemit)

theorem compileToBool (lib : TextLib) (c : ConditionSpec) : P (compileToBool lib c) := by
  induction c using ConditionSpec.ind with
  | always b => exact hP.single (by simp) (by decide) (by decide)
  | contextHas key => exact hP.load (by simp)
  | contextEquals key value => exact hP.load (by simp)
  | typeEquals chipType => exact hP.load (by simp)
  | bodySizeLte limit =>
    refine hP.ofPlain fun ins hins => ?_
    simp only [Silicon.compileToBool, List.mem_cons, List.not_mem_nil, or_false] at hins
    rcases hins with rfl | rfl | rfl <;> exact plain_of_payload (by simp) (by decide) (by decide)
  | and cs ih =>
    rw [Silicon.compileToBool]
    split_ifs
    · exact hP.single (by simp) (by decide) (by decide)
    · rw [compileAllToBool_eq_flatMap]
      exact hP.append (hP.flatMap ih) (hP.row _ (by decide) (by decide))
  | or cs ih =>
    rw [Silicon.compileToBool]
    split_ifs
    · exact hP.single (by simp) (by decide) (by decide)
    · rw [compileAllToBool_eq_flatMap]
      exact hP.append (hP.flatMap ih) (hP.row _ (by decide) (by decide))
  | not c ih => exact hP.append ih (hP.single (by simp) (by decide) (by decide))
  | amountLte field amount => exact hP.load (by simp)
  | timestampWithinSecs field windowSecs =>
    show P ([⟨.pushTimestamp, []⟩] ++ (loadBody ++ _))
    exact hP.append (hP.single (by simp) (by decide) (by decide)) (hP.load (by simp))

end Composable

/-! ## What the compiled code does -/

section Eval

variable {σ : Type} (env : VmEnv σ) (lib : TextLib)

/-- The body as the code sees it: input 0, out of the store, parsed and canonicalised. -/
def readBody (cas : σ) : Metered Fault Json := do
  let cid ← charged (match env.inputs[0]? with
    | some cid => .ok cid
    | none => .error (.error (.invalidPayload .pushInput)))
  let bytes ← charged (match env.get cas cid with
    | some bytes => .ok bytes
    | none => .error (.error (.deny "cas_get_not_found")))
  charged (match env.fromSlice bytes with
    | some v => .ok (env.canon v)
    | none => .error (.error (.deny "json_parse_error")))

/-- A string field, or the denial of `JsonGetKeyBytes`. -/
def stringField (j : Json) (key : String) : Except Fault String :=
  match (j.get key).bind Json.asStr with
  | some s => .ok s
  | none => .error (.error (.deny ("json_key_missing_or_not_string: " ++ key)))

/-- The value of a field as `JsonGetKey` pushes it. -/
def keyField (j : Json) (key : String) : Except Fault Value :=
  match getKeyValue env (j.get key) with
  | some v => .ok v
  | none => .error (.error (.deny "json_key_missing_or_not_i64"))

/-- The operand of an integer opcode. -/
def intOperand (op : Opcode) (v : Value) : Except Fault Int64 :=
  match v.asI64 with
  | some i => .ok i
  | none => .error (.error (.typeMismatch op))

/-- `JsonHasKey`. -/
def hasKey (j : Json) (key : String) : Bool := ((j.get key).map fun val => !val.isNull).getD false

def evalFieldEquals (cas : σ) (key : String) (expected : List UInt8) : Metered Fault Bool := do
  let j ← readBody env cas
  let s ← charged (stringField j key)
  spend 2
  pure (utf8 s == expected)

mutual

/-- The Boolean that `compileToBool c` pushes, with the instructions charged up to there. -/
def evalCond (cas : σ) : ConditionSpec → Metered Fault Bool
  | .always value => do
    spend 1
    pure value
  | .contextHas key => do
    let j ← readBody env cas
    spend 1
    pure (hasKey j key)
  | .contextEquals key value => evalFieldEquals env cas key (expectedText lib value)
  | .typeEquals chipType => evalFieldEquals env cas "@type" (utf8 chipType)
  | .bodySizeLte limit => do
    spend 3
    pure (decide (env.bodySize.toInt64 ≤ limit.toInt64))
  | .and conditions =>
    if conditions.isEmpty then do
      spend 1
      pure true
    else do
      let bs ← evalConds cas conditions
      spend (conditions.length - 1)
      pure (bs.all id)
  | .or conditions =>
    if conditions.isEmpty then do
      spend 1
      pure false
    else do
      let bs ← evalConds cas conditions
      spend (conditions.length - 1)
      pure (bs.any id)
  | .not condition => do
    let b ← evalCond cas condition
    spend 1
    pure !b
  | .amountLte field amount => do
    let j ← readBody env cas
    let v ← charged (keyField env j field)
    spend 1
    let i ← charged (intOperand .cmpI64 v)
    pure (decide (i ≤ amount))
  | .timestampWithinSecs field windowSecs => do
    spend 1
    let j ← readBody env cas
    let v ← charged (keyField env j field)
    let i ← charged (intOperand .subI64 v)
    spend 2
    pure (decide (saturate (env.now.toInt - i.toInt) ≤ windowSecs))

def evalConds (cas : σ) : List ConditionSpec → Metered Fault (List Bool)
  | [] => pure []
  | c :: cs => do
    let b ← evalCond cas c
    let bs ← evalConds cas cs
    pure (b :: bs)

end

/-! ## The code is the meaning -/

theorem exec_loadBody (core : Core σ) (rest : List Instr) :
    exec (execOp env) (loadBody ++ rest) core =
      readBody env core.cas >>= fun j => exec (execOp env) rest (core.push (.json j)) := by
  have hzero : ofBE (toBE 2 0) = 0 := by decide
  have hinput : execOp env ⟨.pushInput, toBE 2 0⟩ core =
      Except.map (fun cid => core.push (.cid cid)) (match env.inputs[0]? with
        | some cid => .ok cid
        | none => .error (.error (.invalidPayload .pushInput))) := by
    simp only [execOp, length_toBE, hzero]
    cases env.inputs[0]? <;> rfl
  have hget (cid : Cid) : execOp env ⟨.casGet, []⟩ (core.push (.cid cid)) =
      Except.map (fun bytes => core.push (.bytes bytes)) (match env.get core.cas cid with
        | some bytes => .ok bytes
        | none => .error (.error (.deny "cas_get_not_found"))) := by
    simp only [execOp, Core.popAs_push (show Value.asCid (.cid cid) = some cid from rfl),
      ExceptLemmas.bind_ok]
    cases env.get core.cas cid <;> rfl
  have hparse (bytes : List UInt8) : execOp env ⟨.jsonNormalize, []⟩ (core.push (.bytes bytes)) =
      Except.map (fun j => core.push (.json j)) (match env.fromSlice bytes with
        | some v => .ok (env.canon v)
        | none => .error (.error (.deny "json_parse_error"))) := by
    simp only [execOp, Core.popAs_push (show Value.asBytes (.bytes bytes) = some bytes from rfl),
      ExceptLemmas.bind_ok]
    cases env.fromSlice bytes <;> rfl
  simp only [loadBody, List.cons_append, List.nil_append, exec_cons, hinput, hget, hparse,
    charged_map_bind, readBody, bind_assoc]

theorem exec_pushBool (core : Core σ) (b : Bool) (rest : List Instr) :
    exec (execOp env) (⟨.pushBool, [if b then 1 else 0]⟩ :: rest) core =
      spend 1 >>= fun _ => exec (execOp env) rest (core.push (.bool b)) := by
  refine exec_cons_ok _ ?_ rest
  cases b <;> rfl

theorem exec_jsonHasKey (core : Core σ) (j : Json) (key : String) (rest : List Instr) :
    exec (execOp env) (⟨.jsonHasKey, utf8 key⟩ :: rest) (core.push (.json j)) =
      spend 1 >>= fun _ => exec (execOp env) rest (core.push (.bool (hasKey j key))) := by
  refine exec_cons_ok _ ?_ rest
  simp [execOp, withText, Core.popAs_push (show Value.asJson (.json j) = some j from rfl), hasKey]

theorem exec_jsonGetKeyBytes (core : Core σ) (j : Json) (key : String) (rest : List Instr) :
    exec (execOp env) (⟨.jsonGetKeyBytes, utf8 key⟩ :: rest) (core.push (.json j)) =
      charged (stringField j key) >>= fun s =>
        exec (execOp env) rest (core.push (.bytes (utf8 s))) := by
  have hstep : execOp env ⟨.jsonGetKeyBytes, utf8 key⟩ (core.push (.json j)) =
      (stringField j key).map fun s => core.push (.bytes (utf8 s)) := by
    simp only [execOp, withText, fromUtf8_utf8, stringField,
      Core.popAs_push (show Value.asJson (.json j) = some j from rfl), ExceptLemmas.bind_ok]
    cases (j.get key).bind Json.asStr <;> rfl
  rw [exec_cons, hstep, charged_map_bind]

theorem exec_jsonGetKey (core : Core σ) (j : Json) (key : String) (rest : List Instr) :
    exec (execOp env) (⟨.jsonGetKey, utf8 key⟩ :: rest) (core.push (.json j)) =
      charged (keyField env j key) >>= fun v => exec (execOp env) rest (core.push v) := by
  have hstep : execOp env ⟨.jsonGetKey, utf8 key⟩ (core.push (.json j)) =
      (keyField env j key).map core.push := by
    simp only [execOp, withText, fromUtf8_utf8, keyField,
      Core.popAs_push (show Value.asJson (.json j) = some j from rfl), ExceptLemmas.bind_ok]
    cases getKeyValue env (j.get key) <;> rfl
  rw [exec_cons, hstep, charged_map_bind]

theorem exec_constBytes_eqBytes (core : Core σ) (a b : List UInt8) (rest : List Instr) :
    exec (execOp env) (⟨.constBytes, b⟩ :: ⟨.eqBytes, []⟩ :: rest) (core.push (.bytes a)) =
      spend 2 >>= fun _ => exec (execOp env) rest (core.push (.bool (a == b))) := by
  rw [exec_cons_ok _ rfl, exec_cons_ok _ rfl, spend_bind_spend]
  rfl

theorem execOp_constI64 (core : Core σ) (v : Int64) :
    execOp env ⟨.constI64, i64ToBe v⟩ core = .ok (core.push (.i64 v)) := by
  simp [execOp]

/-- `ConstI64(b) → CmpI64(LE)` over any value. -/
theorem exec_constI64_cmpLe (core : Core σ) (v : Value) (b : Int64) (rest : List Instr) :
    exec (execOp env) (⟨.constI64, i64ToBe b⟩ :: ⟨.cmpI64, [3]⟩ :: rest) (core.push v) =
      spend 1 >>= fun _ => charged (intOperand .cmpI64 v) >>= fun i =>
        exec (execOp env) rest (core.push (.bool (decide (i ≤ b)))) := by
  have hcmp : execOp env ⟨.cmpI64, [3]⟩ ((core.push v).push (.i64 b)) =
      (intOperand .cmpI64 v).map fun i => core.push (.bool (decide (i ≤ b))) := by
    simp only [execOp, cmpI64, Core.popAs_push (show Value.asI64 (.i64 b) = some b from rfl),
      ExceptLemmas.bind_ok, intOperand]
    cases h : v.asI64 with
    | none => rw [Core.popAs_push_none h]; rfl
    | some i => rw [Core.popAs_push h]; rfl
  rw [exec_cons_ok _ (execOp_constI64 env _ b), exec_cons, hcmp, charged_map_bind]

theorem exec_constI64_cmpLe_i64 (core : Core σ) (a b : Int64) (rest : List Instr) :
    exec (execOp env) (⟨.constI64, i64ToBe b⟩ :: ⟨.cmpI64, [3]⟩ :: rest) (core.push (.i64 a)) =
      spend 2 >>= fun _ => exec (execOp env) rest (core.push (.bool (decide (a ≤ b)))) := by
  rw [exec_constI64_cmpLe, intOperand, Value.asI64]
  simp only [charged_ok_bind, spend_bind_spend]

/-- `SubI64` with any value on top of an integer. -/
theorem exec_subI64 (core : Core σ) (a : Int64) (v : Value) (rest : List Instr) :
    exec (execOp env) (⟨.subI64, []⟩ :: rest) ((core.push (.i64 a)).push v) =
      charged (intOperand .subI64 v) >>= fun i =>
        exec (execOp env) rest (core.push (.i64 (saturate (a.toInt - i.toInt)))) := by
  have hsub : execOp env ⟨.subI64, []⟩ ((core.push (.i64 a)).push v) =
      (intOperand .subI64 v).map fun i => core.push (.i64 (saturate (a.toInt - i.toInt))) := by
    simp only [execOp, binI64, intOperand]
    cases h : v.asI64 with
    | none => rw [Core.popAs_push_none h]; rfl
    | some i => rw [Core.popAs_push h]; rfl
  rw [exec_cons, hsub, charged_map_bind]

theorem exec_fieldEquals (core : Core σ) (key : String) (expected : List UInt8)
    (rest : List Instr) :
    exec (execOp env) (compileFieldEquals key expected ++ rest) core =
      evalFieldEquals env core.cas key expected >>= fun b =>
        exec (execOp env) rest (core.push (.bool b)) := by
  simp only [compileFieldEquals, List.append_assoc, exec_loadBody, List.cons_append,
    List.nil_append, exec_jsonGetKeyBytes, exec_constBytes_eqBytes, evalFieldEquals, bind_assoc,
    pure_bind]

theorem length_of_evalConds (cas : σ) {cs : List ConditionSpec} {bs : List Bool}
    (h : (evalConds env lib cas cs).result = .ok bs) : bs.length = cs.length := by
  induction cs generalizing bs with
  | nil =>
    obtain rfl : [] = bs := Except.ok.inj h
    rfl
  | cons c cs ih =>
    simp only [evalConds, bind_result, ExceptLemmas.bind_eq_ok] at h
    obtain ⟨b, -, bs', hbs', h⟩ := h
    obtain rfl : b :: bs' = bs := Except.ok.inj h
    rw [List.length_cons, List.length_cons, ih hbs']

/-- `BoolAnd` between any number of Booleans. -/
theorem exec_foldAnd {bs : List Bool} (hne : bs ≠ []) (core : Core σ) (rest : List Instr) :
    exec (execOp env) (List.replicate (bs.length - 1) ⟨.boolAnd, []⟩ ++ rest)
        (core.pushAll (bs.map .bool)) =
      spend (bs.length - 1) >>= fun _ =>
        exec (execOp env) rest (core.push (.bool (bs.all id))) := by
  obtain ⟨b, bs, rfl⟩ := List.exists_cons_of_ne_nil hne
  have hfold := exec_fold env Value.bool (· && ·) ⟨.boolAnd, []⟩
    (fun _ _ _ => rfl) b bs core rest
  rw [foldTop_and] at hfold
  exact hfold

/-- `BoolOr` between any number of Booleans. -/
theorem exec_foldOr {bs : List Bool} (hne : bs ≠ []) (core : Core σ) (rest : List Instr) :
    exec (execOp env) (List.replicate (bs.length - 1) ⟨.boolOr, []⟩ ++ rest)
        (core.pushAll (bs.map .bool)) =
      spend (bs.length - 1) >>= fun _ =>
        exec (execOp env) rest (core.push (.bool (bs.any id))) := by
  obtain ⟨b, bs, rfl⟩ := List.exists_cons_of_ne_nil hne
  have hfold := exec_fold env Value.bool (· || ·) ⟨.boolOr, []⟩
    (fun _ _ _ => rfl) b bs core rest
  rw [foldTop_or] at hfold
  exact hfold

/-- The code of a list of conditions, given that of each. -/
theorem exec_compileAllToBool {cs : List ConditionSpec}
    (h : ∀ c ∈ cs, ∀ (core : Core σ) rest, exec (execOp env) (compileToBool lib c ++ rest) core =
      evalCond env lib core.cas c >>= fun b => exec (execOp env) rest (core.push (.bool b)))
    (core : Core σ) (rest : List Instr) :
    exec (execOp env) (compileAllToBool lib cs ++ rest) core =
      evalConds env lib core.cas cs >>= fun bs =>
        exec (execOp env) rest (core.pushAll (bs.map .bool)) := by
  induction cs generalizing core with
  | nil => simp [compileAllToBool, evalConds]
  | cons c cs ih =>
    have ih' := ih fun d hd => h d (List.mem_cons_of_mem _ hd)
    simp only [compileAllToBool, evalConds, List.append_assoc, h c List.mem_cons_self, ih',
      bind_assoc, pure_bind, Core.push_cas, List.map_cons, Core.pushAll_cons]

theorem exec_compileToBool (c : ConditionSpec) (core : Core σ) (rest : List Instr) :
    exec (execOp env) (compileToBool lib c ++ rest) core =
      evalCond env lib core.cas c >>= fun b => exec (execOp env) rest (core.push (.bool b)) := by
  induction c using ConditionSpec.ind generalizing core rest with
  | always b =>
    simp only [compileToBool, evalCond, List.singleton_append, exec_pushBool, bind_assoc, pure_bind]
  | contextHas key =>
    simp only [compileToBool, evalCond, List.append_assoc, exec_loadBody, List.cons_append,
      List.nil_append, exec_jsonHasKey, bind_assoc, pure_bind]
  | contextEquals key value =>
    rw [compileToBool, evalCond, exec_fieldEquals]
  | typeEquals chipType =>
    rw [compileToBool, evalCond, exec_fieldEquals]
  | bodySizeLte limit =>
    simp only [compileToBool, evalCond, List.cons_append, List.nil_append, bind_assoc, pure_bind]
    rw [exec_cons_ok _ rfl, exec_constI64_cmpLe_i64, spend_bind_spend]
  | and cs ih =>
    rw [compileToBool, evalCond]
    by_cases hcs : cs.isEmpty
    · rw [if_pos hcs, if_pos hcs, bind_assoc]
      simp only [pure_bind]
      exact exec_pushBool env core true rest
    · rw [if_neg hcs, if_neg hcs, List.append_assoc, exec_compileAllToBool env lib ih, bind_assoc]
      refine bind_congr_result fun bs hbs => ?_
      have hlen := length_of_evalConds env lib core.cas hbs
      have hne : bs ≠ [] := by
        rintro rfl
        exact hcs (List.isEmpty_iff_length_eq_zero.mpr hlen.symm)
      rw [← hlen, exec_foldAnd env hne, bind_assoc]
      simp only [pure_bind]
  | or cs ih =>
    rw [compileToBool, evalCond]
    by_cases hcs : cs.isEmpty
    · rw [if_pos hcs, if_pos hcs, bind_assoc]
      simp only [pure_bind]
      exact exec_pushBool env core false rest
    · rw [if_neg hcs, if_neg hcs, List.append_assoc, exec_compileAllToBool env lib ih, bind_assoc]
      refine bind_congr_result fun bs hbs => ?_
      have hlen := length_of_evalConds env lib core.cas hbs
      have hne : bs ≠ [] := by
        rintro rfl
        exact hcs (List.isEmpty_iff_length_eq_zero.mpr hlen.symm)
      rw [← hlen, exec_foldOr env hne, bind_assoc]
      simp only [pure_bind]
  | not c ih =>
    simp only [compileToBool, evalCond, List.append_assoc, ih, bind_assoc, pure_bind]
    exact bind_congr fun b => exec_cons_ok _ rfl rest
  | amountLte field amount =>
    simp only [compileToBool, evalCond, List.append_assoc, exec_loadBody, List.cons_append,
      List.nil_append, exec_jsonGetKey, exec_constI64_cmpLe, bind_assoc, pure_bind]
  | timestampWithinSecs field windowSecs =>
    simp only [compileToBool, evalCond, List.append_assoc, List.cons_append, List.nil_append,
      bind_assoc, pure_bind]
    rw [exec_cons_ok _ rfl, exec_loadBody]
    simp only [exec_jsonGetKey, exec_subI64, exec_constI64_cmpLe_i64, Core.push_cas]

/-! ## How conditions fail -/

/-- A condition fails as its atoms do: the connectives add no faults of their own. -/
theorem evalCond_failsOnly_of_atoms {E : Fault → Prop} {cas : σ}
    (hhas : ∀ key, FailsOnly E (evalCond env lib cas (.contextHas key)))
    (hequals : ∀ key expected, FailsOnly E (evalFieldEquals env cas key expected))
    (hamount : ∀ field amount, FailsOnly E (evalCond env lib cas (.amountLte field amount)))
    (hwithin : ∀ field window, FailsOnly E (evalCond env lib cas (.timestampWithinSecs field window)))
    (c : ConditionSpec) : FailsOnly E (evalCond env lib cas c) := by
  have hconds {cs : List ConditionSpec} (h : ∀ c ∈ cs, FailsOnly E (evalCond env lib cas c)) :
      FailsOnly E (evalConds env lib cas cs) := by
    induction cs with
    | nil => exact failsOnly_pure _
    | cons c cs ih =>
      exact (h c List.mem_cons_self).bind fun _ =>
        (ih fun d hd => h d (List.mem_cons_of_mem _ hd)).bind fun _ => failsOnly_pure _
  induction c using ConditionSpec.ind with
  | always b => exact (failsOnly_spend 1).bind fun _ => failsOnly_pure _
  | contextHas key => exact hhas key
  | contextEquals key value => exact hequals _ _
  | typeEquals chipType => exact hequals _ _
  | bodySizeLte limit => exact (failsOnly_spend 3).bind fun _ => failsOnly_pure _
  | and cs ih =>
    rw [evalCond]
    split_ifs
    · exact (failsOnly_spend 1).bind fun _ => failsOnly_pure _
    · exact (hconds ih).bind fun _ => (failsOnly_spend _).bind fun _ => failsOnly_pure _
  | or cs ih =>
    rw [evalCond]
    split_ifs
    · exact (failsOnly_spend 1).bind fun _ => failsOnly_pure _
    · exact (hconds ih).bind fun _ => (failsOnly_spend _).bind fun _ => failsOnly_pure _
  | not c ih => exact ih.bind fun _ => (failsOnly_spend 1).bind fun _ => failsOnly_pure _
  | amountLte field amount => exact hamount field amount
  | timestampWithinSecs field windowSecs => exact hwithin field windowSecs

end Eval

end Ubl.Silicon
