import Ubl.Silicon.Condition

/-!
# The two meanings of a condition

The compiled code of a condition ends in a Boolean exactly when every field it reads is there
and of the right kind (`Readable`); the Boolean is then `vmValue`, the value of the condition
with the VM's reading of its atoms.  The interpreter reads some atoms differently: it takes
strings before NFC, compares other JSON values as values and not by their text, and treats a
missing field as false.  Where no atom of the condition is one of these (`ReadAlike`), the two
agree (`compileToBool_agrees_iff`).
-/

namespace Ubl.Silicon

open AssocMap Utf8 Metered
open Ubl.Vm
open Ubl.Nrf (Text present)
open Ubl.Policy (Expression EvalContext valueEq)

variable {σ : Type}

/-- The body the code reads, if it can be read at all. -/
def bodyView (env : VmEnv σ) (cas : σ) : Option Json := (readBody env cas).result.toOption

mutual

/-- Every field the condition reads is there and of the kind its instruction takes. -/
def Readable (view : Option Json) : ConditionSpec → Prop
  | .always _ => True
  | .contextHas _ => view.isSome
  | .contextEquals key _ => ∃ j s, view = some j ∧ (j.get key).bind Json.asStr = some s
  | .typeEquals _ => ∃ j s, view = some j ∧ (j.get "@type").bind Json.asStr = some s
  | .bodySizeLte _ => True
  | .and conditions => ReadableAll view conditions
  | .or conditions => ReadableAll view conditions
  | .not condition => Readable view condition
  | .amountLte field _ => ∃ j i, view = some j ∧ (j.get field).bind Json.asI64 = some i
  | .timestampWithinSecs field _ => ∃ j i, view = some j ∧ (j.get field).bind Json.asI64 = some i

def ReadableAll (view : Option Json) : List ConditionSpec → Prop
  | [] => True
  | c :: cs => Readable view c ∧ ReadableAll view cs

end

/-- A string field compared with the bytes of the expected text. -/
def fieldEquals (view : Option Json) (key : String) (expected : List UInt8) : Bool :=
  ((view.bind fun j => (j.get key).bind Json.asStr).map fun s => utf8 s == expected).getD false

/-- An integer field, zero where there is none. -/
def fieldInt (view : Option Json) (field : String) : Int64 :=
  (view.bind fun j => (j.get field).bind Json.asI64).getD 0

mutual

/-- The value of a condition with the VM's reading of its atoms. -/
def vmValue (lib : TextLib) (view : Option Json) (bodySize : UInt64) (now : Int64) :
    ConditionSpec → Bool
  | .always value => value
  | .contextHas key => (view.map fun j => hasKey j key).getD false
  | .contextEquals key value => fieldEquals view key (expectedText lib value)
  | .typeEquals chipType => fieldEquals view "@type" (utf8 chipType)
  | .bodySizeLte limit => decide (bodySize.toInt64 ≤ limit.toInt64)
  | .and conditions => (vmValues lib view bodySize now conditions).all id
  | .or conditions => (vmValues lib view bodySize now conditions).any id
  | .not condition => !(vmValue lib view bodySize now condition)
  | .amountLte field amount => decide (fieldInt view field ≤ amount)
  | .timestampWithinSecs field windowSecs =>
    decide (saturate (now.toInt - (fieldInt view field).toInt) ≤ windowSecs)

def vmValues (lib : TextLib) (view : Option Json) (bodySize : UInt64) (now : Int64) :
    List ConditionSpec → List Bool
  | [] => []
  | c :: cs => vmValue lib view bodySize now c :: vmValues lib view bodySize now cs

end

section Result

variable (env : VmEnv σ) (lib : TextLib) (cas : σ)

theorem readBody_result_eq_ok {j : Json} :
    (readBody env cas).result = .ok j ↔ bodyView env cas = some j := by
  unfold bodyView
  cases (readBody env cas).result <;> simp [Except.toOption]

theorem stringField_eq_ok {j : Json} {key s : String} :
    stringField j key = .ok s ↔ (j.get key).bind Json.asStr = some s := by
  unfold stringField
  split <;> simp [*]

theorem charged_result {α : Type} (r : Except Fault α) : (charged r).result = r := rfl

theorem evalFieldEquals_result (key : String) (expected : List UInt8) (b : Bool) :
    (evalFieldEquals env cas key expected).result = .ok b ↔
      (∃ j s, bodyView env cas = some j ∧ (j.get key).bind Json.asStr = some s) ∧
        b = fieldEquals (bodyView env cas) key expected := by
  simp only [evalFieldEquals, bind_result, ExceptLemmas.bind_eq_ok, readBody_result_eq_ok,
    charged_result, stringField_eq_ok]
  constructor
  · rintro ⟨j, hj, s, hs, -, -, hb⟩
    refine ⟨⟨j, s, hj, hs⟩, ?_⟩
    rw [fieldEquals, hj, Option.bind_some, hs]
    exact (Except.ok.inj hb).symm
  · rintro ⟨⟨j, s, hj, hs⟩, rfl⟩
    refine ⟨j, hj, s, hs, (), rfl, ?_⟩
    rw [fieldEquals, hj, Option.bind_some, hs]
    rfl

/-- The integer operand that `JsonGetKey` leaves for the instruction after it. -/
theorem keyField_intOperand (op : Opcode) {j : Json} {field : String} {i : Int64} :
    (∃ v, keyField env j field = .ok v ∧ intOperand op v = .ok i) ↔
      (j.get field).bind Json.asI64 = some i := by
  unfold keyField intOperand getKeyValue
  cases j.get field with
  | none => simp
  | some v =>
    cases hv : v.asI64 with
    | some k => simp [hv, Value.asI64]
    | none =>
      simp only [Option.bind_some, hv]
      split_ifs with hnum
      · cases env.numFromValue v <;> simp [Value.asI64]
      · simp

theorem evalConds_result {cs : List ConditionSpec}
    (h : ∀ c ∈ cs, ∀ b, (evalCond env lib cas c).result = .ok b ↔
      Readable (bodyView env cas) c ∧
        b = vmValue lib (bodyView env cas) env.bodySize env.now c) (bs : List Bool) :
    (evalConds env lib cas cs).result = .ok bs ↔
      ReadableAll (bodyView env cas) cs ∧
        bs = vmValues lib (bodyView env cas) env.bodySize env.now cs := by
  induction cs generalizing bs with
  | nil =>
    simp only [evalConds, ReadableAll, vmValues, true_and]
    exact ⟨fun hb => (Except.ok.inj hb).symm, fun hb => hb ▸ rfl⟩
  | cons c cs ih =>
    have ih' := ih fun d hd => h d (List.mem_cons_of_mem _ hd)
    simp only [evalConds, bind_result, ExceptLemmas.bind_eq_ok, h c List.mem_cons_self, ih',
      ReadableAll, vmValues]
    constructor
    · rintro ⟨b, ⟨hr, rfl⟩, bs', ⟨hrs, rfl⟩, hb⟩
      exact ⟨⟨hr, hrs⟩, (Except.ok.inj hb).symm⟩
    · rintro ⟨⟨hr, hrs⟩, rfl⟩
      exact ⟨_, ⟨hr, rfl⟩, _, ⟨hrs, rfl⟩, rfl⟩

theorem evalCond_result (c : ConditionSpec) (b : Bool) :
    (evalCond env lib cas c).result = .ok b ↔
      Readable (bodyView env cas) c ∧
        b = vmValue lib (bodyView env cas) env.bodySize env.now c := by
  induction c using ConditionSpec.ind generalizing b with
  | always v =>
    simp only [evalCond, Readable, vmValue, true_and]
    exact ⟨fun hb => (Except.ok.inj hb).symm, fun hb => hb ▸ rfl⟩
  | contextHas key =>
    simp only [evalCond, Readable, vmValue, bind_result, ExceptLemmas.bind_eq_ok,
      readBody_result_eq_ok, Option.isSome_iff_exists]
    constructor
    · rintro ⟨j, hj, -, -, hb⟩
      refine ⟨⟨j, hj⟩, ?_⟩
      rw [hj]
      exact (Except.ok.inj hb).symm
    · rintro ⟨⟨j, hj⟩, rfl⟩
      refine ⟨j, hj, (), rfl, ?_⟩
      rw [hj]
      rfl
  | contextEquals key value => exact evalFieldEquals_result env cas key _ b
  | typeEquals chipType => exact evalFieldEquals_result env cas "@type" _ b
  | bodySizeLte limit =>
    simp only [evalCond, Readable, vmValue, true_and]
    exact ⟨fun hb => (Except.ok.inj hb).symm, fun hb => hb ▸ rfl⟩
  | and cs ih =>
    have hconds := evalConds_result env lib cas ih
    rw [evalCond, Readable, vmValue]
    by_cases hcs : cs.isEmpty
    · obtain rfl := List.isEmpty_iff.mp hcs
      rw [if_pos hcs]
      simp only [ReadableAll, vmValues, true_and]
      exact ⟨fun hb => (Except.ok.inj hb).symm, fun hb => hb ▸ rfl⟩
    · simp only [if_neg hcs, bind_result, ExceptLemmas.bind_eq_ok, hconds]
      constructor
      · rintro ⟨bs, ⟨hr, rfl⟩, -, -, hb⟩
        exact ⟨hr, (Except.ok.inj hb).symm⟩
      · rintro ⟨hr, rfl⟩
        exact ⟨_, ⟨hr, rfl⟩, (), rfl, rfl⟩
  | or cs ih =>
    have hconds := evalConds_result env lib cas ih
    rw [evalCond, Readable, vmValue]
    by_cases hcs : cs.isEmpty
    · obtain rfl := List.isEmpty_iff.mp hcs
      rw [if_pos hcs]
      simp only [ReadableAll, vmValues, true_and]
      exact ⟨fun hb => (Except.ok.inj hb).symm, fun hb => hb ▸ rfl⟩
    · simp only [if_neg hcs, bind_result, ExceptLemmas.bind_eq_ok, hconds]
      constructor
      · rintro ⟨bs, ⟨hr, rfl⟩, -, -, hb⟩
        exact ⟨hr, (Except.ok.inj hb).symm⟩
      · rintro ⟨hr, rfl⟩
        exact ⟨_, ⟨hr, rfl⟩, (), rfl, rfl⟩
  | not c ih =>
    simp only [evalCond, Readable, vmValue, bind_result, ExceptLemmas.bind_eq_ok, ih]
    constructor
    · rintro ⟨b', ⟨hr, rfl⟩, -, -, hb⟩
      exact ⟨hr, (Except.ok.inj hb).symm⟩
    · rintro ⟨hr, rfl⟩
      exact ⟨_, ⟨hr, rfl⟩, (), rfl, rfl⟩
  | amountLte field amount =>
    simp only [evalCond, Readable, vmValue, bind_result, ExceptLemmas.bind_eq_ok,
      readBody_result_eq_ok, charged_result]
    constructor
    · rintro ⟨j, hj, v, hv, -, -, i, hi, hb⟩
      have hfield := (keyField_intOperand env .cmpI64).mp ⟨v, hv, hi⟩
      refine ⟨⟨j, i, hj, hfield⟩, ?_⟩
      rw [fieldInt, hj, Option.bind_some, hfield]
      exact (Except.ok.inj hb).symm
    · rintro ⟨⟨j, i, hj, hfield⟩, rfl⟩
      obtain ⟨v, hv, hi⟩ := (keyField_intOperand env .cmpI64).mpr hfield
      refine ⟨j, hj, v, hv, (), rfl, i, hi, ?_⟩
      rw [fieldInt, hj, Option.bind_some, hfield]
      rfl
  | timestampWithinSecs field windowSecs =>
    simp only [evalCond, Readable, vmValue, bind_result, ExceptLemmas.bind_eq_ok,
      readBody_result_eq_ok, charged_result]
    constructor
    · rintro ⟨-, -, j, hj, v, hv, i, hi, -, -, hb⟩
      have hfield := (keyField_intOperand env .subI64).mp ⟨v, hv, hi⟩
      refine ⟨⟨j, i, hj, hfield⟩, ?_⟩
      rw [fieldInt, hj, Option.bind_some, hfield]
      exact (Except.ok.inj hb).symm
    · rintro ⟨⟨j, i, hj, hfield⟩, rfl⟩
      obtain ⟨v, hv, hi⟩ := (keyField_intOperand env .subI64).mpr hfield
      refine ⟨(), rfl, j, hj, v, hv, i, hi, (), rfl, ?_⟩
      rw [fieldInt, hj, Option.bind_some, hfield]
      rfl

end Result

/-! ## Runs of compiled conditions -/

/-- A compiled condition, run by itself with enough fuel, leaves the Boolean `b` exactly when
everything it reads is readable and `b` is its value. -/
theorem run_compileToBool (env : VmEnv σ) (lib : TextLib) (cas : σ) (c : ConditionSpec) (b : Bool) :
    (∀ cfg, EnoughFuel cfg (compileToBool lib c) →
      ∃ out vm, run env cfg cas (compileToBool lib c) = .ok (out, vm) ∧
        vm.core.stack = [.bool b]) ↔
      Readable (bodyView env cas) c ∧
        vmValue lib (bodyView env cas) env.bodySize env.now c = b := by
  have hops := Composable.emitFree.compileToBool lib c
  have hexec : exec (execOp env) (compileToBool lib c) (initial cas) =
      evalCond env lib cas c >>= fun b => pure ((initial cas).push (.bool b)) := by
    have h := exec_compileToBool env lib c (initial cas) []
    rwa [List.append_nil] at h
  have hfits {cfg : VmConfig} (h : EnoughFuel cfg (compileToBool lib c)) :
      fuelFor (exec (execOp env) (compileToBool lib c) (initial cas)).cost ≤
        cfg.fuelLimit.toNat :=
    (fuelFor_mono (exec_cost_le _ _ _)).trans h
  have hvalue := evalCond_result env lib cas c
  cases hr : (evalCond env lib cas c).result with
  | error e =>
    have hnot : ¬ Readable (bodyView env cas) c := by
      intro hread
      have hok := (hvalue _).mpr ⟨hread, rfl⟩
      rw [hr] at hok
      cases hok
    have herr : (exec (execOp env) (compileToBool lib c) (initial cas)).result = .error e := by
      rw [hexec, bind_eq_of_error hr]
    refine ⟨fun h => ?_, fun h => absurd h.1 hnot⟩
    obtain ⟨out, vm, hrun, -⟩ := h _ (enoughFuel_max false false _)
    have hfail := run_error env _ cas hops [] herr (hfits (enoughFuel_max false false _))
    rw [List.append_nil, hrun] at hfail
    cases hfail
  | ok v =>
    obtain ⟨hread, hv⟩ := (hvalue v).mp hr
    have hok : (exec (execOp env) (compileToBool lib c) (initial cas)).result =
        .ok ((initial cas).push (.bool v)) := by
      rw [hexec, bind_eq_of_result hr]
      rfl
    constructor
    · intro h
      obtain ⟨out, vm, hrun, hstack⟩ := h _ (enoughFuel_max false false _)
      obtain ⟨out', vm', hrun', hcore⟩ :=
        run_ok env _ cas hops hok (hfits (enoughFuel_max false false _))
      rw [hrun] at hrun'
      obtain ⟨-, rfl⟩ := Prod.mk.inj (Except.ok.inj hrun')
      rw [hcore] at hstack
      have hvb : v = b := by simpa [initial] using hstack
      exact ⟨hread, hvb ▸ hv.symm⟩
    · rintro ⟨-, hb⟩ cfg hfuel
      obtain ⟨out, vm, hrun, hcore⟩ := run_ok env cfg cas hops hok (hfits hfuel)
      refine ⟨out, vm, hrun, ?_⟩
      rw [hcore, hv, hb]
      rfl

/-! ## Against the interpreter -/

/-- Input 0 of the machine is a JSON text of `body`, and the canon is the pipeline's. -/
structure HoldsText (t : Text) (env : VmEnv σ) (cas : σ) (body : Json) : Prop where
  canon : env.canon = rho t
  input : ∃ cid text, env.inputs[0]? = some cid ∧ env.get cas cid = some text ∧
    env.fromSlice text = some body

theorem HoldsText.bodyView {t : Text} {env : VmEnv σ} {cas : σ} {body : Json}
    (h : HoldsText t env cas body) : bodyView env cas = some (rho t body) := by
  obtain ⟨cid, text, hcid, htext, hbody⟩ := h.input
  simp [Silicon.bodyView, readBody, hcid, htext, hbody, h.canon, charged, Except.toOption]

/-- The context of a body: its non-null top-level entries are the variables. -/
def contextOf (members : List (String × Json)) (bodySize : UInt64) : EvalContext :=
  ⟨.object members, bodySize, members.filter fun e => !e.2.isNull⟩

/-- The compiled code ends in the value that the interpreter gives for the body. -/
def Agrees (lib : TextLib) (env : VmEnv σ) (cas : σ) (members : List (String × Json))
    (c : ConditionSpec) : Prop :=
  ∃ code, decodeStream (encode (compileToBool lib c)) = .ok code ∧
    ∀ cfg, EnoughFuel cfg code → ∃ out vm, run env cfg cas code = .ok (out, vm) ∧
      vm.core.stack = [.bool (c.toExpression.evaluate (contextOf members env.bodySize))]

theorem agrees_iff {t : Text} {lib : TextLib} {env : VmEnv σ} {cas : σ}
    {members : List (String × Json)} (htext : HoldsText t env cas (.object members))
    {c : ConditionSpec} (hshort : ∀ ins ∈ compileToBool lib c, ins.Short) :
    Agrees lib env cas members c ↔
      Readable (some (rho t (.object members))) c ∧
        vmValue lib (some (rho t (.object members))) env.bodySize env.now c =
          c.toExpression.evaluate (contextOf members env.bodySize) := by
  rw [← htext.bodyView, ← run_compileToBool, Agrees, decodeStream_encode hshort]
  simp

/-! ### Atoms -/

namespace ConditionSpec

mutual

/-- What is left of a condition without `And`, `Or` and `Not`. -/
def atoms : ConditionSpec → List ConditionSpec
  | .and conditions => atomsOf conditions
  | .or conditions => atomsOf conditions
  | .not condition => atoms condition
  | c => [c]

def atomsOf : List ConditionSpec → List ConditionSpec
  | [] => []
  | c :: cs => atoms c ++ atomsOf cs

end

theorem mem_atomsOf {cs : List ConditionSpec} {a : ConditionSpec} :
    a ∈ atomsOf cs ↔ ∃ c ∈ cs, a ∈ c.atoms := by
  induction cs with
  | nil => simp [atomsOf]
  | cons c cs ih => simp [atomsOf, ih]

/-- What holds of every atom that is an atom by its form. -/
theorem atoms_ind {P : ConditionSpec → Prop} (always : ∀ b, P (.always b))
    (contextHas : ∀ k, P (.contextHas k)) (contextEquals : ∀ k v, P (.contextEquals k v))
    (bodySizeLte : ∀ n, P (.bodySizeLte n)) (typeEquals : ∀ t, P (.typeEquals t))
    (amountLte : ∀ f a, P (.amountLte f a))
    (timestampWithinSecs : ∀ f w, P (.timestampWithinSecs f w)) (c : ConditionSpec) :
    ∀ a ∈ c.atoms, P a := by
  induction c using ConditionSpec.ind with
  | and cs ih | or cs ih =>
    intro a ha
    obtain ⟨c, hc, ha⟩ := mem_atomsOf.mp ha
    exact ih c hc a ha
  | not c ih => exact ih
  | _ => simp [atoms, *]

end ConditionSpec

/-- The instructions of the atoms are instructions of the condition. -/
theorem mem_compileToBool_of_atoms {lib : TextLib} {ins : Instr} (c : ConditionSpec) :
    ∀ a ∈ c.atoms, ins ∈ compileToBool lib a → ins ∈ compileToBool lib c := by
  have hall {cs : List ConditionSpec}
      (ih : ∀ c ∈ cs, ∀ a ∈ c.atoms, ins ∈ compileToBool lib a → ins ∈ compileToBool lib c)
      {a : ConditionSpec} (ha : a ∈ ConditionSpec.atomsOf cs) (hins : ins ∈ compileToBool lib a) :
      cs.isEmpty = false ∧ ins ∈ compileAllToBool lib cs := by
    obtain ⟨c, hc, ha⟩ := ConditionSpec.mem_atomsOf.mp ha
    rw [compileAllToBool_eq_flatMap]
    exact ⟨by simpa using List.ne_nil_of_mem hc, List.mem_flatMap.mpr ⟨c, hc, ih c hc a ha hins⟩⟩
  induction c using ConditionSpec.ind with
  | and cs ih | or cs ih =>
    intro a ha hins
    obtain ⟨hne, hmem⟩ := hall ih ha hins
    rw [compileToBool, hne]
    exact List.mem_append_left _ hmem
  | not c ih =>
    intro a ha hins
    exact List.mem_append_left _ (ih a ha hins)
  | _ => simp [ConditionSpec.atoms]

theorem readable_iff_atoms (view : Option Json) (c : ConditionSpec) :
    Readable view c ↔ ∀ a ∈ c.atoms, Readable view a := by
  have hall (cs : List ConditionSpec)
      (ih : ∀ c ∈ cs, (Readable view c ↔ ∀ a ∈ c.atoms, Readable view a)) :
      ReadableAll view cs ↔ ∀ a ∈ ConditionSpec.atomsOf cs, Readable view a := by
    induction cs with
    | nil => simp [ReadableAll, ConditionSpec.atomsOf]
    | cons c cs ihcs =>
      rw [ReadableAll, ih c List.mem_cons_self, ihcs fun d hd => ih d (List.mem_cons_of_mem _ hd),
        ConditionSpec.atomsOf, List.forall_mem_append]
  induction c using ConditionSpec.ind with
  | and cs ih | or cs ih => exact hall cs ih
  | not c ih => exact ih
  | _ => simp [ConditionSpec.atoms]

/-- A condition has the value of the interpreter if its atoms have. -/
theorem vmValue_eq_of_atoms {lib : TextLib} {view : Option Json} {bodySize : UInt64} {now : Int64}
    {context : EvalContext} {c : ConditionSpec}
    (h : ∀ a ∈ c.atoms, vmValue lib view bodySize now a = a.toExpression.evaluate context) :
    vmValue lib view bodySize now c = c.toExpression.evaluate context := by
  have hall (cs : List ConditionSpec)
      (ih : ∀ c ∈ cs, vmValue lib view bodySize now c = c.toExpression.evaluate context) :
      (vmValues lib view bodySize now cs).all id =
          Expression.evaluateAll context (ConditionSpec.toExpressions cs) ∧
        (vmValues lib view bodySize now cs).any id =
          Expression.evaluateAny context (ConditionSpec.toExpressions cs) := by
    induction cs with
    | nil => exact ⟨rfl, rfl⟩
    | cons c cs ihcs =>
      obtain ⟨hand, hor⟩ := ihcs fun d hd => ih d (List.mem_cons_of_mem _ hd)
      rw [vmValues, List.all_cons, List.any_cons, ih c List.mem_cons_self, hand, hor]
      exact ⟨rfl, rfl⟩
  induction c using ConditionSpec.ind with
  | and cs ih =>
    exact (hall cs fun c hc => ih c hc fun a ha =>
      h a (ConditionSpec.mem_atomsOf.mpr ⟨c, hc, ha⟩)).1
  | or cs ih =>
    exact (hall cs fun c hc => ih c hc fun a ha =>
      h a (ConditionSpec.mem_atomsOf.mpr ⟨c, hc, ha⟩)).2
  | not c ih =>
    rw [vmValue, ih h]
    rfl
  | _ => exact h _ (by simp [ConditionSpec.atoms])

/-- `s` and its canonical form compare with the expected text in the same way. -/
def TextAlike (t : Text) (s expected : String) : Prop :=
  rhoString t s = s ∨ (s ≠ expected ∧ rhoString t s ≠ expected)

/-- The atom finds what it reads in the body, and the two readings are one: strings compare as
their canonical forms do, a value that is no string is not the string its text is, and sizes are
on the same side of 2^63.  The conditions that the interpreter leaves to the VM hold there. -/
def ReadAlike (t : Text) (lib : TextLib) (members : List (String × Json)) (bodySize : UInt64)
    (now : Int64) : ConditionSpec → Prop
  | .contextEquals key value => ∃ s, members.lookup key = some (.string s) ∧
    match value.asStr with
    | some expected => TextAlike t s expected
    | none => rhoString t s ≠ lib.display value
  | .typeEquals chipType => ∃ s, members.lookup "@type" = some (.string s) ∧ TextAlike t s chipType
  | .bodySizeLte limit => bodySize.toNat < 2 ^ 63 ↔ limit.toNat < 2 ^ 63
  | .amountLte field amount => ∃ v i, members.lookup field = some v ∧ v.asI64 = some i ∧ i ≤ amount
  | .timestampWithinSecs field windowSecs => ∃ v i, members.lookup field = some v ∧
    v.asI64 = some i ∧ saturate (now.toInt - i.toInt) ≤ windowSecs
  | _ => True

theorem textAlike_iff {t : Text} {s expected : String} :
    TextAlike t s expected ↔ (rhoString t s = expected ↔ s = expected) := by
  unfold TextAlike
  grind

theorem utf8_beq_iff {s expected : String} {b : Bool} :
    (utf8 s == utf8 expected) = b ↔ (s = expected ↔ b = true) := by
  rw [Bool.eq_iff_iff, beq_iff_eq, utf8_injective.eq_iff]

/-- A signed and an unsigned comparison. -/
theorem toInt64_le_iff (a b : UInt64) : decide (a.toInt64 ≤ b.toInt64) = decide (a ≤ b) ↔
    (a.toNat < 2 ^ 63 ↔ b.toNat < 2 ^ 63) := by
  rw [decide_eq_decide, Int64.le_iff_toInt_le, UInt64.le_iff_toNat_le]
  have hsigned (n : UInt64) : n.toInt64.toInt = if 2 * n.toNat < 2 ^ 64 then (n.toNat : Int)
      else n.toNat - 2 ^ 64 := BitVec.toInt_eq_toNat_cond n.toBitVec
  have ha := a.toNat_lt
  have hb := b.toNat_lt
  rw [hsigned, hsigned]
  split_ifs <;> omega

section Atom

variable {t : Text} {members : List (String × Json)} (hd : DistinctKeys members)

include hd

theorem get_asStr_rho (key s : String) :
    ((rho t (.object members)).get key).bind Json.asStr = some s ↔
      ∃ s₀, members.lookup key = some (.string s₀) ∧ rhoString t s₀ = s := by
  rw [get_rho t hd, present]
  cases members.lookup key with
  | none => simp
  | some v => cases v <;> simp [Option.filter_some, Json.isNull, rho, Json.asStr]

theorem get_asI64_rho (field : String) (i : Int64) :
    ((rho t (.object members)).get field).bind Json.asI64 = some i ↔
      ∃ v, members.lookup field = some v ∧ v.asI64 = some i := by
  rw [get_rho t hd, present]
  cases members.lookup field with
  | none => simp
  | some v => cases v <;> simp [Option.filter_some, Json.isNull, rho, Json.asI64]

/-- The variables of the interpreter. -/
theorem lookup_contextOf (bodySize : UInt64) (key : String) :
    (contextOf members bodySize).vars.lookup key = present members key := by
  unfold contextOf present
  induction members with
  | nil => rfl
  | cons e members ih =>
    obtain ⟨hk, hd⟩ := List.nodup_cons.mp hd
    have ih := ih hd
    rw [List.filter_cons, lookup_cons_eq]
    by_cases hkey : key = e.1
    · subst hkey
      cases hnull : e.2.isNull with
      | true =>
        rw [if_pos rfl, Option.filter_some, hnull]
        simpa [hnull, lookup_none hk] using ih
      | false =>
        obtain ⟨k, v⟩ := e
        simp [Option.filter_some, hnull]
    · rw [if_neg hkey, ← ih]
      split_ifs
      · rw [lookup_cons_eq, if_neg hkey]
      · rfl

/-- A string field that is there and compares as it should. -/
theorem stringAtom_iff {key : String} {expected : List UInt8} {b : Bool} :
    ((∃ j s, some (rho t (.object members)) = some j ∧ (j.get key).bind Json.asStr = some s) ∧
        fieldEquals (some (rho t (.object members))) key expected = b) ↔
      ∃ s, members.lookup key = some (.string s) ∧ (utf8 (rhoString t s) == expected) = b := by
  have hread {s : String} (hs : members.lookup key = some (.string s)) :
      fieldEquals (some (rho t (.object members))) key expected =
        (utf8 (rhoString t s) == expected) := by
    rw [fieldEquals, Option.bind_some, (get_asStr_rho hd key _).mpr ⟨s, hs, rfl⟩]
    rfl
  constructor
  · rintro ⟨⟨j, s, hj, hs⟩, hsame⟩
    obtain rfl := Option.some.inj hj
    obtain ⟨s₀, hs₀, -⟩ := (get_asStr_rho hd key s).mp hs
    exact ⟨s₀, hs₀, hread hs₀ ▸ hsame⟩
  · rintro ⟨s, hs, hsame⟩
    exact ⟨⟨_, _, rfl, (get_asStr_rho hd key _).mpr ⟨s, hs, rfl⟩⟩, hread hs ▸ hsame⟩

/-- An integer field that is there, in a comparison that the interpreter takes to hold. -/
theorem intAtom_iff {field : String} {p : Int64 → Prop} [DecidablePred p] :
    ((∃ j i, some (rho t (.object members)) = some j ∧ (j.get field).bind Json.asI64 = some i) ∧
        decide (p (fieldInt (some (rho t (.object members))) field)) = true) ↔
      ∃ v i, members.lookup field = some v ∧ v.asI64 = some i ∧ p i := by
  have hread {v : Json} {i : Int64} (hv : members.lookup field = some v) (hi : v.asI64 = some i) :
      fieldInt (some (rho t (.object members))) field = i := by
    rw [fieldInt, Option.bind_some, (get_asI64_rho hd field i).mpr ⟨v, hv, hi⟩]
    rfl
  constructor
  · rintro ⟨⟨j, i, hj, hi⟩, hholds⟩
    obtain rfl := Option.some.inj hj
    obtain ⟨v, hv, hvi⟩ := (get_asI64_rho hd field i).mp hi
    rw [hread hv hvi] at hholds
    exact ⟨v, i, hv, hvi, of_decide_eq_true hholds⟩
  · rintro ⟨v, i, hv, hi, hholds⟩
    rw [hread hv hi]
    exact ⟨⟨_, i, rfl, (get_asI64_rho hd field i).mpr ⟨v, hv, hi⟩⟩, decide_eq_true hholds⟩

/-- An atom agrees by itself exactly when the two readings of it are one. -/
theorem readAlike_iff (lib : TextLib) (bodySize : UInt64) (now : Int64) (c : ConditionSpec) :
    ∀ a ∈ c.atoms, ReadAlike t lib members bodySize now a ↔
      Readable (some (rho t (.object members))) a ∧
        vmValue lib (some (rho t (.object members))) bodySize now a =
          a.toExpression.evaluate (contextOf members bodySize) := by
  refine ConditionSpec.atoms_ind ?always ?has ?equals ?size ?type ?amount ?timestamp c
  case always =>
    intro b
    simp [ReadAlike, Readable, vmValue, ConditionSpec.toExpression, Expression.evaluate]
  case has =>
    intro key
    simp only [ReadAlike, Readable, vmValue, ConditionSpec.toExpression, Expression.evaluate,
      lookup_contextOf hd, true_iff]
    refine ⟨rfl, ?_⟩
    rw [Option.map_some, Option.getD_some, hasKey, get_rho t hd, present]
    cases members.lookup key with
    | none => rfl
    | some v => cases hnull : v.isNull <;> simp [Option.filter_some, hnull]
  case equals =>
    intro key value
    rw [ReadAlike, Readable, vmValue, ConditionSpec.toExpression, Expression.evaluate,
      lookup_contextOf hd, stringAtom_iff hd]
    refine exists_congr fun s => and_congr_right fun hs => ?_
    have hpresent : present members key = some (.string s) := by
      rw [present, hs]
      rfl
    rw [hpresent, Option.map_some, Option.getD_some, expectedText]
    cases value with
    | string expected =>
      rw [Json.asStr, utf8_beq_iff, valueEq, beq_iff_eq]
      exact textAlike_iff
    | _ => simp [Json.asStr, valueEq, utf8_injective.eq_iff]
  case type =>
    intro chipType
    rw [ReadAlike, Readable, vmValue, ConditionSpec.toExpression, Expression.evaluate,
      stringAtom_iff hd]
    refine exists_congr fun s => and_congr_right fun hs => ?_
    have htype : ((contextOf members bodySize).chip.get "@type").bind Json.asStr = some s := by
      rw [contextOf, Json.get, hs]
      rfl
    rw [htype, Option.map_some, Option.getD_some, utf8_beq_iff, beq_iff_eq]
    exact textAlike_iff
  case size =>
    intro limit
    rw [ReadAlike, Readable, vmValue, ConditionSpec.toExpression, Expression.evaluate, true_and]
    exact (toInt64_le_iff bodySize limit).symm
  case amount =>
    intro field amount
    exact (intAtom_iff hd).symm
  case timestamp =>
    intro field windowSecs
    exact (@intAtom_iff _ _ hd _ (fun i => saturate (now.toInt - i.toInt) ≤ windowSecs) _).symm

end Atom

/-- The compiled condition and the interpreter agree on a body where each atom is read alike; what
the condition reads is there wherever they agree; and the atoms are read alike exactly if the two
agree on each of them. -/
theorem compileToBool_agrees_iff (t : Text) (lib : TextLib) (env : VmEnv σ) (cas : σ)
    (members : List (String × Json)) (hd : DistinctKeys members)
    (htext : HoldsText t env cas (.object members)) (c : ConditionSpec)
    (hshort : ∀ ins ∈ compileToBool lib c, ins.Short) :
    ((∀ a ∈ c.atoms, ReadAlike t lib members env.bodySize env.now a) →
      Agrees lib env cas members c) ∧
    (Agrees lib env cas members c → ∀ a ∈ c.atoms, Readable (some (rho t (.object members))) a) ∧
    ((∀ a ∈ c.atoms, Agrees lib env cas members a) ↔
      ∀ a ∈ c.atoms, ReadAlike t lib members env.bodySize env.now a) := by
  have halike (a) (ha : a ∈ c.atoms) := readAlike_iff (t := t) hd lib env.bodySize env.now c a ha
  refine ⟨fun h => (agrees_iff htext hshort).mpr ⟨?_, ?_⟩, fun h => ?_, ?_⟩
  · exact (readable_iff_atoms _ c).mpr fun a ha => ((halike a ha).mp (h a ha)).1
  · exact vmValue_eq_of_atoms fun a ha => ((halike a ha).mp (h a ha)).2
  · exact (readable_iff_atoms _ c).mp ((agrees_iff htext hshort).mp h).1
  · refine forall₂_congr fun a ha => ?_
    rw [halike a ha, agrees_iff htext fun ins hins =>
      hshort ins (mem_compileToBool_of_atoms c a ha hins)]

/-- A machine with one stored input, the text of `body`. -/
def textEnv (t : Text) (text : String) (body : Json) (bodySize : UInt64) : VmEnv Unit where
  put _ _ := ((), ⟨"b3:00"⟩)
  get _ cid := if cid = ⟨"b3:01"⟩ then some (utf8 text) else none
  signJws _ := List.replicate 64 0
  canon := rho t
  fromSlice b := if b = utf8 text then some body else none
  toVec _ := []
  numFromValue _ := none
  parseBigInt _ := .error ""
  blake3 _ := []
  verify _ _ _ := false
  base64 _ := ""
  now := 0
  inputs := [⟨"b3:01"⟩]
  bodySize := bodySize

theorem holdsText_textEnv (t : Text) (text : String) (body : Json) (bodySize : UInt64) :
    HoldsText t (textEnv t text body bodySize) () body :=
  ⟨rfl, ⟨"b3:01"⟩, utf8 text, rfl, by simp [textEnv], by simp [textEnv]⟩

/-- No text of the samples is displayed or has an upper-case letter. -/
def plainLib : TextLib := ⟨fun _ => "", id⟩

/-- `{"role": "admin"}`. -/
def adminBody : List (String × Json) := [("role", .string "admin")]

/-- `Or [ContextHas "token", ContextEquals "role" "admin"]`. -/
def tokenOrAdmin : ConditionSpec :=
  .or [.contextHas "token", .contextEquals "role" (.string "admin")]

theorem compileToBool_agrees_admin :
    Agrees plainLib (textEnv Nrf.asciiText "\x7b\"role\":\"admin\"\x7d" (.object adminBody) 16) ()
      adminBody tokenOrAdmin := by
  refine (compileToBool_agrees_iff Nrf.asciiText plainLib
    (textEnv Nrf.asciiText "\x7b\"role\":\"admin\"\x7d" (.object adminBody) 16) () adminBody
    (List.nodup_singleton _) (holdsText_textEnv _ _ _ _) tokenOrAdmin ?short).1 ?alike
  case short =>
    simp [tokenOrAdmin, compileToBool, compileAllToBool, compileFieldEquals, loadBody, expectedText,
      Json.asStr, Instr.Short]
    decide
  case alike =>
    simp only [tokenOrAdmin, ConditionSpec.atoms, ConditionSpec.atomsOf, List.append_nil,
      List.mem_append, List.mem_singleton, forall_eq_or_imp, forall_eq]
    refine ⟨trivial, "admin", rfl, .inl ?_⟩
    decide

/-- `Not (ContextEquals "role" "admin")` on the empty body: the interpreter says true, the
compiled code ends in a denial. -/
theorem compileToBool_missing_field_disagrees :
    HoldsText Nrf.asciiText (textEnv Nrf.asciiText "\x7b\x7d" (.object []) 2) () (.object []) ∧
      ¬ Agrees plainLib (textEnv Nrf.asciiText "\x7b\x7d" (.object []) 2) () []
        (.not (.contextEquals "role" (.string "admin"))) := by
  have htext := holdsText_textEnv Nrf.asciiText "\x7b\x7d" (.object []) 2
  refine ⟨htext, ?_⟩
  rintro ⟨code, hcode, hrun⟩
  rw [decodeStream_encode ?short] at hcode
  case short =>
    simp [compileToBool, compileFieldEquals, loadBody, expectedText, Json.asStr, Instr.Short]
    decide
  obtain rfl := Except.ok.inj hcode
  obtain ⟨hread, -⟩ := (run_compileToBool _ _ _ _ _).mp hrun
  rw [htext.bodyView] at hread
  obtain ⟨j, s, hj, hs⟩ := hread
  obtain rfl := Option.some.inj hj
  cases hs

end Ubl.Silicon
