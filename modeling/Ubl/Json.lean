import Ubl.Lib.AssocMap

/-!
# JSON values as `serde_json` holds them

`Json` is `serde_json::Value` built with `preserve_order`: an object is the list
of its members in insertion order, with distinct keys (`Json.DistinctKeys`).
A number is an unsigned or a negative 64-bit integer or a finite double, given
by its bits.
-/

namespace Ubl

open AssocMap

/-- Exponent field not all ones: neither infinite nor NaN. -/
def f64IsFinite (bits : UInt64) : Bool := (bits >>> 52) &&& 0x7ff ≠ 0x7ff

/-- `serde_json::Number`. -/
inductive Number where
  | posInt (n : UInt64)
  | negInt (i : Int64) (neg : i < 0)
  | float (bits : UInt64) (finite : f64IsFinite bits)
deriving DecidableEq

namespace Number

def isI64 : Number → Bool
  | .posInt n => n.toNat < 2 ^ 63
  | .negInt _ _ => true
  | .float _ _ => false

def isU64 : Number → Bool
  | .posInt _ => true
  | _ => false

def asI64 : Number → Option Int64
  | .posInt n => if n.toNat < 2 ^ 63 then some n.toInt64 else none
  | .negInt i _ => some i
  | .float _ _ => none

def asU64 : Number → Option UInt64
  | .posInt n => some n
  | _ => none

theorem asI64_isSome (n : Number) : n.asI64.isSome = n.isI64 := by
  cases n with
  | posInt n =>
    simp only [asI64, isI64]
    split_ifs with h
    · exact (decide_eq_true h).symm
    · exact (decide_eq_false h).symm
  | negInt i h => rfl
  | float b h => rfl

theorem isI64_iff {n : Number} : n.isI64 ↔ ∃ i, n.asI64 = some i := by
  rw [← asI64_isSome, Option.isSome_iff_exists]

/-- Numbers are held in one way only, so an `i64` comes from one number. -/
theorem asI64_inj {m n : Number} {i : Int64} (hm : m.asI64 = some i) (hn : n.asI64 = some i) :
    m = n := by
  have nonneg (k : UInt64) (hk : k.toNat < 2 ^ 63) : k.toInt64.toInt = k.toNat := by
    have h2 : k.toInt64.toBitVec = k.toBitVec := rfl
    rw [← Int64.toInt_toBitVec, h2, BitVec.toInt_eq_toNat_of_lt (by simpa using by omega)]
    rfl
  have neg (j : Int64) (hj : j < 0) : j.toInt < 0 := by
    simpa using Int64.lt_iff_toInt_lt.mp hj
  cases m with
  | posInt a =>
    simp only [asI64, Option.ite_none_right_eq_some, Option.some.injEq] at hm
    obtain ⟨ha, rfl⟩ := hm
    cases n with
    | posInt b =>
      simp only [asI64, Option.ite_none_right_eq_some, Option.some.injEq] at hn
      obtain ⟨hb, hba⟩ := hn
      have h := congrArg Int64.toInt hba
      rw [nonneg a ha, nonneg b hb] at h
      rw [UInt64.toNat_inj.mp (by omega : b.toNat = a.toNat)]
    | negInt j hj =>
      obtain rfl := Option.some.inj hn
      have h1 := neg _ hj
      rw [nonneg a ha] at h1
      omega
    | float b hb => cases hn
  | negInt j hj =>
    obtain rfl := Option.some.inj hm
    cases n with
    | posInt b =>
      simp only [asI64, Option.ite_none_right_eq_some, Option.some.injEq] at hn
      obtain ⟨hb, rfl⟩ := hn
      have h1 := neg _ hj
      rw [nonneg b hb] at h1
      omega
    | negInt k hk =>
      obtain rfl := Option.some.inj hn
      rfl
    | float b hb => cases hn
  | float b hb => cases hm

end Number

/-- `serde_json::Value`; the members of an object stand in insertion order. -/
inductive Json where
  | null
  | bool (b : Bool)
  | number (n : Number)
  | string (s : String)
  | array (items : List Json)
  | object (members : List (String × Json))

namespace Json

def isNull : Json → Bool
  | .null => true
  | _ => false

def isString : Json → Bool
  | .string _ => true
  | _ => false

def asStr : Json → Option String
  | .string s => some s
  | _ => none

def asBool : Json → Option Bool
  | .bool b => some b
  | _ => none

def asI64 : Json → Option Int64
  | .number n => n.asI64
  | _ => none

def asU64 : Json → Option UInt64
  | .number n => n.asU64
  | _ => none

def asArray : Json → Option (List Json)
  | .array items => some items
  | _ => none

def asObject : Json → Option (List (String × Json))
  | .object members => some members
  | _ => none

/-- `Value::get` with a string index. -/
def get (j : Json) (key : String) : Option Json :=
  match j with
  | .object members => members.lookup key
  | _ => none

theorem isNull_iff {j : Json} : j.isNull ↔ j = .null := by
  cases j <;> simp [isNull]

/-- Induction over a value: the elements of an array and the member values of
an object come first. -/
theorem ind {P : Json → Prop} (null : P .null) (bool : ∀ b, P (.bool b))
    (number : ∀ n, P (.number n)) (string : ∀ s, P (.string s))
    (array : ∀ items : List Json, (∀ v ∈ items, P v) → P (.array items))
    (object : ∀ members : List (String × Json), (∀ e ∈ members, P e.2) → P (.object members)) :
    ∀ j, P j := by
  intro j
  refine @Json.rec P (fun items => ∀ v ∈ items, P v) (fun members => ∀ e ∈ members, P e.2)
    (fun e => P e.2) null bool number string array object ?_ ?_ ?_ ?_ ?_ j
  · simp
  · intro v items hv hitems
    simpa using ⟨hv, hitems⟩
  · simp
  · intro e members he hmembers f hf
    rcases List.mem_cons.mp hf with rfl | hf
    · exact he
    · exact hmembers f hf
  · intro k v hv
    exact hv

/-- `P` holds of the value and of every value inside it. -/
inductive Everywhere (P : Json → Prop) : Json → Prop where
  | null (h : P .null) : Everywhere P .null
  | bool (b : Bool) (h : P (.bool b)) : Everywhere P (.bool b)
  | number (n : Number) (h : P (.number n)) : Everywhere P (.number n)
  | string (s : String) (h : P (.string s)) : Everywhere P (.string s)
  | array (items : List Json) (h : P (.array items)) (hi : ∀ v ∈ items, Everywhere P v) :
      Everywhere P (.array items)
  | object (members : List (String × Json)) (h : P (.object members))
      (hi : ∀ e ∈ members, Everywhere P e.2) : Everywhere P (.object members)

theorem Everywhere.here {P : Json → Prop} {j : Json} (h : Everywhere P j) : P j := by
  cases h <;> assumption

section

variable {P : Json → Prop}

@[simp] theorem everywhere_null : Everywhere P .null ↔ P .null :=
  ⟨Everywhere.here, .null⟩

@[simp] theorem everywhere_bool {b : Bool} : Everywhere P (.bool b) ↔ P (.bool b) :=
  ⟨Everywhere.here, .bool b⟩

@[simp] theorem everywhere_number {n : Number} : Everywhere P (.number n) ↔ P (.number n) :=
  ⟨Everywhere.here, .number n⟩

@[simp] theorem everywhere_string {s : String} : Everywhere P (.string s) ↔ P (.string s) :=
  ⟨Everywhere.here, .string s⟩

@[simp] theorem everywhere_array {items : List Json} :
    Everywhere P (.array items) ↔ P (.array items) ∧ ∀ v ∈ items, Everywhere P v := by
  constructor
  · rintro ⟨⟩
    exact ⟨by assumption, by assumption⟩
  · rintro ⟨h, hi⟩
    exact .array items h hi

@[simp] theorem everywhere_object {members : List (String × Json)} :
    Everywhere P (.object members) ↔
      P (.object members) ∧ ∀ e ∈ members, Everywhere P e.2 := by
  constructor
  · rintro ⟨⟩
    exact ⟨by assumption, by assumption⟩
  · rintro ⟨h, hi⟩
    exact .object members h hi

end

theorem Everywhere.mono {P Q : Json → Prop} (hPQ : ∀ j, P j → Q j) {j : Json}
    (h : Everywhere P j) : Everywhere Q j := by
  induction h with
  | null h => exact .null (hPQ _ h)
  | bool b h => exact .bool b (hPQ _ h)
  | number n h => exact .number n (hPQ _ h)
  | string s h => exact .string s (hPQ _ h)
  | array items h _ ih => exact .array items (hPQ _ h) ih
  | object members h _ ih => exact .object members (hPQ _ h) ih

theorem Everywhere.and {P Q : Json → Prop} {j : Json} (hP : Everywhere P j)
    (hQ : Everywhere Q j) : Everywhere (fun j => P j ∧ Q j) j := by
  induction hP with
  | null h => exact .null ⟨h, hQ.here⟩
  | bool b h => exact .bool b ⟨h, hQ.here⟩
  | number n h => exact .number n ⟨h, hQ.here⟩
  | string s h => exact .string s ⟨h, hQ.here⟩
  | array items h _ ih =>
    exact .array items ⟨h, hQ.here⟩ fun v hv => ih v hv ((everywhere_array.mp hQ).2 v hv)
  | object members h _ ih =>
    exact .object members ⟨h, hQ.here⟩ fun e he => ih e he ((everywhere_object.mp hQ).2 e he)

section

variable (p : Json → Bool)

mutual

/-- `Everywhere`, as a check. -/
def holdsEverywhere : Json → Bool
  | .array items => p (.array items) && holdsInItems items
  | .object members => p (.object members) && holdsInMembers members
  | j => p j

def holdsInItems : List Json → Bool
  | [] => true
  | v :: items => holdsEverywhere v && holdsInItems items

def holdsInMembers : List (String × Json) → Bool
  | [] => true
  | (_, v) :: members => holdsEverywhere v && holdsInMembers members

end

theorem holdsInItems_iff (items : List Json) :
    holdsInItems p items = true ↔ ∀ v ∈ items, holdsEverywhere p v = true := by
  induction items with
  | nil => simp [holdsInItems]
  | cons v items ih => simp [holdsInItems, ih]

theorem holdsInMembers_iff (members : List (String × Json)) :
    holdsInMembers p members = true ↔ ∀ e ∈ members, holdsEverywhere p e.2 = true := by
  induction members with
  | nil => simp [holdsInMembers]
  | cons e members ih => simp [holdsInMembers, ih]

theorem holdsEverywhere_iff (j : Json) :
    holdsEverywhere p j = true ↔ Everywhere (fun j => p j = true) j := by
  induction j using Json.ind with
  | null => simp [holdsEverywhere]
  | bool b => simp [holdsEverywhere]
  | number n => simp [holdsEverywhere]
  | string s => simp [holdsEverywhere]
  | array items ih =>
    rw [holdsEverywhere, Bool.and_eq_true, holdsInItems_iff, everywhere_array]
    exact and_congr_right fun _ => forall₂_congr ih
  | object members ih =>
    rw [holdsEverywhere, Bool.and_eq_true, holdsInMembers_iff, everywhere_object]
    exact and_congr_right fun _ => forall₂_congr ih

end

instance Everywhere.decidable {P : Json → Prop} [DecidablePred P] (j : Json) : Decidable (Everywhere P j) :=
  decidable_of_iff (holdsEverywhere (fun j => decide (P j)) j = true) <| by
    simp [holdsEverywhere_iff]

/-- Every object of the value, at any depth, has distinct keys: what a
`serde_json::Map` is by construction. -/
def DistinctKeys (j : Json) : Prop :=
  Everywhere (fun
    | .object members => AssocMap.DistinctKeys members
    | _ => True) j

end Json

end Ubl
