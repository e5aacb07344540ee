import Ubl.Lib.Numeral
import Ubl.Knock.Accepts
import Ubl.Unc1.Interval

/-!
# Which numbers KNOCK lets in

`validate_num_atom` checks an `@num` object key by key.  What it passes is a number: `serde` reads
it, and its literals are integers (`ReadsAs`).  The bounds of an interval are another matter.  They
can be computed and are in order just if the ends are points and the literals say so
(`knockWithOptions_usable_iff`).
-/

namespace Ubl.Knock

open AssocMap ExceptLemmas Numeral Unc1
open Nrf (asciiText)

/-! ## Reading a number -/

/-- A member of type `String`. -/
def stringField (map : List (String × Json)) (field : String) : Option String :=
  (map.lookup field).bind Json.asStr

/-- A member of type `u32`. -/
def u32Field (map : List (String × Json)) (field : String) : Option UInt32 :=
  ((map.lookup field).bind Json.asU64).bind fun n =>
    if n.toNat < 2 ^ 32 then some n.toUInt32 else none

/-- A member of type `Option<String>`: it may be missing or null. -/
def unitField (map : List (String × Json)) : Option (Option String) :=
  match map.lookup "u" with
  | none => some none
  | some .null => some none
  | some v => v.asStr.map some

/-- `serde_json::from_value::<Num>` on an object: the enum is tagged by `@num`, and members that
a variant does not have are passed over.  Ends of an interval are read where they are objects. -/
def numOfObject (map : List (String × Json)) : Option Unc1.Num :=
  match stringField map "@num" with
  | none => none
  | some tag =>
    if tag = "int/1" then do
      let v ← stringField map "v"
      let u ← unitField map
      pure (.int v u)
    else if tag = "dec/1" then do
      let m ← stringField map "m"
      let s ← u32Field map "s"
      let u ← unitField map
      pure (.dec m s u)
    else if tag = "rat/1" then do
      let p ← stringField map "p"
      let q ← stringField map "q"
      let u ← unitField map
      pure (.rat p q u)
    else if tag = "bnd/1" then
      match _h : map.lookup "lo" with
      | some (.object lo) =>
        match _h : map.lookup "hi" with
        | some (.object hi) => do
          let lo ← numOfObject lo
          let hi ← numOfObject hi
          let u ← unitField map
          pure (.bnd lo hi u)
        | _ => none
      | _ => none
    else none
termination_by sizeOf map
decreasing_by all_goals exact sizeOf_lt_of_lookup ‹_›

/-- The objects of a value that `check_numeric_nodes` has `validate_num_atom` check: those with a
tag that are not inside another one, and the ends of an interval. -/
inductive Validated : Json → List (String × Json) → Prop
  | atom {map : List (String × Json)} (htag : "@num" ∈ keys map) : Validated (.object map) map
  | bound {map inner m : List (String × Json)} {k : String}
      (htag : stringField map "@num" = some "bnd/1") (hk : k = "lo" ∨ k = "hi") (hin : map.lookup k = some (.object inner))
      (h : Validated (.object inner) m) : Validated (.object map) m
  | item {arr : List Json} {v : Json} {m : List (String × Json)} (hv : v ∈ arr)
      (h : Validated v m) : Validated (.array arr) m
  | member {map m : List (String × Json)} {e : String × Json} (htag : "@num" ∉ keys map)
      (he : e ∈ map) (h : Validated e.2 m) : Validated (.object map) m

/-! ## What an atom is worth -/

/-- The integer of a literal. -/
def literal (map : List (String × Json)) (field : String) : Option Int :=
  (stringField map field).bind fun s => readInt s.toList

/-- The value of an atom that is not an interval, read off its literals. -/
def pointValue (map : List (String × Json)) : Option ℚ :=
  match stringField map "@num" with
  | none => none
  | some tag =>
    if tag = "int/1" then (literal map "v").map fun v => (v : ℚ)
    else if tag = "dec/1" then do
      let m ← literal map "m"
      let s ← u32Field map "s"
      pure ((m : ℚ) / 10 ^ s.toNat)
    else if tag = "rat/1" then do
      let p ← literal map "p"
      let q ← literal map "q"
      pure ((p : ℚ) / q)
    else none

/-- The ends of an interval are no intervals, and the lower one is not above the upper one. -/
def EndsInOrder (map : List (String × Json)) : Prop :=
  stringField map "@num" = some "bnd/1" →
    ∃ lo hi x y, map.lookup "lo" = some (.object lo) ∧ map.lookup "hi" = some (.object hi) ∧
      pointValue lo = some x ∧ pointValue hi = some y ∧ x ≤ y

/-- The object is read as a number whose bounds can be computed, those of an interval in order. -/
def Usable (parse : String → Except String Int) (map : List (String × Json)) : Prop :=
  ∃ n, numOfObject map = some n ∧
    ∃ bounds, bndBounds parse n = .ok bounds ∧ (n.rank = 3 → bounds.1 ≤ bounds.2)

/-! ## Literals -/

/-- A literal is a numeral, and the test for zero is right about it. -/
theorem readInt_of_isBigintLiteral {s : String} (h : isBigintLiteral s) :
    ∃ i, readInt s.toList = some i ∧ (i = 0 ↔ isZeroBigint s) := by
  unfold isBigintLiteral at h
  unfold isZeroBigint
  split at h
  · cases h
  · next digits heq =>
    simp only [Bool.and_eq_true, Bool.not_eq_true', List.isEmpty_eq_false_iff] at h
    refine ⟨_, heq ▸ readInt_minus h.2, ?_⟩
    rw [heq, neg_eq_zero, Nat.cast_eq_zero, ofDigitChars_eq_zero h.2]
    simp [h.1]
  · next hne hminus =>
    have hne : s ≠ "" := by
      rintro rfl
      exact hne rfl
    refine ⟨_, readInt_digits h, ?_⟩
    rw [Nat.cast_eq_zero, ofDigitChars_eq_zero h]
    split
    · next digits heq => exact absurd heq (hminus digits)
    · next heq => simp [hne]

theorem literal_of_field {map : List (String × Json)} {field s : String}
    (hs : stringField map field = some s) (hlit : isBigintLiteral s) :
    ∃ i, literal map field = some i ∧ readInt s.toList = some i ∧ (i = 0 ↔ isZeroBigint s) := by
  obtain ⟨i, hi, hzero⟩ := readInt_of_isBigintLiteral hlit
  refine ⟨i, ?_, hi, hzero⟩
  rw [literal, hs, Option.bind_some, hi]

/-! ## What the validator passes -/

/-- An object whose fields are as the validator wants them, and the number it is. -/
inductive ReadsAs : List (String × Json) → Unc1.Num → Prop
  | int {map : List (String × Json)} {v : String} {u : Option String}
      (htag : stringField map "@num" = some "int/1") (hv : stringField map "v" = some v)
      (hlit : isBigintLiteral v) (hu : unitField map = some u) : ReadsAs map (.int v u)
  | dec {map : List (String × Json)} {m : String} {s : UInt32} {u : Option String}
      (htag : stringField map "@num" = some "dec/1") (hm : stringField map "m" = some m)
      (hlit : isBigintLiteral m) (hs : u32Field map "s" = some s) (hu : unitField map = some u) :
      ReadsAs map (.dec m s u)
  | rat {map : List (String × Json)} {p q : String} {u : Option String}
      (htag : stringField map "@num" = some "rat/1") (hp : stringField map "p" = some p)
      (hplit : isBigintLiteral p) (hq : stringField map "q" = some q) (hqlit : isBigintLiteral q)
      (hzero : ¬ isZeroBigint q) (hu : unitField map = some u) : ReadsAs map (.rat p q u)
  | bnd {map lo hi : List (String × Json)} {nlo nhi : Unc1.Num} {u : Option String}
      (htag : stringField map "@num" = some "bnd/1") (hlo : map.lookup "lo" = some (.object lo))
      (hhi : map.lookup "hi" = some (.object hi)) (hnlo : ReadsAs lo nlo) (hnhi : ReadsAs hi nhi)
      (hu : unitField map = some u) : ReadsAs map (.bnd nlo nhi u)

theorem ensureBigintField_spec {map : List (String × Json)} {field path s : String}
    (h : ensureBigintField map field path = .ok s) :
    stringField map field = some s ∧ isBigintLiteral s := by
  have hlookup := ensureBigintField_eq_ok h
  have hs : (map.lookup field).bind Json.asStr = some s := by rw [hlookup]; rfl
  refine ⟨hs, ?_⟩
  unfold ensureBigintField at h
  rw [hs] at h
  by_contra hlit
  simp only [if_neg hlit] at h
  cases h

theorem ensureU32Field_spec {map : List (String × Json)} {field path : String} {n : UInt32}
    (h : ensureU32Field map field path = .ok n) : u32Field map field = some n := by
  unfold ensureU32Field at h
  unfold u32Field
  split at h
  · cases h
  · next m hm =>
    rw [hm, Option.bind_some]
    split_ifs at h ⊢
    rw [Except.ok.inj h]

theorem ensureOptionalUnit_spec {map : List (String × Json)} {path : String}
    (h : ensureOptionalUnit map path = .ok ()) : ∃ u, unitField map = some u := by
  unfold ensureOptionalUnit at h
  unfold unitField
  cases hu : map.lookup "u" with
  | none => exact ⟨none, rfl⟩
  | some v =>
    rw [hu] at h
    cases v with
    | string s => exact ⟨some s, rfl⟩
    | null => exact ⟨none, rfl⟩
    | _ => simp [Json.isString] at h

/-- Whatever the validator passes is a number. -/
theorem validateNumAtom_readsAs {map : List (String × Json)} {path : String}
    (h : validateNumAtom map path = .ok ()) : ∃ n, ReadsAs map n := by
  fun_induction validateNumAtom map path with
  | case1 => cases h
  | case2 map path htag =>
    obtain ⟨⟨⟩, -, h⟩ := bind_eq_ok.mp h
    obtain ⟨v, hv, hu⟩ := bind_eq_ok.mp h
    obtain ⟨u, hu⟩ := ensureOptionalUnit_spec hu
    obtain ⟨hv, hlit⟩ := ensureBigintField_spec hv
    exact ⟨_, .int htag hv hlit hu⟩
  | case3 map path htag =>
    obtain ⟨⟨⟩, -, h⟩ := bind_eq_ok.mp h
    obtain ⟨m, hm, h⟩ := bind_eq_ok.mp h
    obtain ⟨s, hs, hu⟩ := bind_eq_ok.mp h
    obtain ⟨u, hu⟩ := ensureOptionalUnit_spec hu
    obtain ⟨hm, hlit⟩ := ensureBigintField_spec hm
    exact ⟨_, .dec htag hm hlit (ensureU32Field_spec hs) hu⟩
  | case4 map path htag =>
    obtain ⟨⟨⟩, -, h⟩ := bind_eq_ok.mp h
    obtain ⟨p, hp, h⟩ := bind_eq_ok.mp h
    obtain ⟨q, hq, h⟩ := bind_eq_ok.mp h
    simp only [throw_eq_error, bind_error, ite_error_eq_ok] at h
    obtain ⟨hzero, hu⟩ := h
    obtain ⟨u, hu⟩ := ensureOptionalUnit_spec hu
    obtain ⟨hp, hplit⟩ := ensureBigintField_spec hp
    obtain ⟨hq, hqlit⟩ := ensureBigintField_spec hq
    exact ⟨_, .rat htag hp hplit hq hqlit hzero hu⟩
  | case5 map path htag _ _ _ ihlo ihhi =>
    obtain ⟨⟨⟩, -, h⟩ := bind_eq_ok.mp h
    split at h
    · next lo hlo =>
      split at h
      · next hi hhi =>
        obtain ⟨⟨⟩, hvlo, h⟩ := bind_eq_ok.mp h
        obtain ⟨⟨⟩, hvhi, hu⟩ := bind_eq_ok.mp h
        obtain ⟨u, hu⟩ := ensureOptionalUnit_spec hu
        obtain ⟨nlo, hnlo⟩ := ihlo lo hlo hvlo
        obtain ⟨nhi, hnhi⟩ := ihhi hi hhi hvhi
        exact ⟨_, .bnd htag hlo hhi hnlo hnhi hu⟩
      · cases h
    · cases h
  | case6 => cases h

/-- `serde` reads the number the fields say. -/
theorem ReadsAs.numOfObject_eq {map : List (String × Json)} {n : Unc1.Num} (h : ReadsAs map n) :
    numOfObject map = some n := by
  induction h with
  | int htag hv _ hu =>
    rw [numOfObject, htag]
    simp [hv, hu]
  | dec htag hm _ hs hu =>
    rw [numOfObject, htag]
    simp [hm, hs, hu]
  | rat htag hp _ hq _ _ hu =>
    rw [numOfObject, htag]
    simp [hp, hq, hu]
  | bnd htag hlo hhi _ _ hu ihlo ihhi =>
    rw [numOfObject, htag]
    simp only [show ("bnd/1" : String) ≠ "int/1" by decide,
      show ("bnd/1" : String) ≠ "dec/1" by decide, show ("bnd/1" : String) ≠ "rat/1" by decide,
      if_false, if_true]
    split
    · next lo' hlo' =>
      obtain rfl := Json.object.inj (Option.some.inj (hlo.symm.trans hlo'))
      split
      · next hi' hhi' =>
        obtain rfl := Json.object.inj (Option.some.inj (hhi.symm.trans hhi'))
        simp [ihlo, ihhi, hu]
      · next hne => exact absurd hhi (hne _)
    · next hne => exact absurd hlo (hne _)

/-! ## Bounds -/

theorem ReadsAs.rank_eq {map : List (String × Json)} {n : Unc1.Num} (h : ReadsAs map n) :
    n.rank = 3 ↔ stringField map "@num" = some "bnd/1" := by
  cases h with
  | bnd htag => exact iff_of_true rfl htag
  | int htag | dec htag | rat htag =>
    rw [htag]
    simp [Unc1.Num.rank]

section Parse

variable {parse : String → Except String Int}
  (hparse : ∀ s i, isBigintLiteral s → readInt s.toList = some i → parse s = .ok i)

include hparse

theorem parseBigint_literal {s : String} {i : Int} (hlit : isBigintLiteral s)
    (hi : readInt s.toList = some i) : parseBigint parse s = .ok i := by
  rw [parseBigint, hparse s i hlit hi]

/-- A point has the value its literals say. -/
theorem ReadsAs.point {map : List (String × Json)} {n : Unc1.Num} (h : ReadsAs map n)
    (hn : n.rank ≠ 3) : ∃ x, pointValue map = some x ∧ toRational parse n = .ok x := by
  cases h with
  | int htag hv hlit hu =>
    obtain ⟨i, hi, hread, -⟩ := literal_of_field hv hlit
    refine ⟨i, ?_, ?_⟩
    · rw [pointValue, htag]
      simp [hi]
    · rw [toRational, parseBigint_literal hparse hlit hread]
      rfl
  | @dec _ _ s _ htag hm hlit hs hu =>
    obtain ⟨i, hi, hread, -⟩ := literal_of_field hm hlit
    refine ⟨i / 10 ^ s.toNat, ?_, ?_⟩
    · rw [pointValue, htag]
      simp only [hi, hs]
      rfl
    · rw [toRational, parseBigint_literal hparse hlit hread]
      rw [bind_ok, mkRat_pow]
      rfl
  | rat htag hp hplit hq hqlit hzero hu =>
    obtain ⟨i, hi, hread, -⟩ := literal_of_field hp hplit
    obtain ⟨j, hj, hread', hjzero⟩ := literal_of_field hq hqlit
    have hj0 : j ≠ 0 := fun h => hzero (hjzero.mp h)
    refine ⟨i / j, ?_, ?_⟩
    · rw [pointValue, htag]
      simp only [hi, hj]
      rfl
    · rw [toRational, parseBigint_literal hparse hplit hread,
        parseBigint_literal hparse hqlit hread']
      simp [hj0]
  | bnd => exact absurd rfl hn

/-- An interval has no single value, on either side. -/
theorem ReadsAs.value {map : List (String × Json)} {n : Unc1.Num} (h : ReadsAs map n) {x : ℚ} :
    toRational parse n = .ok x ↔ pointValue map = some x := by
  by_cases hn : n.rank = 3
  · have htag := h.rank_eq.mp hn
    cases h with
    | bnd => simp [toRational, pointValue, htag]
    | _ => cases hn
  · obtain ⟨y, hy, hr⟩ := h.point hparse hn
    rw [hy, hr]
    simp

/-- What the validator passes is usable just if it is no interval, or one between points in
order. -/
theorem ReadsAs.usable_iff {map : List (String × Json)} {n : Unc1.Num} (h : ReadsAs map n) :
    Usable parse map ↔ EndsInOrder map := by
  have husable : Usable parse map ↔
      ∃ bounds, bndBounds parse n = .ok bounds ∧ (n.rank = 3 → bounds.1 ≤ bounds.2) := by
    simp [Usable, h.numOfObject_eq]
  rw [husable]
  by_cases hn : n.rank = 3
  · have htag := h.rank_eq.mp hn
    cases h with
    | bnd _ hlo hhi hnlo hnhi =>
      simp only [EndsInOrder, htag, hn, true_imp_iff, bndBounds, bind_eq_ok, pure_eq_ok,
        Except.ok.injEq, hnlo.value hparse, hnhi.value hparse, hlo, hhi, Option.some.injEq,
        Json.object.injEq]
      constructor
      · rintro ⟨_, ⟨x, hx, y, hy, rfl⟩, hle⟩
        exact ⟨_, _, x, y, rfl, rfl, hx, hy, hle⟩
      · rintro ⟨_, _, x, y, rfl, rfl, hx, hy, hle⟩
        exact ⟨_, ⟨x, hx, y, hy, rfl⟩, hle⟩
    | _ => cases hn
  · obtain ⟨x, -, hx⟩ := h.point hparse hn
    have hbounds : bndBounds parse n = .ok (x, x) := by rw [bndBounds_point hn, hx, bind_ok]
    exact iff_of_true ⟨_, hbounds, fun _ => le_rfl⟩ fun htag => absurd (h.rank_eq.mpr htag) hn

end Parse

/-! ## All numbers of a value -/

theorem mem_keys_of_stringField {map : List (String × Json)} {field s : String}
    (h : stringField map field = some s) : field ∈ keys map := by
  obtain ⟨v, hv, -⟩ := Option.bind_eq_some_iff.mp h
  exact mem_keys_of_mem (mem_of_lookup hv)

theorem ReadsAs.tagged {map : List (String × Json)} {n : Unc1.Num} (h : ReadsAs map n) :
    "@num" ∈ keys map := by
  cases h with
  | int htag | dec htag | rat htag | bnd htag => exact mem_keys_of_stringField htag

/-- What is checked inside a number is a number. -/
theorem ReadsAs.inner {v : Json} {m : List (String × Json)} (hm : Validated v m) :
    ∀ {map : List (String × Json)} {n : Unc1.Num}, v = .object map → ReadsAs map n →
      ∃ n', ReadsAs m n' := by
  induction hm with
  | atom =>
    rintro map n ⟨⟩ h
    exact ⟨n, h⟩
  | bound htag hk hin _ ih =>
    rintro map n ⟨⟩ h
    cases h with
    | bnd _ hlo hhi hnlo hnhi =>
      obtain rfl | rfl := hk
      · exact ih (Option.some.inj (hin.symm.trans hlo)) hnlo
      · exact ih (Option.some.inj (hin.symm.trans hhi)) hnhi
    | int htag' | dec htag' | rat htag' => exact absurd (htag.symm.trans htag') (by decide)
  | item => nofun
  | member htag =>
    rintro map n ⟨⟩ h
    exact absurd h.tagged htag

/-- Every object that is checked has passed. -/
theorem readsAs_of_checked {displayNumber : Number → String} {requireUnc1 : Bool} {v : Json}
    {m : List (String × Json)} (hm : Validated v m) :
    ∀ path, checkNumericNodes displayNumber requireUnc1 v path = .ok () → ∃ n, ReadsAs m n := by
  induction hm with
  | atom htag =>
    intro path h
    rw [checkNumericNodes, if_pos htag] at h
    exact validateNumAtom_readsAs h
  | bound htag hk hin hinner =>
    intro path h
    rw [checkNumericNodes, if_pos (mem_keys_of_stringField htag)] at h
    obtain ⟨n, hn⟩ := validateNumAtom_readsAs h
    exact ReadsAs.inner (.bound htag hk hin hinner) rfl hn
  | item hv _ ih =>
    intro path h
    obtain ⟨p, hp⟩ := checkNumericItems_eq_ok h _ hv
    exact ih p hp
  | member htag he _ ih =>
    intro path h
    rw [checkNumericNodes, if_neg htag] at h
    obtain ⟨p, hp⟩ := checkNumericMembers_eq_ok h _ he
    exact ih p hp

/-- A number that KNOCK lets in is usable just if it is no interval, or one between points in
order. -/
theorem knockWithOptions_usable_iff {parse : String → Except String Int}
    (hparse : ∀ s i, isBigintLiteral s → readInt s.toList = some i → parse s = .ok i)
    (env : KnockEnv) (bytes : List UInt8) (requireUnc1 : Bool) (mode : F64ImportMode) (v : Json)
    (h : knockWithOptions env bytes requireUnc1 mode = .ok v) (m : List (String × Json))
    (hm : Validated v m) : Usable parse m ↔ EndsInOrder m := by
  have hchecked := (knockParsedWithOptions_eq_ok (knockWithOptions_eq_ok h).2).2.2
  obtain ⟨n, hn⟩ := readsAs_of_checked hm "$" hchecked
  exact hn.usable_iff hparse

/-- An integer atom. -/
def intAtom (v : String) : List (String × Json) := [("@num", .string "int/1"), ("v", .string v)]

def bndAtom (lo hi : List (String × Json)) : List (String × Json) :=
  [("@num", .string "bnd/1"), ("lo", .object lo), ("hi", .object hi)]

/-- The text of `intAtom`. -/
def intText (v : String) : String := "\x7b\"@num\":\"int/1\",\"v\":\"" ++ v ++ "\"\x7d"

def bndText (lo hi : String) : String :=
  "\x7b\"@num\":\"bnd/1\",\"lo\":" ++ lo ++ ",\"hi\":" ++ hi ++ "\x7d"

def numbersText : String :=
  "\x7b\"@type\":\"t\",\"@world\":\"w\",\"n\":[" ++ bndText (intText "2") (intText "1") ++ "," ++
    bndText (bndText (intText "1") (intText "2")) (intText "3") ++ "]\x7d"

/-- What `serde_json` makes of `numbersText`: an interval upside down, and one whose lower end is
an interval. -/
def numbersBody : Json :=
  .object [("@type", .string "t"), ("@world", .string "w"),
    ("n", .array [.object (bndAtom (intAtom "2") (intAtom "1")),
      .object (bndAtom (bndAtom (intAtom "1") (intAtom "2")) (intAtom "3"))])]

def numbersEnv : KnockEnv where
  text := asciiText
  chrono := fun _ => none
  fromSlice := fun bytes =>
    if bytes = Utf8.utf8 numbersText then .ok numbersBody else .error "unread"
  displayNumber := fun _ => "0"

theorem numbersText_accepted :
    knockWithOptions numbersEnv (Utf8.utf8 numbersText) false .reject = .ok numbersBody := by
  have hraw : knockRaw (Utf8.utf8 numbersText) = .ok () := by decide +kernel
  have hparse : parseBody numbersEnv (Utf8.utf8 numbersText) = .ok numbersBody := by
    simp only [parseBody, numbersEnv, if_true]
  have hnormal : normalizeBody numbersEnv numbersBody = .ok numbersBody := by
    with_unfolding_all rfl
  have hchecks : knockParsedWithOptions numbersEnv numbersBody false = .ok () := by decide +kernel
  have hkeys : checkDuplicateKeys (Utf8.utf8 numbersText) = .ok () := by decide +kernel
  have hvalue : knockValue numbersEnv (Utf8.utf8 numbersText) false .reject = .ok numbersBody := by
    simp only [knockValue, hraw, hparse, hnormal, importF64, hchecks, bind_ok, pure_eq_ok]
  simp only [knockWithOptions, hvalue, hkeys]

theorem readsAs_intAtom {v : String} (hlit : isBigintLiteral v) :
    ReadsAs (intAtom v) (.int v none) :=
  .int rfl rfl hlit rfl

theorem readsAs_bndAtom {lo hi : List (String × Json)} {nlo nhi : Unc1.Num} (hlo : ReadsAs lo nlo)
    (hhi : ReadsAs hi nhi) : ReadsAs (bndAtom lo hi) (.bnd nlo nhi none) :=
  .bnd rfl rfl rfl hlo hhi rfl

theorem parseNumeral_literal (s : String) (i : Int) (_ : isBigintLiteral s)
    (hi : readInt s.toList = some i) : parseNumeral s = .ok i := by
  rw [parseNumeral, hi]

theorem validated_numbersBody {m : List (String × Json)} (hm : "@num" ∈ keys m)
    (hin : Json.object m ∈ [Json.object (bndAtom (intAtom "2") (intAtom "1")),
      .object (bndAtom (bndAtom (intAtom "1") (intAtom "2")) (intAtom "3"))]) :
    Validated numbersBody m := by
  refine .member (by decide) (e := ("n", _)) ?_ (.item hin (.atom hm))
  exact List.mem_cons_of_mem _ (List.mem_cons_of_mem _ List.mem_cons_self)

/-- Intervals are let in upside down, and with an interval for an end; neither can be used. -/
theorem numbersText_unusable : ∃ v inverted nested,
    knockWithOptions numbersEnv (Utf8.utf8 numbersText) false .reject = .ok v ∧
      Validated v inverted ∧ ¬ Usable parseNumeral inverted ∧
      Validated v nested ∧ ¬ Usable parseNumeral nested := by
  have h1 : ReadsAs (intAtom "1") (.int "1" none) := readsAs_intAtom (by decide)
  have h2 : ReadsAs (intAtom "2") (.int "2" none) := readsAs_intAtom (by decide)
  have h3 : ReadsAs (intAtom "3") (.int "3" none) := readsAs_intAtom (by decide)
  refine ⟨numbersBody, bndAtom (intAtom "2") (intAtom "1"),
    bndAtom (bndAtom (intAtom "1") (intAtom "2")) (intAtom "3"), numbersText_accepted,
    validated_numbersBody (by decide) List.mem_cons_self, ?_,
    validated_numbersBody (by decide) (List.mem_cons_of_mem _ List.mem_cons_self), ?_⟩
  · rw [(readsAs_bndAtom h2 h1).usable_iff parseNumeral_literal]
    intro horder
    obtain ⟨_, _, x, y, ⟨⟩, ⟨⟩, hx, hy, hle⟩ := horder rfl
    have hx2 : pointValue (intAtom "2") = some 2 := by decide +kernel
    have hy1 : pointValue (intAtom "1") = some 1 := by decide +kernel
    obtain rfl := Option.some.inj (hx.symm.trans hx2)
    obtain rfl := Option.some.inj (hy.symm.trans hy1)
    norm_num at hle
  · rw [(readsAs_bndAtom (readsAs_bndAtom h1 h2) h3).usable_iff parseNumeral_literal]
    intro horder
    obtain ⟨_, _, x, y, ⟨⟩, -, hx, -, -⟩ := horder rfl
    cases hx

theorem knockWithOptions_usable_iff_numbers :
    Usable parseNumeral (bndAtom (intAtom "2") (intAtom "1")) ↔
      EndsInOrder (bndAtom (intAtom "2") (intAtom "1")) :=
  knockWithOptions_usable_iff parseNumeral_literal numbersEnv (Utf8.utf8 numbersText) false .reject
    numbersBody numbersText_accepted _ (validated_numbersBody (by decide) List.mem_cons_self)

end Ubl.Knock
