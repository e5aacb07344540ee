import Ubl.Unc1.Exact

/-!
# Units that the check does not see

A unit can stand on every number, and so on the ends of an interval as well as on the interval.
`check_units` compares the outer units only, and the bounds are taken without any: numbers with
different units are kept apart exactly where the difference is on the outside, or where the
operation fails for another reason (`unitsApart_iff`).
-/

namespace Ubl.Unc1

open ExceptLemmas

/-- The units attached anywhere in a number. -/
def Num.units : Num → List String
  | .int _ u => u.toList
  | .dec _ _ u => u.toList
  | .rat _ _ u => u.toList
  | .bnd lo hi u => u.toList ++ lo.units ++ hi.units

/-- Some unit in `a` differs from some unit in `b`. -/
def Mixed (a b : Num) : Prop := ∃ x ∈ a.units, ∃ y ∈ b.units, x ≠ y

section Units

variable {parse : String → Except String Int} {a b : Num}

/-- The bounds of a number can be taken. -/
def Readable (parse : String → Except String Int) (n : Num) : Prop :=
  (bndBounds parse n).isOk = true

theorem readable_point (h : a.rank ≠ 3) :
    Readable parse a ↔ (toRational parse a.stripUnit).isOk = true := by
  rw [Readable, bndBounds_point h, toRational_stripUnit]
  cases toRational parse a <;> exact Iff.rfl

/-- Where the operands have bounds, no operation but a division fails on intervals. -/
theorem isOk_bndBinaryOp {u : Option String} {op : IntervalOp} (hop : op ≠ .div) :
    (bndBinaryOp parse a b u op).isOk = true ↔ Readable parse a ∧ Readable parse b := by
  unfold bndBinaryOp Readable
  cases bndBounds parse a with
  | error e => simp [Except.isOk, Except.toBool]
  | ok A =>
    cases bndBounds parse b with
    | error e => simp [Except.isOk, Except.toBool]
    | ok B => cases op <;> simp_all [Except.isOk, Except.toBool]

/-- An operation other than a division fails for the outer units and for the literals only. -/
theorem isOk_binaryOp {op : IntervalOp} (hop : op ≠ .div) :
    (binaryOp parse a b op).isOk = true ↔
      Compatible a b ∧ Readable parse a ∧ Readable parse b := by
  by_cases hunits : Compatible a b
  · rw [binaryOp, hunits.checkUnits, bind_ok]
    split_ifs with hbnd
    · rw [isOk_bndBinaryOp hop]
      tauto
    · rw [not_or] at hbnd
      rw [readable_point hbnd.1, readable_point hbnd.2]
      cases toRational parse a.stripUnit with
      | error e => simp [Except.isOk, Except.toBool]
      | ok x =>
        cases toRational parse b.stripUnit with
        | error e => simp [Except.isOk, Except.toBool]
        | ok y => simpa [Except.isOk, Except.toBool] using hunits
  · cases hcheck : checkUnits a b with
    | error e => simp [binaryOp, hcheck, hunits, Except.isOk, Except.toBool]
    | ok u => exact absurd (checkUnits_eq_ok.mp hcheck).1 hunits

theorem isOk_compare :
    (compare parse a b).isOk = true ↔ Compatible a b ∧ Readable parse a ∧ Readable parse b := by
  by_cases hunits : Compatible a b
  · rw [compare, hunits.checkUnits, bind_ok]
    split_ifs with hbnd
    · unfold Readable
      cases bndBounds parse a with
      | error e => simp [Except.isOk, Except.toBool]
      | ok A =>
        cases bndBounds parse b with
        | error e => simp [Except.isOk, Except.toBool]
        | ok B =>
          simp only [bind_ok]
          split_ifs <;> simpa [Except.isOk, Except.toBool] using hunits
    · rw [not_or] at hbnd
      rw [readable_point hbnd.1, readable_point hbnd.2]
      cases toRational parse a.stripUnit with
      | error e => simp [Except.isOk, Except.toBool]
      | ok x =>
        cases toRational parse b.stripUnit with
        | error e => simp [Except.isOk, Except.toBool]
        | ok y => simpa [Except.isOk, Except.toBool] using hunits
  · cases hcheck : checkUnits a b with
    | error e => simp [compare, hcheck, hunits, Except.isOk, Except.toBool]
    | ok u => exact absurd (checkUnits_eq_ok.mp hcheck).1 hunits

end Units

/-- Numbers with different units are neither added nor subtracted nor compared. -/
def UnitsApart (parse : String → Except String Int) (a b : Num) : Prop :=
  Mixed a b → (add parse a b).isOk = false ∧ (sub parse a b).isOk = false ∧
    (compare parse a b).isOk = false

/-- Different units are kept apart where the outer ones differ, or a number cannot be read. -/
theorem unitsApart_iff (parse : String → Except String Int) (a b : Num) :
    UnitsApart parse a b ↔
      ¬ Mixed a b ∨ ¬ Compatible a b ∨ ¬ Readable parse a ∨ ¬ Readable parse b := by
  simp only [UnitsApart, ← Bool.not_eq_true, add, sub, isOk_compare,
    isOk_binaryOp (show IntervalOp.add ≠ .div from nofun),
    isOk_binaryOp (show IntervalOp.sub ≠ .div from nofun)]
  tauto

/-- An interval between two amounts in dollars, and an amount in euros. -/
theorem units_mixed :
    let a : Num := .bnd (.int "1" (some "USD")) (.int "2" (some "USD")) none
    let b : Num := .int "1" (some "EUR")
    Mixed a b ∧ (add parseNumeral a b).isOk = true ∧ (sub parseNumeral a b).isOk = true ∧
      (compare parseNumeral a b).isOk = true ∧ ¬ UnitsApart parseNumeral a b := by
  intro a b
  have hmixed : Mixed a b := ⟨"USD", by simp [a, Num.units], "EUR", by simp [b, Num.units], by decide⟩
  have hadd : (add parseNumeral a b).isOk = true := by decide +kernel
  refine ⟨hmixed, hadd, by decide +kernel, by decide +kernel, fun hapart => ?_⟩
  rw [(hapart hmixed).1] at hadd
  cases hadd

end Ubl.Unc1
