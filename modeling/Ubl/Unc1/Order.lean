import Ubl.Unc1.Exact
import Mathlib.Data.Sign.Basic

/-!
# Comparison is an order

`compare` decides by the ends of two intervals where they lie apart, by the midpoints where they
overlap, and by the values where there is no interval.  All three are the sign of the difference of
the midpoints (`compare_eq`), so it makes no matter which of them decides.
-/

namespace Ubl.Unc1

open ExceptLemmas

/-- The number can be read, and its bounds are in order; a point has its value twice. -/
structure Bounded (parse : String → Except String Int) (a : Num) (A : ℚ × ℚ) : Prop where
  bounds : bndBounds parse a = .ok A
  le : A.1 ≤ A.2

def midpoint (A : ℚ × ℚ) : ℚ := (A.1 + A.2) / 2

/-- The sign that stands for how two numbers compare. -/
def order (A B : ℚ × ℚ) : ℤ := (SignType.sign (midpoint A - midpoint B) : SignType)

theorem order_neg (A B : ℚ × ℚ) : order B A = -order A B := by
  have hflip : midpoint B - midpoint A = -(midpoint A - midpoint B) := (neg_sub _ _).symm
  rw [order, order, hflip, Left.sign_neg]
  push_cast
  rfl

theorem order_nonpos_iff (A B : ℚ × ℚ) : order A B ≤ 0 ↔ midpoint A ≤ midpoint B := by
  unfold order
  rcases lt_trichotomy (midpoint A - midpoint B) 0 with h | h | h
  · simp [sign_neg h, (sub_neg.mp h).le]
  · simp [sub_eq_zero.mp h]
  · simp [sign_pos h, sub_pos.mp h]

theorem order_eq_zero_iff (A B : ℚ × ℚ) : order A B = 0 ↔ midpoint A = midpoint B := by
  unfold order
  rcases lt_trichotomy (midpoint A - midpoint B) 0 with h | h | h
  · simp [sign_neg h, (sub_neg.mp h).ne]
  · simp [sub_eq_zero.mp h]
  · simp [sign_pos h, (sub_pos.mp h).ne']

/-- An integer is read off its numeral. -/
theorem toString_int_injective {i j : ℤ} (h : toString i = toString j) : i = j := by
  have hi := Numeral.readInt_toString i
  rw [h, Numeral.readInt_toString] at hi
  exact (Option.some.inj hi).symm

section Compare

variable {parse : String → Except String Int} {a b c : Num} {A B C : ℚ × ℚ}

theorem orderingNum_midpoint : orderingNum (midpoint A) (midpoint B) =
    .int (toString (order A B)) none := by
  unfold orderingNum order
  rcases lt_trichotomy (midpoint A) (midpoint B) with h | h | h
  · rw [if_pos h, sign_neg (sub_neg.mpr h)]
    rfl
  · rw [if_neg h.not_lt, if_pos h, h, sub_self, sign_zero]
    rfl
  · rw [if_neg h.not_gt, if_neg h.ne', sign_pos (sub_pos.mpr h)]
    rfl

/-- The three ways of deciding are one. -/
theorem compare_eq (ha : Bounded parse a A) (hb : Bounded parse b B) (hunits : Compatible a b) :
    compare parse a b = .ok (.int (toString (order A B)) none) := by
  have hA := ha.le
  have hB := hb.le
  rw [compare, hunits.checkUnits, bind_ok]
  split_ifs with hbnd
  · rw [ha.bounds, bind_ok, hb.bounds, bind_ok]
    split_ifs with hbelow habove
    · have hlt : midpoint A < midpoint B := by
        unfold midpoint
        linarith
      rw [order, sign_neg (sub_neg.mpr hlt)]
      rfl
    · have hlt : midpoint B < midpoint A := by
        unfold midpoint
        linarith
      rw [order, sign_pos (sub_pos.mpr hlt)]
      rfl
    · exact congrArg Except.ok orderingNum_midpoint
  · have hpoint {n : Num} {N : ℚ × ℚ} (hrank : n.rank ≠ 3) (hn : bndBounds parse n = .ok N) :
        toRational parse n = .ok (midpoint N) := by
      rw [bndBounds_point hrank] at hn
      obtain ⟨r, hr, hN⟩ := bind_eq_ok.mp hn
      obtain rfl := Except.ok.inj hN
      rw [hr, midpoint, add_self_div_two]
    rw [not_or] at hbnd
    rw [toRational_stripUnit, hpoint hbnd.1 ha.bounds, bind_ok, toRational_stripUnit,
      hpoint hbnd.2 hb.bounds, bind_ok]
    exact congrArg Except.ok orderingNum_midpoint

/-- `compare` answers with the sign of the difference of the midpoints; with the operands changed
about it answers with the opposite sign, and it is transitive. -/
theorem compare_order (parse : String → Except String Int) (a b c : Num) (A B C : ℚ × ℚ)
    (ha : Bounded parse a A) (hb : Bounded parse b B) (hc : Bounded parse c C)
    (hab : Compatible a b) (hac : Compatible a c) (hbc : Compatible b c) :
    (∃ s : ℤ, compare parse a b = .ok (.int (toString s) none) ∧
      compare parse b a = .ok (.int (toString (-s)) none) ∧
      s = (SignType.sign ((A.1 + A.2) / 2 - (B.1 + B.2) / 2) : SignType)) ∧
    ∀ s t : ℤ, compare parse a b = .ok (.int (toString s) none) →
      compare parse b c = .ok (.int (toString t) none) → s ≤ 0 → t ≤ 0 →
      ∃ w : ℤ, compare parse a c = .ok (.int (toString w) none) ∧ w ≤ 0 ∧
        (w = 0 → s = 0 ∧ t = 0) := by
  refine ⟨⟨order A B, compare_eq ha hb hab, ?_, rfl⟩, fun s t hs ht hs0 ht0 => ?_⟩
  · rw [← order_neg]
    exact compare_eq hb ha hab.symm
  · have hs' : s = order A B := by
      rw [compare_eq ha hb hab] at hs
      exact (toString_int_injective (Num.int.inj (Except.ok.inj hs)).1).symm
    have ht' : t = order B C := by
      rw [compare_eq hb hc hbc] at ht
      exact (toString_int_injective (Num.int.inj (Except.ok.inj ht)).1).symm
    rw [hs', order_nonpos_iff] at hs0
    rw [ht', order_nonpos_iff] at ht0
    refine ⟨order A C, compare_eq ha hc hac, (order_nonpos_iff A C).mpr (hs0.trans ht0), fun hw => ?_⟩
    rw [order_eq_zero_iff] at hw
    rw [hs', ht', order_eq_zero_iff, order_eq_zero_iff]
    exact ⟨le_antisymm hs0 (hw ▸ ht0), le_antisymm ht0 (hw ▸ hs0)⟩

end Compare

/-- One, an interval from one to two, and two. -/
theorem compare_order_sample :
    let b : Num := .bnd (.int "1" none) (.int "2" none) none
    (∃ s : ℤ, compare parseNumeral (.int "1" none) b = .ok (.int (toString s) none) ∧
      compare parseNumeral b (.int "1" none) = .ok (.int (toString (-s)) none)) ∧
    ∃ w : ℤ, compare parseNumeral (.int "1" none) (.int "2" none) =
      .ok (.int (toString w) none) ∧ w ≤ 0 := by
  intro b
  have h := compare_order parseNumeral (.int "1" none) b (.int "2" none) (1, 1) (1, 2) (2, 2)
    ⟨by decide +kernel, le_rfl⟩ ⟨by decide +kernel, by norm_num⟩ ⟨by decide +kernel, le_rfl⟩
    (by simp [Compatible, Num.unit]) (by simp [Compatible, Num.unit])
    (by simp [Compatible, Num.unit])
  obtain ⟨⟨s, hs, hs', -⟩, htrans⟩ := h
  obtain ⟨w, hw, hle, -⟩ := htrans (-1) (-1) (by decide +kernel) (by decide +kernel) (by decide)
    (by decide)
  exact ⟨⟨s, hs, hs'⟩, w, hw, hle⟩

end Ubl.Unc1
