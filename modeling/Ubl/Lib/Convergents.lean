import Mathlib.Algebra.Order.Round
import Mathlib.Tactic.Linarith
import Mathlib.Tactic.LinearCombination
import Mathlib.Tactic.Ring

/-!
# Convergents of a continued fraction

A number is expanded by taking off the floor and inverting what is left.  Two convergents in a row
and the rest `x` that is still to be expanded determine the number (`Running`):

    r * (x * q1 + q0) = x * p1 + p0,    p1 * q0 - p0 * q1 = ±1

From this, a convergent is the number where nothing is left (`Running.exact`), and is nearer to it
than the next denominator allows (`Running.abs_sub_lt`).
-/

namespace Convergents

variable {α : Type} [Field α] [LinearOrder α]

/-- The convergents `p0 / q0` and `p1 / q1` of `r`, with `x` to be expanded.  At the start the
second one is infinite. -/
structure Running (r : α) (p0 q0 p1 q1 : ℤ) (x : α) : Prop where
  det : |p1 * q0 - p0 * q1| = 1
  rest : r * (x * q1 + q0) = x * p1 + p0
  dens : (q1 = 0 ∧ q0 = 1) ∨ (1 ≤ q1 ∧ 0 ≤ q0 ∧ 1 ≤ x)

variable {r x : α} {p0 q0 p1 q1 limit : ℤ}

theorem Running.start (r : α) : Running r 0 1 1 0 r where
  det := by simp
  rest := by push_cast; ring
  dens := .inl ⟨rfl, rfl⟩

variable [FloorRing α]

/-- The next denominator is at least one. -/
theorem Running.one_le_den (h : Running r p0 q0 p1 q1 x) : 1 ≤ ⌊x⌋ * q1 + q0 := by
  rcases h.dens with ⟨hq1, hq0⟩ | ⟨hq1, hq0, hx⟩
  · rw [hq1, hq0, mul_zero, zero_add]
  · have hfloor : 1 ≤ ⌊x⌋ := Int.le_floor.mpr (by exact_mod_cast hx)
    nlinarith

/-- A convergent that is followed by one with a larger denominator is finite. -/
theorem Running.one_le_of_lt (h : Running r p0 q0 p1 q1 x) (hlimit : 1 ≤ limit)
    (hover : limit < ⌊x⌋ * q1 + q0) : 1 ≤ q1 := by
  rcases h.dens with ⟨hq1, hq0⟩ | ⟨hq1, -, -⟩
  · rw [hq1, hq0, mul_zero, zero_add] at hover
    omega
  · exact hq1

/-- Where nothing is left the next convergent is the number. -/
theorem Running.exact (h : Running r p0 q0 p1 q1 x) (hx : Int.fract x = 0) :
    ((⌊x⌋ * p1 + p0 : ℤ) : α) / ((⌊x⌋ * q1 + q0 : ℤ) : α) = r := by
  have hden : ((⌊x⌋ * q1 + q0 : ℤ) : α) ≠ 0 := by
    have hpos := h.one_le_den
    exact_mod_cast (by omega : ⌊x⌋ * q1 + q0 ≠ 0)
  have hfloor : (⌊x⌋ : α) = x := by
    rw [← Int.self_sub_floor, sub_eq_zero] at hx
    exact hx.symm
  rw [div_eq_iff hden]
  push_cast
  rw [hfloor, h.rest]

variable [IsStrictOrderedRing α]

/-- One turn of the expansion. -/
theorem Running.step (h : Running r p0 q0 p1 q1 x) (hx : Int.fract x ≠ 0) :
    Running r p1 q1 (⌊x⌋ * p1 + p0) (⌊x⌋ * q1 + q0) (Int.fract x)⁻¹ where
  det := by
    have hflip : (⌊x⌋ * p1 + p0) * q1 - p1 * (⌊x⌋ * q1 + q0) = -(p1 * q0 - p0 * q1) := by ring
    rw [hflip, abs_neg, h.det]
  rest := by
    have hsplit := Int.floor_add_fract x
    push_cast
    field_simp
    linear_combination h.rest + (r * q1 - p1) * hsplit
  dens := by
    refine .inr ⟨h.one_le_den, ?_, ?_⟩
    · rcases h.dens with ⟨hq1, -⟩ | ⟨hq1, -, -⟩ <;> omega
    · exact one_le_inv_iff₀.mpr
        ⟨lt_of_le_of_ne (Int.fract_nonneg x) hx.symm, (Int.fract_lt_one x).le⟩

/-- The error is less than one over the product of the denominator and any lower bound of the next
one. -/
theorem Running.abs_sub_lt (h : Running r p0 q0 p1 q1 x) (hlimit : 1 ≤ limit)
    (hover : limit < ⌊x⌋ * q1 + q0) : |r - p1 / q1| < 1 / (q1 * limit) := by
  have hq1 : (0 : α) < q1 := by exact_mod_cast h.one_le_of_lt hlimit hover
  have hlimit' : (0 : α) < limit := by exact_mod_cast hlimit
  have hnext : (limit : α) < x * q1 + q0 := by
    have hfloor : (⌊x⌋ : α) * q1 ≤ x * q1 := mul_le_mul_of_nonneg_right (Int.floor_le x) hq1.le
    have hover' : (limit : α) < ⌊x⌋ * q1 + q0 := by exact_mod_cast hover
    linarith
  have hden : (0 : α) < x * q1 + q0 := hlimit'.trans hnext
  have hdet : |((p1 * q0 - p0 * q1 : ℤ) : α)| = 1 := by
    rw [← Int.cast_abs, h.det, Int.cast_one]
  have herror : (r - p1 / q1) * (q1 * (x * q1 + q0)) = -((p1 * q0 - p0 * q1 : ℤ) : α) := by
    field_simp
    push_cast
    linear_combination (q1 : α) * h.rest
  have hprod : |r - p1 / q1| * (q1 * (x * q1 + q0)) = 1 := by
    rw [← abs_of_pos (mul_pos hq1 hden), ← abs_mul, herror, abs_neg, hdet]
  have hpos : 0 < |r - p1 / q1| := by
    refine lt_of_le_of_ne (abs_nonneg _) fun hzero => ?_
    rw [← hzero, zero_mul] at hprod
    exact zero_ne_one hprod
  rw [lt_div_iff₀ (mul_pos hq1 hlimit'), ← hprod]
  exact mul_lt_mul_of_pos_left (mul_lt_mul_of_pos_left hnext hq1) hpos

end Convergents
