import Mathlib.Algebra.Order.Group.Pointwise.Interval
import Mathlib.Algebra.Order.Field.Basic
import Mathlib.Algebra.Order.Round
import Mathlib.Tactic.Linarith

/-!
# Products of intervals and outward rounding

The product of two numbers lies between the least and the greatest of the four products of the
ends of their intervals (`mul_mem_corners`), and so does a quotient by a single number.  Scaling
a number, rounding it down and up, and scaling back encloses it (`mem_outward`).
-/

namespace Interval

open Set

variable {α : Type} [Field α] [LinearOrder α] [IsStrictOrderedRing α]

theorem mul_mem_uIcc {a b x : α} (h : x ∈ uIcc a b) (c : α) : x * c ∈ uIcc (a * c) (b * c) := by
  rw [← image_mul_const_uIcc]
  exact mem_image_of_mem _ h

/-- The product of two members is among the products of the ends. -/
theorem mul_mem_corners {a₁ a₂ b₁ b₂ x y : α} (hx : x ∈ uIcc a₁ a₂) (hy : y ∈ uIcc b₁ b₂) :
    x * y ∈ Icc (min (min (a₁ * b₁) (a₁ * b₂)) (min (a₂ * b₁) (a₂ * b₂)))
      (max (max (a₁ * b₁) (a₁ * b₂)) (max (a₂ * b₁) (a₂ * b₂))) := by
  have hxy := mul_mem_uIcc hx y
  have h₁ : a₁ * y ∈ uIcc (a₁ * b₁) (a₁ * b₂) := by
    simpa only [mul_comm] using mul_mem_uIcc hy a₁
  have h₂ : a₂ * y ∈ uIcc (a₂ * b₁) (a₂ * b₂) := by
    simpa only [mul_comm] using mul_mem_uIcc hy a₂
  simp only [uIcc, mem_Icc] at hxy h₁ h₂ ⊢
  constructor
  · exact (min_le_min h₁.1 h₂.1).trans hxy.1
  · exact hxy.2.trans (max_le_max h₁.2 h₂.2)

variable [FloorRing α]

/-- Rounded outwards at a scale. -/
theorem mem_outward (x : α) {scale : α} (hscale : 0 < scale) :
    x ∈ Icc ((⌊x * scale⌋ : α) / scale) ((⌈x * scale⌉ : α) / scale) := by
  constructor
  · rw [div_le_iff₀ hscale]
    exact Int.floor_le _
  · rw [le_div_iff₀ hscale]
    exact Int.le_ceil _

/-- Neither end moves by as much as the scale can tell. -/
theorem outward_lt (x : α) {scale : α} (hscale : 0 < scale) :
    x - (⌊x * scale⌋ : α) / scale < 1 / scale ∧ (⌈x * scale⌉ : α) / scale - x < 1 / scale := by
  constructor
  · rw [sub_lt_iff_lt_add, ← add_div, lt_div_iff₀ hscale, add_comm]
    exact Int.lt_floor_add_one _
  · rw [sub_lt_iff_lt_add, div_lt_iff₀ hscale, add_mul, one_div_mul_cancel hscale.ne', add_comm]
    exact Int.ceil_lt_add_one _

end Interval
