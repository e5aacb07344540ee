import Mathlib.Algebra.Order.Round
import Mathlib.Algebra.Ring.Int.Parity
import Mathlib.Tactic.Linarith
import Mathlib.Tactic.Ring

/-!
# Rounding to integers

The ways of rounding that look the same on both sides of zero are ways of rounding the magnitude
(`onMagnitude`): down to the floor, up to the ceiling, or to a nearest integer with a rule for what
lies half way between two.
-/

namespace Rounding

variable {α : Type} [Field α] [LinearOrder α] [IsStrictOrderedRing α]

/-- No integer is nearer to `x` than `m`. -/
def Nearest (x : α) (m : ℤ) : Prop := ∀ k : ℤ, |x - m| ≤ |x - k|

/-- Half way between two integers. -/
def Tie (x : α) : Prop := ∃ k : ℤ, x = k + 1 / 2

theorem nearest_of_abs_le {x : α} {m : ℤ} (h : |x - m| ≤ 1 / 2) : Nearest x m := by
  intro k
  by_cases hk : m = k
  · rw [hk]
  · have hone : (1 : α) ≤ |(m : α) - k| := by
      have habs : (1 : ℤ) ≤ |m - k| := Int.one_le_abs (sub_ne_zero.mpr hk)
      exact_mod_cast habs
    have htriangle : |(m : α) - k| ≤ |x - m| + |x - k| := by
      have h := abs_sub_le (m : α) x k
      rwa [abs_sub_comm (m : α) x] at h
    linarith

/-! ## The magnitude -/

/-- The magnitude is rounded, and the sign put back. -/
def onMagnitude (f : α → ℤ) (x : α) : ℤ := if x < 0 then -f |x| else f |x|

section Magnitude

variable {f : α → ℤ} {x : α}

theorem onMagnitude_of_neg (h : x < 0) : onMagnitude f x = -f (-x) := by
  rw [onMagnitude, if_pos h, abs_of_neg h]

theorem onMagnitude_of_nonneg (h : 0 ≤ x) : onMagnitude f x = f x := by
  rw [onMagnitude, if_neg h.not_gt, abs_of_nonneg h]

/-- The error is that of the magnitude. -/
theorem abs_sub_onMagnitude : |x - onMagnitude f x| = abs (|x| - f |x|) := by
  by_cases h : x < 0
  · have hflip : x - (onMagnitude f x : α) = -(|x| - f |x|) := by
      rw [onMagnitude, if_pos h, abs_of_neg h]
      push_cast
      ring
    rw [hflip, abs_neg]
  · rw [onMagnitude, if_neg h, abs_of_nonneg (not_lt.mp h)]

omit [IsStrictOrderedRing α] in
theorem abs_onMagnitude (h : 0 ≤ f |x|) : |onMagnitude f x| = f |x| := by
  unfold onMagnitude
  split_ifs
  · rw [abs_neg, abs_of_nonneg h]
  · exact abs_of_nonneg h

omit [IsStrictOrderedRing α] in
theorem even_onMagnitude : Even (onMagnitude f x) ↔ Even (f |x|) := by
  unfold onMagnitude
  split_ifs
  · exact even_neg
  · exact Iff.rfl

theorem onMagnitude_intCast (h : ∀ k : ℤ, 0 ≤ k → f k = k) (k : ℤ) :
    onMagnitude f (k : α) = k := by
  by_cases hk : k < 0
  · have hneg : -(k : α) = ((-k : ℤ) : α) := by push_cast; rfl
    rw [onMagnitude_of_neg (by exact_mod_cast hk), hneg, h (-k) (by omega), neg_neg]
  · rw [onMagnitude_of_nonneg (by exact_mod_cast not_lt.mp hk), h k (by omega)]

theorem tie_abs (h : Tie x) : Tie |x| := by
  obtain ⟨k, rfl⟩ := h
  by_cases hneg : (k : α) + 1 / 2 < 0
  · refine ⟨-k - 1, ?_⟩
    rw [abs_of_neg hneg]
    push_cast
    ring
  · exact ⟨k, abs_of_nonneg (not_lt.mp hneg)⟩

end Magnitude

/-! ## Nearest integers -/

section Nearest

variable [FloorRing α] {x : α}

/-- The nearest integer, and of two the upper one. -/
def halfUpward (x : α) : ℤ := if 1 / 2 ≤ Int.fract x then ⌊x⌋ + 1 else ⌊x⌋

/-- The nearest integer, and of two the even one. -/
def halfToEven (x : α) : ℤ :=
  if 1 / 2 < Int.fract x then ⌊x⌋ + 1
  else if Int.fract x = 1 / 2 then (if ⌊x⌋ % 2 = 0 then ⌊x⌋ else ⌊x⌋ + 1)
  else ⌊x⌋

theorem abs_sub_floor : |x - ⌊x⌋| = Int.fract x := by
  rw [Int.self_sub_floor, abs_of_nonneg (Int.fract_nonneg x)]

theorem abs_sub_floor_add_one : |x - ((⌊x⌋ + 1 : ℤ) : α)| = 1 - Int.fract x := by
  have hflip : x - ((⌊x⌋ + 1 : ℤ) : α) = -(1 - Int.fract x) := by
    rw [← Int.self_sub_floor]
    push_cast
    ring
  rw [hflip, abs_neg, abs_of_nonneg (sub_nonneg.mpr (Int.fract_lt_one x).le)]

theorem abs_sub_halfUpward_le : |x - halfUpward x| ≤ 1 / 2 := by
  unfold halfUpward
  split_ifs with h
  · rw [abs_sub_floor_add_one]
    linarith
  · rw [abs_sub_floor]
    exact (not_le.mp h).le

theorem abs_sub_halfToEven_le : |x - halfToEven x| ≤ 1 / 2 := by
  unfold halfToEven
  split_ifs with hover htie heven
  · rw [abs_sub_floor_add_one]
    linarith
  · rw [abs_sub_floor, htie]
  · rw [abs_sub_floor_add_one, htie]
    norm_num
  · rw [abs_sub_floor]
    exact not_lt.mp hover

theorem fract_of_tie (h : Tie x) : Int.fract x = 1 / 2 := by
  obtain ⟨k, rfl⟩ := h
  rw [Int.fract_intCast_add, Int.fract_eq_self]
  norm_num

theorem le_halfUpward_of_tie (h : Tie x) : x ≤ halfUpward x := by
  rw [halfUpward, if_pos (fract_of_tie h).ge]
  push_cast
  exact (Int.lt_floor_add_one x).le

theorem even_halfToEven_of_tie (h : Tie x) : Even (halfToEven x) := by
  rw [halfToEven, if_neg (fract_of_tie h).not_gt, if_pos (fract_of_tie h)]
  split_ifs with heven
  · exact Int.even_iff.mpr heven
  · exact Int.even_iff.mpr (by omega)

theorem halfUpward_intCast (k : ℤ) : halfUpward (k : α) = k := by
  rw [halfUpward, Int.fract_intCast, if_neg (by norm_num), Int.floor_intCast]

theorem halfToEven_intCast (k : ℤ) : halfToEven (k : α) = k := by
  rw [halfToEven, Int.fract_intCast, if_neg (by norm_num), if_neg (by norm_num), Int.floor_intCast]

end Nearest

/-! ## Nearby numbers -/

section Nearby

/-- A rounding to a nearest integer, and half way between two to the even one. -/
structure ToEven (f : α → ℤ) : Prop where
  le_half : ∀ x, |x - f x| ≤ 1 / 2
  even : ∀ x, Tie x → Even (f x)

theorem toEven_onMagnitude [FloorRing α] : ToEven (onMagnitude (halfToEven : α → ℤ)) where
  le_half _ := abs_sub_onMagnitude.trans_le abs_sub_halfToEven_le
  even _ htie := even_onMagnitude.mpr (even_halfToEven_of_tie (tie_abs htie))

variable {f : α → ℤ} {x y : α} {k q : ℤ}

theorem ToEven.eq_of_abs_lt (h : ToEven f) (hk : |x - k| < 1 / 2) : f x = k := by
  by_contra hne
  have hone : (1 : α) ≤ |(f x : α) - k| := by
    exact_mod_cast Int.one_le_abs (sub_ne_zero.mpr hne)
  have htriangle := abs_sub_le (f x : α) x k
  rw [abs_sub_comm (f x : α) x] at htriangle
  linarith [h.le_half x]

/-- A number next to a tie is rounded away from it, and the tie to the even side. -/
theorem ToEven.eq_tie_iff (h : ToEven f) (hy : y = k + 1 / 2) (hx : |x - y| < 1 / 2) (hne : x ≠ y) :
    f x = f y ↔ (x < y ∧ Even k) ∨ (y < x ∧ Odd k) := by
  have htie : f y = k ∨ f y = k + 1 := by
    have hle := abs_le.mp (h.le_half y)
    have hlow : (k : α) ≤ f y := by linarith
    have hhigh : (f y : α) ≤ ((k + 1 : ℤ) : α) := by
      push_cast
      linarith
    rw [Int.cast_le] at hlow hhigh
    omega
  have heven := h.even y ⟨k, hy⟩
  have hside := abs_lt.mp hx
  rcases lt_or_gt_of_ne hne with hlt | hgt
  · have hround : f x = k := h.eq_of_abs_lt (abs_lt.mpr ⟨by linarith, by linarith⟩)
    simp only [hround, hlt, hlt.not_gt, true_and, false_and, or_false]
    grind
  · have hround : f x = k + 1 := by
      refine h.eq_of_abs_lt (abs_lt.mpr ?_)
      push_cast
      constructor <;> linarith
    simp only [hround, hgt, hgt.not_gt, true_and, false_and, false_or]
    grind

/-- A ratio that is not half way between two integers keeps a distance from there. -/
theorem abs_sub_le_of_not_tie {m : ℤ} (hq : 0 < q) (hint : ∃ n : ℤ, 2 * q * y = n)
    (hm : |y - m| ≤ 1 / 2) (hy : ¬ Tie y) : |y - m| ≤ 1 / 2 - 1 / (2 * q) := by
  obtain ⟨n, hn⟩ := hint
  have hq' : (0 : α) < q := by exact_mod_cast hq
  have hscaled : ((n - 2 * q * m : ℤ) : α) = (y - m) * (2 * q) := by
    push_cast
    rw [← hn]
    ring
  have habs : ((|n - 2 * q * m| : ℤ) : α) = |y - m| * (2 * q) := by
    rw [Int.cast_abs, hscaled, abs_mul, abs_of_pos (by linarith : (0 : α) < 2 * q)]
  have hlt : |n - 2 * q * m| < q := by
    refine lt_of_le_of_ne ?_ fun heq => hy ?_
    · have hle : ((|n - 2 * q * m| : ℤ) : α) ≤ q := by
        rw [habs]
        nlinarith
      exact_mod_cast hle
    · -- at the distance of a half
      have hhalf : |y - m| = 1 / 2 := by
        rw [heq] at habs
        refine mul_right_cancel₀ (by linarith : (2 * q : α) ≠ 0) ?_
        rw [← habs]
        ring
      rcases abs_eq (by norm_num : (0 : α) ≤ 1 / 2) |>.mp hhalf with hup | hdown
      · exact ⟨m, by linarith⟩
      · refine ⟨m - 1, ?_⟩
        push_cast
        linarith
  have hle : ((|n - 2 * q * m| : ℤ) : α) ≤ q - 1 := by
    have : |n - 2 * q * m| ≤ q - 1 := by omega
    exact_mod_cast this
  have hsplit : 1 / 2 - 1 / (2 * (q : α)) = (q - 1) / (2 * q) := by
    field_simp
  rw [hsplit, le_div_iff₀ (by linarith), ← habs]
  exact hle

/-- A number is rounded as a ratio near it is, unless that is half way between two integers and the
number is on the odd side of it. -/
theorem ToEven.eq_iff_of_near (h : ToEven f) (hq : 0 < q) (hint : ∃ n : ℤ, 2 * q * y = n)
    (hnear : |x - y| < 1 / (2 * q)) : f x = f y ↔
      ∀ k : ℤ, y = k + 1 / 2 → x = y ∨ (x < y ∧ Even k) ∨ (y < x ∧ Odd k) := by
  have hq' : (1 : α) ≤ q := by exact_mod_cast hq
  by_cases htie : Tie y
  · obtain ⟨k, hk⟩ := htie
    have hunique (k' : ℤ) (hk' : y = k' + 1 / 2) : k' = k := by
      rw [hk] at hk'
      exact_mod_cast (add_right_cancel hk').symm
    have hhalf : |x - y| < 1 / 2 := by
      refine hnear.trans_le (one_div_le_one_div_of_le (by norm_num) ?_)
      linarith
    by_cases hxy : x = y
    · simp [hxy]
    · rw [h.eq_tie_iff hk hhalf hxy]
      exact ⟨fun h k' hk' => .inr (hunique k' hk' ▸ h), fun h => (h k hk).resolve_left hxy⟩
  · refine iff_of_true (h.eq_of_abs_lt ?_) fun k hk => absurd ⟨k, hk⟩ htie
    have hdist := abs_sub_le_of_not_tie hq hint (h.le_half y) htie
    have htriangle := abs_sub_le x y (f y : α)
    linarith

end Nearby

end Rounding
