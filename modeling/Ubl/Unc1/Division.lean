import Ubl.Unc1.Order

/-!
# Division by an interval

`div` reads its divisor as a single rational number before it looks at the kinds, to see whether it
is zero.  An interval is not one, so the branch of `bnd_binary_op` that divides by an interval is
reached with a point only: an interval divided by a point is enclosed, and a division by an
interval fails whatever its ends are (`divMeets_iff`).
-/

namespace Ubl.Unc1

open ExceptLemmas

section Division

variable {parse : String → Except String Int} {a b n : Num} {x y r : ℚ} {A B : ℚ × ℚ}

theorem div_interval (h : b.rank = 3) :
    div parse a b = .error "cannot convert BND to single rational" := by
  cases b with
  | bnd lo hi u => rfl
  | _ => cases h

/-- By a number the division goes on unless it is zero. -/
theorem div_point (h : toRational parse b = .ok y) : div parse a b =
    if y = 0 then .error "division_by_zero" else binaryOp parse a b .div := by
  rw [div, toRational_stripUnit, h, bind_ok]
  split_ifs <;> rfl

theorem Bounded.point (hb : Bounded parse b B) (h : b.rank ≠ 3) :
    toRational parse b = .ok B.1 ∧ B.2 = B.1 := by
  have hbounds := hb.bounds
  rw [bndBounds_point h] at hbounds
  obtain ⟨y, hy, hB⟩ := bind_eq_ok.mp hbounds
  obtain rfl := Except.ok.inj hB
  exact ⟨hy, rfl⟩

theorem Bounded.valueOf (ha : Bounded parse a A) : ValueOf parse a x ↔ A.1 ≤ x ∧ x ≤ A.2 := by
  constructor
  · rintro ⟨bounds, hbounds, hx⟩
    obtain rfl := Except.ok.inj (ha.bounds.symm.trans hbounds)
    exact hx
  · exact fun hx => ⟨A, ha.bounds, hx⟩

/-- A point has one value. -/
theorem valueOf_point (h : toRational parse n = .ok r) : ValueOf parse n x ↔ x = r := by
  have hbounds : bndBounds parse n = .ok (r, r) := by
    rw [bndBounds_point (toRational_bnd h), h, bind_ok]
  have hn : Bounded parse n (r, r) := ⟨hbounds, le_rfl⟩
  rw [hn.valueOf]
  exact ⟨fun h => le_antisymm h.2 h.1, fun h => ⟨h.ge, h.le⟩⟩

variable (hparse : ∀ i : Int, parse (toString i) = .ok i)

include hparse

/-- The result of an operation between points has the number as its value unless it is a decimal
whose scale is too small for it. -/
theorem ofRank_value (rank : ℕ) (scale : UInt32) (r : ℚ) :
    ∃ v, toRational parse (ofRank rank scale r) = .ok v ∧
      (r = v ↔ rank ≠ 1 ∨ ∃ k : ℤ, r * 10 ^ scale.toNat = k) := by
  match rank with
  | 0 =>
    refine ⟨r, ?_, by simp⟩
    rw [ofRank, rationalToInt]
    split_ifs with hint
    · rw [toRational_int hparse, Rat.coe_int_num_of_den_eq_one hint]
    · exact toRational_rat hparse r
  | 1 =>
    have hscale : (10 : ℚ) ^ scale.toNat ≠ 0 := by positivity
    rw [ofRank, roundRationalToDec_eq_round, toRational_dec hparse]
    refine ⟨_, rfl, ?_⟩
    rw [eq_div_iff hscale]
    constructor
    · exact fun h => .inr ⟨_, h⟩
    · rintro (h | ⟨k, hk⟩)
      · exact absurd rfl h
      · rw [hk, RoundingMode.round_intCast]
  | rank + 2 => exact ⟨r, toRational_rat hparse r, by simp⟩

/-- A quotient of points is contained in the result where it is exact. -/
theorem div_points (ha : toRational parse a = .ok x) (hb : toRational parse b = .ok y)
    (hunits : Compatible a b) (hy : y ≠ 0) : ∃ n, div parse a b = .ok n ∧
      (ValueOf parse n (x / y) ↔ max a.rank b.rank ≠ 1 ∨
        ∃ k : ℤ, x / y * 10 ^ (max a.decScale b.decScale).toNat = k) := by
  obtain ⟨v, hv, hexact⟩ :=
    ofRank_value hparse (max a.rank b.rank) (max a.decScale b.decScale) (x / y)
  rw [div_point hb, if_neg hy, binaryOp_points ha hb hunits]
  refine ⟨_, rfl, ?_⟩
  rw [← hexact]
  exact valueOf_point (by rw [toRational_setUnit]; exact hv)

/-- An interval divided by a number other than zero encloses the quotients. -/
theorem div_interval_point (ha : Bounded parse a A) (hrank : a.rank = 3)
    (hb : toRational parse b = .ok y) (hunits : Compatible a b) (hy : y ≠ 0) :
    ∃ n, div parse a b = .ok n ∧ ∀ x, A.1 ≤ x → x ≤ A.2 → ValueOf parse n (x / y) := by
  have hbounds : bndBounds parse b = .ok (y, y) := by
    rw [bndBounds_point (toRational_bnd hb), hb, bind_ok]
  have hguard : ¬ (y ≤ 0 ∧ y ≥ 0) := fun h => hy (le_antisymm h.1 h.2)
  have hdiv : div parse a b = bndBinaryOp parse a b (a.unit.or b.unit) .div := by
    rw [div_point hb, if_neg hy, binaryOp, hunits.checkUnits, bind_ok, if_pos (.inl hrank)]
  obtain ⟨n, hn⟩ : ∃ n, bndBinaryOp parse a b (a.unit.or b.unit) .div = .ok n := by
    simp only [bndBinaryOp, ha.bounds, hbounds, bind_ok, if_neg hguard]
    exact ⟨_, rfl⟩
  refine ⟨n, hdiv.trans hn, fun x hAx hxA => ?_⟩
  obtain ⟨-, bounds, hbounds', -, hx⟩ := bndBinaryOp_sound hparse ⟨A, ha.bounds, hAx, hxA⟩
    ⟨(y, y), hbounds, le_rfl, le_rfl⟩ (fun _ => ⟨y, hbounds⟩) hn
  exact ⟨bounds, hbounds', hx⟩

end Division

/-- `div` fails with `division_by_zero` where zero is among the values of the divisor, and returns
a number that contains all quotients where it is not. -/
def DivMeets (parse : String → Except String Int) (a b : Num) : Prop :=
  (div parse a b = .error "division_by_zero" ↔ ValueOf parse b 0) ∧
  (¬ ValueOf parse b 0 → ∃ n, div parse a b = .ok n ∧
    ∀ x y, ValueOf parse a x → ValueOf parse b y → ValueOf parse n (x / y))

/-- A division is right by a point only; by one other than zero a point must be divided exactly, or
not as a decimal. -/
theorem divMeets_iff (parse : String → Except String Int)
    (hparse : ∀ i : Int, parse (toString i) = .ok i) (a b : Num) (A B : ℚ × ℚ)
    (ha : Bounded parse a A) (hb : Bounded parse b B) (hunits : Compatible a b) :
    DivMeets parse a b ↔ b.rank ≠ 3 ∧ (B.1 = 0 ∨ a.rank = 3 ∨ max a.rank b.rank ≠ 1 ∨
      ∃ k : ℤ, A.1 / B.1 * 10 ^ (max a.decScale b.decScale).toNat = k) := by
  unfold DivMeets
  by_cases hinterval : b.rank = 3
  · -- the divisor cannot be read
    rw [div_interval hinterval]
    constructor
    · rintro ⟨hzero, hok⟩
      by_cases hvalue : ValueOf parse b 0
      · exact absurd (Except.error.inj (hzero.mpr hvalue)) (by decide)
      · obtain ⟨n, hn, -⟩ := hok hvalue
        cases hn
    · exact fun h => absurd hinterval h.1
  obtain ⟨hy, hB⟩ := hb.point hinterval
  have hvalue (y : ℚ) : ValueOf parse b y ↔ y = B.1 := valueOf_point hy
  simp only [hvalue]
  by_cases hzero : B.1 = 0
  · rw [div_point hy, if_pos hzero]
    simp [hzero, hinterval]
  have hzero' : ¬ 0 = B.1 := fun h => hzero h.symm
  by_cases hrank : a.rank = 3
  · obtain ⟨n, hn, hall⟩ := div_interval_point hparse ha hrank hy hunits hzero
    rw [hn]
    refine ⟨fun _ => ⟨hinterval, .inr (.inl hrank)⟩, fun _ => ⟨by simp [hzero'], fun _ => ?_⟩⟩
    refine ⟨n, rfl, fun x y hx hyB => ?_⟩
    obtain ⟨hAx, hxA⟩ := ha.valueOf.mp hx
    exact hyB ▸ hall x hAx hxA
  · obtain ⟨hx, -⟩ := ha.point hrank
    obtain ⟨n, hn, hexact⟩ := div_points hparse hx hy hunits hzero
    have hvalue' (x : ℚ) : ValueOf parse a x ↔ x = A.1 := valueOf_point hx
    rw [hn]
    simp only [hvalue', hzero, hzero', hrank, ← hexact]
    simp [hinterval]

/-- Half of an interval, and a decimal divided exactly. -/
theorem divMeets_sample :
    DivMeets parseNumeral (.bnd (.int "1" none) (.int "3" none) none) (.int "2" none) ∧
      DivMeets parseNumeral (.dec "15" 1 none) (.int "-3" none) := by
  constructor
  · exact (divMeets_iff parseNumeral parseNumeral_toString (.bnd (.int "1" none) (.int "3" none) none)
      (.int "2" none) (1, 3) (2, 2) ⟨by decide +kernel, by norm_num⟩ ⟨by decide +kernel, le_rfl⟩
      (by simp [Compatible, Num.unit])).mpr ⟨by decide, .inr (.inl rfl)⟩
  · refine (divMeets_iff parseNumeral parseNumeral_toString (.dec "15" 1 none) (.int "-3" none)
      (3 / 2, 3 / 2) (-3, -3) ⟨by decide +kernel, le_rfl⟩ ⟨by decide +kernel, le_rfl⟩
      (by simp [Compatible, Num.unit])).mpr ⟨by decide, .inr (.inr (.inr ⟨-5, ?_⟩))⟩
    decide +kernel

/-- Six divided by an interval from two to three. -/
theorem div_by_interval :
    let b : Num := .bnd (.int "2" none) (.int "3" none) none
    ¬ ValueOf parseNumeral b 0 ∧ ValueOf parseNumeral b 2 ∧
      div parseNumeral (.int "6" none) b = .error "cannot convert BND to single rational" ∧
      ¬ DivMeets parseNumeral (.int "6" none) b := by
  intro b
  have hb : Bounded parseNumeral b (2, 3) := ⟨by decide +kernel, by norm_num⟩
  have hzero : ¬ ValueOf parseNumeral b 0 := by
    rw [hb.valueOf]
    norm_num
  refine ⟨hzero, hb.valueOf.mpr ⟨le_rfl, by norm_num⟩, rfl, fun h => ?_⟩
  obtain ⟨n, hn, -⟩ := h.2 hzero
  cases hn

end Ubl.Unc1
