import Ubl.Lib.Convergents
import Ubl.Lib.Fueled
import Ubl.Unc1.Exact

/-!
# Approximation by continued fractions

`approximate_rational` goes through the convergents of a number while their denominators are within
the limit.  The loop has no bound of its own: it ends since the denominator of what is left to
expand falls at every turn (`den_inv_fract_lt`).  What it ends with is nearer to the number than
one over its denominator times the limit (`toRat_approximates`).
-/

namespace Ubl.Unc1

open Convergents Fueled

/-- The loop of `approximate_rational` with any number of turns, which may be too few. -/
def approximateTurns (limit : Int) : Nat → (p0 q0 p1 q1 : Int) → ℚ → Except Unit (Int × Int)
  | 0, _, _, _, _, _ => .error ()
  | turns + 1, p0, q0, p1, q1, x =>
    let a := floorDiv x.num x.den
    let p2 := a * p1 + p0
    let q2 := a * q1 + q0
    if q2 > limit then .ok (p1, q1)
    else
      let frac := x - (a : ℚ)
      if frac = 0 then .ok (p2, q2) else approximateTurns limit turns p1 q1 p2 q2 frac⁻¹

section Loop

variable {limit p0 q0 p1 q1 : ℤ} {r x : ℚ} {turns : ℕ}

theorem floorDiv_num_den (x : ℚ) : floorDiv x.num x.den = ⌊x⌋ := by
  have hden : (0 : ℤ) < x.den := by exact_mod_cast x.pos
  rw [floorDiv_eq hden, ← Rat.floor_def']

/-- What is left of a fraction is turned over, so its numerator is the next denominator. -/
theorem den_inv_fract_lt (hx : Int.fract x ≠ 0) : (Int.fract x)⁻¹.den < x.den := by
  have hpos : 0 < (Int.fract x).num :=
    Rat.num_pos.mpr (lt_of_le_of_ne (Int.fract_nonneg x) hx.symm)
  have hlt : (Int.fract x).num < (Int.fract x).den := Rat.num_lt_denom_iff.mpr (Int.fract_lt_one x)
  rw [Rat.den_intFract] at hlt
  rw [Rat.den_inv_of_ne_zero hx]
  omega

theorem approximateLoop_succ : approximateLoop limit (turns + 1) p0 q0 p1 q1 x =
    if limit < ⌊x⌋ * q1 + q0 then (p1, q1)
    else if Int.fract x = 0 then (⌊x⌋ * p1 + p0, ⌊x⌋ * q1 + q0)
    else approximateLoop limit turns p1 q1 (⌊x⌋ * p1 + p0) (⌊x⌋ * q1 + q0) (Int.fract x)⁻¹ := by
  simp only [approximateLoop, floorDiv_num_den]
  rfl

theorem approximateTurns_succ : approximateTurns limit (turns + 1) p0 q0 p1 q1 x =
    if limit < ⌊x⌋ * q1 + q0 then .ok (p1, q1)
    else if Int.fract x = 0 then .ok (⌊x⌋ * p1 + p0, ⌊x⌋ * q1 + q0)
    else approximateTurns limit turns p1 q1 (⌊x⌋ * p1 + p0) (⌊x⌋ * q1 + q0) (Int.fract x)⁻¹ := by
  simp only [approximateTurns, floorDiv_num_den]
  rfl

/-- The loop has ended after as many turns as the denominator. -/
theorem approximateTurns_eq {turns' : ℕ} (h : x.den ≤ turns) (h' : x.den ≤ turns') :
    approximateTurns limit turns p0 q0 p1 q1 x =
      .ok (approximateLoop limit turns' p0 q0 p1 q1 x) := by
  induction turns generalizing turns' p0 q0 p1 q1 x with
  | zero => exact absurd x.pos (by omega)
  | succ turns ih =>
    obtain ⟨turns', rfl⟩ : ∃ n, turns' = n + 1 := ⟨turns' - 1, by have := x.pos; omega⟩
    rw [approximateTurns_succ, approximateLoop_succ]
    split_ifs with hover hzero
    · rfl
    · rfl
    · have hlt := den_inv_fract_lt hzero
      exact ih (by omega) (by omega)

theorem approximateTurns_settles : Settles (fun turns => approximateTurns limit turns p0 q0 p1 q1 x)
    (.ok (approximateLoop limit x.den p0 q0 p1 q1 x)) :=
  ⟨x.den, fun _ h => approximateTurns_eq h le_rfl⟩

/-- The ratio is within the limit and nearer to `r` than it allows. -/
structure Near (r : ℚ) (limit p q : ℤ) : Prop where
  one_le : 1 ≤ q
  le : q ≤ limit
  error : |r - p / q| < 1 / (q * limit)

/-- The convergents stay convergents of `r`, and the denominators within the limit. -/
theorem approximateLoop_near (hlimit : 1 ≤ limit) (hturns : x.den ≤ turns)
    (h : Running r p0 q0 p1 q1 x) (hq1 : q1 ≤ limit) :
    Near r limit (approximateLoop limit turns p0 q0 p1 q1 x).1
      (approximateLoop limit turns p0 q0 p1 q1 x).2 := by
  induction turns generalizing p0 q0 p1 q1 x with
  | zero => exact absurd x.pos (by omega)
  | succ turns ih =>
    rw [approximateLoop_succ]
    split_ifs with hover hzero
    · exact ⟨h.one_le_of_lt hlimit hover, hq1, h.abs_sub_lt hlimit hover⟩
    · refine ⟨h.one_le_den, not_lt.mp hover, ?_⟩
      have hden : (0 : ℚ) < (⌊x⌋ * q1 + q0 : ℤ) := by exact_mod_cast h.one_le_den
      have hlimit' : (0 : ℚ) < limit := by exact_mod_cast hlimit
      rw [h.exact hzero, sub_self, abs_zero]
      positivity
    · have hlt := den_inv_fract_lt hzero
      exact ih (by omega) (h.step hzero) (not_lt.mp hover)

end Loop

section Approximation

variable {parse : String → Except String Int} {a : Num} {r : ℚ} {limitDen : UInt64}

/-- Reduced, a ratio stays within the limit. -/
theorem Near.reduced {limit p q : ℤ} (h : Near r limit p q) :
    Near r limit ((p : ℚ) / q).num ((p : ℚ) / q).den := by
  have hq : (0 : ℚ) < q := by exact_mod_cast h.one_le
  have hdvd : (((p : ℚ) / q).den : ℤ) ∣ q := by
    rw [← Rat.divInt_eq_div]
    exact Rat.den_dvd p q
  have hle : (((p : ℚ) / q).den : ℤ) ≤ q := Int.le_of_dvd (by linarith [h.one_le]) hdvd
  have hden : (1 : ℤ) ≤ ((p : ℚ) / q).den := by exact_mod_cast ((p : ℚ) / q).pos
  have hlimit : (0 : ℚ) < limit := by exact_mod_cast lt_of_lt_of_le h.one_le h.le
  refine ⟨hden, hle.trans h.le, ?_⟩
  have hvalue : ((((p : ℚ) / q).num : ℚ) / ((((p : ℚ) / q).den : ℤ) : ℚ)) = p / q :=
    Rat.num_div_den _
  rw [hvalue]
  refine h.error.trans_le (one_div_le_one_div_of_le ?_ ?_)
  · exact mul_pos (by exact_mod_cast hden) hlimit
  · exact mul_le_mul_of_nonneg_right (by exact_mod_cast hle) hlimit.le

theorem approximateRational_eq (hlimit : 0 < limitDen) : ∃ p q : ℤ,
    Settles (fun turns => approximateTurns limitDen.toNat turns 0 1 1 0 r) (.ok (p, q)) ∧
      approximateRational r limitDen = .ok ((p : ℚ) / q) ∧ Near r limitDen.toNat p q := by
  have hone : (1 : ℤ) ≤ limitDen.toNat := by
    exact_mod_cast UInt64.lt_iff_toNat_lt.mp hlimit
  have hnear := approximateLoop_near hone le_rfl (Running.start r) (by omega)
  refine ⟨_, _, approximateTurns_settles, ?_, hnear⟩
  have hq : (approximateLoop limitDen.toNat r.den 0 1 1 0 r).2 ≠ 0 := by
    have := hnear.one_le
    omega
  rw [approximateRational]
  exact if_neg hq

theorem toRat_of_value (ha : toRational parse a = .ok r) : toRat parse a limitDen =
    if r.den > limitDen.toNat then
      (approximateRational r limitDen).map
        fun approx => .rat (toString approx.num) (toString approx.den) a.unit
    else .ok (.rat (toString r.num) (toString r.den) a.unit) := by
  simp only [toRat, ha]
  split_ifs with hden
  · cases approximateRational r limitDen <;> rfl
  · rfl

/-- The number that `to_rat` goes on with: `r` within the limit, and its approximation beyond. -/
structure Approximant (r : ℚ) (limitDen : UInt64) (s : ℚ) : Prop where
  within : r.den ≤ limitDen.toNat → s = r
  beyond : limitDen.toNat < r.den → approximateRational r limitDen = .ok s
  error : |r - s| < 1 / (s.den * limitDen.toNat)

theorem exists_approximant (r : ℚ) (hlimit : 0 < limitDen) : ∃ s, Approximant r limitDen s := by
  have hlimit' : (0 : ℚ) < limitDen.toNat := by exact_mod_cast UInt64.lt_iff_toNat_lt.mp hlimit
  by_cases hden : r.den ≤ limitDen.toNat
  · have hpos : (0 : ℚ) < r.den := by exact_mod_cast r.pos
    refine ⟨r, fun _ => rfl, fun h => absurd hden (by omega), ?_⟩
    rw [sub_self, abs_zero]
    positivity
  · obtain ⟨p, q, -, happrox, hnear⟩ := @approximateRational_eq r limitDen hlimit
    have hvalue : ((((p : ℚ) / q).num : ℚ) / ((((p : ℚ) / q).den : ℤ) : ℚ)) = p / q :=
      Rat.num_div_den _
    have herror := hnear.reduced.error
    rw [hvalue] at herror
    exact ⟨p / q, fun h => absurd h hden, fun _ => happrox, by simpa only [Int.cast_natCast] using herror⟩

theorem toRat_approximant (ha : toRational parse a = .ok r) {s : ℚ} (hs : Approximant r limitDen s) :
    toRat parse a limitDen = .ok ((rationalToReducedRat s).setUnit a.unit) := by
  rw [toRat_of_value ha]
  split_ifs with hden
  · rw [hs.beyond hden]
    rfl
  · rw [hs.within (by omega)]
    rfl

end Approximation

/-- With a limit of at least one the loop ends, and `to_rat` returns a ratio within the limit whose
error is less than one over the denominator times the limit; a number that is within the limit it
returns as it is. -/
theorem toRat_approximates (parse : String → Except String Int) (a : Num) (r : ℚ)
    (ha : toRational parse a = .ok r) (limitDen : UInt64) (hlimit : 1 ≤ limitDen) :
    (∃ p q : ℤ,
      Settles (fun turns => approximateTurns limitDen.toNat turns 0 1 1 0 r) (.ok (p, q)) ∧
        approximateRational r limitDen = .ok ((p : ℚ) / q)) ∧
    ∃ p q : ℤ, toRat parse a limitDen = .ok (.rat (toString p) (toString q) a.unit) ∧
      1 ≤ q ∧ q ≤ limitDen.toNat ∧ |r - p / q| < 1 / (q * limitDen.toNat) ∧
      (r.den ≤ limitDen.toNat → p = r.num ∧ q = r.den) := by
  have hpos : 0 < limitDen := UInt64.lt_of_lt_of_le (by decide : (0 : UInt64) < 1) hlimit
  obtain ⟨p, q, hsettles, happrox, hnear⟩ := @approximateRational_eq r limitDen hpos
  refine ⟨⟨p, q, hsettles, happrox⟩, ?_⟩
  rw [toRat_of_value ha]
  split_ifs with hden
  · rw [happrox]
    obtain ⟨hone, hle, herror⟩ := hnear.reduced
    exact ⟨_, _, rfl, hone, hle, by exact_mod_cast herror, fun h => absurd hden (by omega)⟩
  · refine ⟨_, _, rfl, by exact_mod_cast r.pos, by omega, ?_, fun _ => ⟨rfl, rfl⟩⟩
    have hlimit' : (0 : ℚ) < limitDen.toNat := by
      exact_mod_cast UInt64.lt_iff_toNat_lt.mp hpos
    have hrden : (0 : ℚ) < r.den := by exact_mod_cast r.pos
    have hvalue : (r.num : ℚ) / ((r.den : ℤ) : ℚ) = r := Rat.num_div_den r
    rw [hvalue, sub_self, abs_zero]
    push_cast
    positivity

/-- Thirty-three hundredths within a limit of ten are a third. -/
theorem toRat_approximates_third :
    let a : Num := .dec "33" 2 none
    toRat parseNumeral a 10 = .ok (.rat "1" "3" none) ∧
      ∃ p q : ℤ, toRat parseNumeral a 10 = .ok (.rat (toString p) (toString q) none) ∧
        1 ≤ q ∧ q ≤ 10 ∧ |(33 / 100 : ℚ) - p / q| < 1 / (q * 10) := by
  intro a
  obtain ⟨-, p, q, h, hone, hle, herror, -⟩ :=
    toRat_approximates parseNumeral a (33 / 100) (by decide +kernel) 10 (by decide)
  exact ⟨by decide +kernel, p, q, h, hone, hle, herror⟩

end Ubl.Unc1
