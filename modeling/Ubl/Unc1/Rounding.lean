import Ubl.Lib.Rounding
import Ubl.Unc1.Interval

/-!
# The six rounding modes

`round_rational_to_dec` rounds the numerator and the denominator of the scaled value with
truncating divisions of its own for each mode.  What they come to is a way of rounding a rational
number to an integer (`RoundingMode.round`):

    roundRationalToDec r scale rm = .dec (toString (rm.round (r * 10 ^ scale))) scale none

and the modes are what their names say (`roundRationalToDec_rounds`).
-/

namespace Ubl.Unc1

open ExceptLemmas Rounding

/-- What a mode does to a number. -/
def RoundingMode.round : RoundingMode → ℚ → ℤ
  | .floor => Int.floor
  | .ceil => Int.ceil
  | .down => onMagnitude Int.floor
  | .up => onMagnitude Int.ceil
  | .halfUp => onMagnitude halfUpward
  | .halfEven => onMagnitude halfToEven

/-! ## Quotients of integers -/

section Quotients

variable {n : ℤ} {d : ℕ}

theorem ceil_div_nat (hd : 0 < d) : ⌈(n : ℚ) / d⌉ = (n + d - 1) / d := by
  have hpos : (0 : ℚ) < d := by exact_mod_cast hd
  have hdiv := Int.mul_ediv_add_emod (n + d - 1) d
  have hlow := Int.emod_nonneg (n + d - 1) (by omega : (d : ℤ) ≠ 0)
  have hhigh := Int.emod_lt_of_pos (n + d - 1) (by omega : (0 : ℤ) < d)
  generalize (n + d - 1) / (d : ℤ) = m at hdiv ⊢
  rw [Int.ceil_eq_iff, lt_div_iff₀ hpos, div_le_iff₀ hpos]
  constructor
  · have h : (m - 1) * d < n := by linarith
    exact_mod_cast h
  · have h : n ≤ m * d := by linarith
    exact_mod_cast h

theorem down_eq (hd : 0 < d) :
    (if n < 0 then -((-n).tdiv d) else n.tdiv d) = onMagnitude Int.floor ((n : ℚ) / d) := by
  have hpos : (0 : ℚ) < d := by exact_mod_cast hd
  split_ifs with hn
  · have hneg : (n : ℚ) / d < 0 := div_neg_of_neg_of_pos (by exact_mod_cast hn) hpos
    have hflip : -((n : ℚ) / d) = ((-n : ℤ) : ℚ) / d := by
      push_cast
      ring
    rw [onMagnitude_of_neg hneg, hflip, Rat.floor_intCast_div_natCast,
      Int.tdiv_eq_ediv_of_nonneg (by omega)]
  · have hn : 0 ≤ n := not_lt.mp hn
    have hnonneg : 0 ≤ (n : ℚ) / d := div_nonneg (by exact_mod_cast hn) hpos.le
    rw [onMagnitude_of_nonneg hnonneg, Rat.floor_intCast_div_natCast, Int.tdiv_eq_ediv_of_nonneg hn]

theorem up_eq (hd : 0 < d) :
    (if n < 0 then -((-n + d - 1).tdiv d) else (n + d - 1).tdiv d) =
      onMagnitude Int.ceil ((n : ℚ) / d) := by
  have hpos : (0 : ℚ) < d := by exact_mod_cast hd
  split_ifs with hn
  · have hneg : (n : ℚ) / d < 0 := div_neg_of_neg_of_pos (by exact_mod_cast hn) hpos
    have hflip : -((n : ℚ) / d) = ((-n : ℤ) : ℚ) / d := by
      push_cast
      ring
    rw [onMagnitude_of_neg hneg, hflip, ceil_div_nat hd, Int.tdiv_eq_ediv_of_nonneg (by omega)]
  · have hn : 0 ≤ n := not_lt.mp hn
    have hnonneg : 0 ≤ (n : ℚ) / d := div_nonneg (by exact_mod_cast hn) hpos.le
    rw [onMagnitude_of_nonneg hnonneg, ceil_div_nat hd, Int.tdiv_eq_ediv_of_nonneg (by omega)]

/-- Both modes that go to a nearest integer look at the quotient and the remainder of the
magnitudes. -/
theorem magnitude_eq (hd : 0 < d) {g : ℤ → ℤ → ℤ → ℤ} {f : ℚ → ℤ}
    (h : ∀ q r : ℤ, 0 ≤ r → r < d → g q r d = f (q + r / d)) :
    (if n < 0 then -(g (|n|.tdiv |(d : ℤ)|) (|n|.tmod |(d : ℤ)|) |(d : ℤ)|)
      else g (|n|.tdiv |(d : ℤ)|) (|n|.tmod |(d : ℤ)|) |(d : ℤ)|) =
        onMagnitude f ((n : ℚ) / d) := by
  have hpos : (0 : ℚ) < d := by exact_mod_cast hd
  have habs : |(d : ℤ)| = d := abs_of_nonneg (by omega)
  have hsplit : |(n : ℚ) / d| = ((|n| / d : ℤ) : ℚ) + ((|n| % d : ℤ) : ℚ) / d := by
    have hdiv : ((d * (|n| / d) + |n| % d : ℤ) : ℚ) = (|n| : ℤ) := by
      rw [Int.mul_ediv_add_emod]
    rw [abs_div, abs_of_pos hpos, ← Int.cast_abs, ← hdiv]
    push_cast
    field_simp
  have hmag : g (|n|.tdiv |(d : ℤ)|) (|n|.tmod |(d : ℤ)|) |(d : ℤ)| = f |(n : ℚ) / d| := by
    rw [habs, Int.tdiv_eq_ediv_of_nonneg (abs_nonneg n), Int.tmod_eq_emod_of_nonneg (abs_nonneg n),
      hsplit]
    exact h _ _ (Int.emod_nonneg _ (by omega)) (Int.emod_lt_of_pos _ (by omega))
  have hsign : (n : ℚ) / d < 0 ↔ n < 0 := by
    rw [div_lt_iff₀ hpos, zero_mul, Int.cast_lt_zero]
  rw [hmag, onMagnitude]
  simp only [hsign]

/-- The fraction of a number whose quotient and remainder are known. -/
theorem fract_add_div {q r : ℤ} (hr : 0 ≤ r) (hrd : r < d) :
    Int.fract ((q : ℚ) + r / d) = r / d ∧ ⌊(q : ℚ) + r / d⌋ = q := by
  have hpos : (0 : ℚ) < d := by
    have : (0 : ℤ) < d := by omega
    exact_mod_cast this
  have hfract : Int.fract ((r : ℚ) / d) = r / d := by
    rw [Int.fract_eq_self, div_lt_one hpos]
    exact ⟨div_nonneg (by exact_mod_cast hr) hpos.le, by exact_mod_cast hrd⟩
  refine ⟨by rw [Int.fract_intCast_add, hfract], ?_⟩
  rw [Int.floor_intCast_add, Int.floor_eq_zero_iff.mpr, add_zero]
  exact Int.fract_eq_self.mp hfract

theorem halfUp_eq (hd : 0 < d) : halfUp n d = onMagnitude halfUpward ((n : ℚ) / d) := by
  have hpos : (0 : ℚ) < d := by exact_mod_cast hd
  refine magnitude_eq (g := fun q r absD => if r * 2 ≥ absD then q + 1 else q) hd
    fun q r hr hrd => ?_
  obtain ⟨hfract, hfloor⟩ := @fract_add_div d q r hr hrd
  have hhalf : 1 / 2 ≤ (r : ℚ) / d ↔ r * 2 ≥ d := by
    rw [div_le_div_iff₀ two_pos hpos, one_mul]
    norm_cast
  rw [halfUpward, hfract, hfloor]
  simp only [hhalf]

theorem halfEven_eq (hd : 0 < d) : halfEven n d = onMagnitude halfToEven ((n : ℚ) / d) := by
  have hpos : (0 : ℚ) < d := by exact_mod_cast hd
  refine magnitude_eq (g := fun q r absD => if r * 2 > absD then q + 1
    else if r * 2 = absD then (if q.tmod 2 = 0 then q else q + 1) else q) hd fun q r hr hrd => ?_
  obtain ⟨hfract, hfloor⟩ := @fract_add_div d q r hr hrd
  have hover : 1 / 2 < (r : ℚ) / d ↔ r * 2 > d := by
    rw [div_lt_div_iff₀ two_pos hpos, one_mul]
    norm_cast
  have htie : (r : ℚ) / d = 1 / 2 ↔ r * 2 = d := by
    rw [div_eq_div_iff hpos.ne' two_ne_zero, one_mul]
    norm_cast
  have heven : q.tmod 2 = 0 ↔ q % 2 = 0 := by
    rw [← Int.dvd_iff_tmod_eq_zero, Int.dvd_iff_emod_eq_zero]
  rw [halfToEven, hfract, hfloor]
  simp only [hover, htie, heven]

end Quotients

/-- `round_rational_to_dec` rounds the scaled value. -/
theorem roundRationalToDec_eq_round (r : ℚ) (scale : UInt32) (rm : RoundingMode) :
    roundRationalToDec r scale rm =
      .dec (toString (rm.round (r * 10 ^ scale.toNat))) scale none := by
  have hscaled : r * ((10 ^ scale.toNat : Int) : ℚ) = r * 10 ^ scale.toNat := by push_cast; rfl
  simp only [roundRationalToDec, hscaled]
  generalize r * 10 ^ scale.toNat = x
  have hd : 0 < x.den := x.pos
  have hx : (x.num : ℚ) / x.den = x := Rat.num_div_den x
  have hneg : x < 0 ↔ x.num < 0 := Rat.num_neg.symm
  cases rm with
  | floor =>
    simp only [RoundingMode.round]
    rw [floorDiv_eq (by omega), ← Rat.floor_def']
  | ceil =>
    simp only [RoundingMode.round]
    rw [ceilDiv_eq (by omega), ← Rat.ceil_def']
  | down => simp only [RoundingMode.round, hneg, down_eq hd, hx]
  | up =>
    -- an integer is no special case
    have hint : x.den = 1 → (if x.num < 0 then -((-x.num + x.den - 1).tdiv x.den)
        else (x.num + x.den - 1).tdiv x.den) = x.num := by
      intro hone
      rw [hone]
      split_ifs <;> simp
    have hup : (if x.den = 1 then x.num else if x.num < 0 then
        -((-x.num + x.den - 1).tdiv x.den) else (x.num + x.den - 1).tdiv x.den) =
          onMagnitude Int.ceil x := by
      rw [← congrArg (onMagnitude Int.ceil) hx, ← up_eq hd]
      by_cases hone : x.den = 1
      · rw [if_pos hone, hint hone]
      · rw [if_neg hone]
    simp only [RoundingMode.round, hneg, hup]
  | halfUp => simp only [RoundingMode.round, halfUp_eq hd, hx]
  | halfEven => simp only [RoundingMode.round, halfEven_eq hd, hx]

/-! ## What the modes are -/

/-- What is said of a mode by its name, of the integer that a number is rounded to. -/
def RoundingMode.Keeps (rm : RoundingMode) (x : ℚ) (m : ℤ) : Prop :=
  match rm with
  | .floor => m ≤ x
  | .ceil => x ≤ m
  | .down => |(m : ℚ)| ≤ |x|
  | .up => |x| ≤ |(m : ℚ)|
  | .halfUp => Nearest x m ∧ (Tie x → |x| ≤ |(m : ℚ)|)
  | .halfEven => Nearest x m ∧ (Tie x → Even m)

theorem RoundingMode.round_keeps (rm : RoundingMode) (x : ℚ) : rm.Keeps x (rm.round x) := by
  have habs {f : ℚ → ℤ} (hf : 0 ≤ f |x|) : |((onMagnitude f x : ℤ) : ℚ)| = f |x| := by
    exact_mod_cast abs_onMagnitude hf
  cases rm with
  | floor => exact Int.floor_le x
  | ceil => exact Int.le_ceil x
  | down =>
    show |((onMagnitude Int.floor x : ℤ) : ℚ)| ≤ |x|
    rw [habs (Int.floor_nonneg.mpr (abs_nonneg x))]
    exact Int.floor_le |x|
  | up =>
    show |x| ≤ |((onMagnitude Int.ceil x : ℤ) : ℚ)|
    rw [habs (Int.ceil_nonneg (abs_nonneg x))]
    exact Int.le_ceil |x|
  | halfUp =>
    refine ⟨nearest_of_abs_le ?_, fun htie => ?_⟩
    · exact abs_sub_onMagnitude.trans_le abs_sub_halfUpward_le
    · show |x| ≤ |((onMagnitude halfUpward x : ℤ) : ℚ)|
      have hnonneg : 0 ≤ halfUpward |x| := by
        have hle := le_halfUpward_of_tie (tie_abs htie)
        exact_mod_cast (abs_nonneg x).trans hle
      rw [habs hnonneg]
      exact le_halfUpward_of_tie (tie_abs htie)
  | halfEven =>
    refine ⟨nearest_of_abs_le ?_, fun htie => ?_⟩
    · exact abs_sub_onMagnitude.trans_le abs_sub_halfToEven_le
    · exact even_onMagnitude.mpr (even_halfToEven_of_tie (tie_abs htie))

theorem RoundingMode.abs_round_sub_lt (rm : RoundingMode) (x : ℚ) :
    |((rm.round x : ℤ) : ℚ) - x| < 1 := by
  rw [abs_sub_comm]
  have hfloor (y : ℚ) : |y - ⌊y⌋| < 1 := abs_sub_floor.trans_lt (Int.fract_lt_one y)
  have hceil (y : ℚ) : |y - ⌈y⌉| < 1 := by
    rw [abs_sub_comm, abs_of_nonneg (sub_nonneg.mpr (Int.le_ceil y))]
    linarith [Int.ceil_lt_add_one y]
  have hhalf {y : ℚ} (h : y ≤ 1 / 2) : y < 1 := h.trans_lt (by norm_num)
  cases rm with
  | floor => exact hfloor x
  | ceil => exact hceil x
  | down => exact abs_sub_onMagnitude.trans_lt (hfloor |x|)
  | up => exact abs_sub_onMagnitude.trans_lt (hceil |x|)
  | halfUp => exact hhalf (abs_sub_onMagnitude.trans_le abs_sub_halfUpward_le)
  | halfEven => exact hhalf (abs_sub_onMagnitude.trans_le abs_sub_halfToEven_le)

theorem RoundingMode.round_intCast (rm : RoundingMode) (k : ℤ) : rm.round (k : ℚ) = k := by
  cases rm with
  | floor => exact Int.floor_intCast k
  | ceil => exact Int.ceil_intCast k
  | down => exact onMagnitude_intCast (fun k _ => Int.floor_intCast k) k
  | up => exact onMagnitude_intCast (fun k _ => Int.ceil_intCast k) k
  | halfUp => exact onMagnitude_intCast (fun k _ => halfUpward_intCast k) k
  | halfEven => exact onMagnitude_intCast (fun k _ => halfToEven_intCast k) k

/-! ## Decimals -/

section Decimals

variable {parse : String → Except String Int}

theorem toDec_of_value {a : Num} {r : ℚ} (h : toRational parse a = .ok r) (scale : UInt32)
    (rm : RoundingMode) : toDec parse a scale rm =
      .ok (.dec (toString (rm.round (r * 10 ^ scale.toNat))) scale a.unit) := by
  have hdec : toDec parse a scale rm =
      toRational parse a >>= fun r => .ok ((roundRationalToDec r scale rm).setUnit a.unit) := by
    cases a with
    | bnd lo hi u => cases h
    | _ => rfl
  rw [hdec, h, bind_ok, roundRationalToDec_eq_round]
  rfl

end Decimals

/-- The mantissa is what the mode says, an integer is kept, and rounding to a scale twice is
rounding once. -/
theorem roundRationalToDec_rounds (parse : String → Except String Int)
    (hparse : ∀ i : Int, parse (toString i) = .ok i) (scale : UInt32) (rm : RoundingMode) :
    (∀ r : ℚ, ∃ m : ℤ, roundRationalToDec r scale rm = .dec (toString m) scale none ∧
      |(m : ℚ) - r * 10 ^ scale.toNat| < 1 ∧ rm.Keeps (r * 10 ^ scale.toNat) m ∧
      ∀ k : ℤ, r * 10 ^ scale.toNat = k → m = k) ∧
    ∀ (a : Num) (r : ℚ), toRational parse a = .ok r → ∃ n, toDec parse a scale rm = .ok n ∧
      ∀ rm', toDec parse n scale rm' = .ok n := by
  refine ⟨fun r => ⟨_, roundRationalToDec_eq_round r scale rm, rm.abs_round_sub_lt _,
    rm.round_keeps _, fun k hk => ?_⟩, fun a r ha => ⟨_, toDec_of_value ha scale rm, fun rm' => ?_⟩⟩
  · rw [hk]
    exact rm.round_intCast k
  · generalize rm.round (r * 10 ^ scale.toNat) = m
    have hscale : (10 : ℚ) ^ scale.toNat ≠ 0 := by positivity
    rw [toDec_of_value (toRational_dec hparse m scale a.unit) scale rm',
      div_mul_cancel₀ _ hscale, rm'.round_intCast]
    rfl

theorem roundRationalToDec_rounds_third :
    (∃ m : ℤ, roundRationalToDec (1 / 3) 2 .up = .dec (toString m) 2 none ∧
      |(m : ℚ) - 1 / 3 * 10 ^ (2 : UInt32).toNat| < 1) ∧
    ∃ n, toDec parseNumeral (.rat "1" "3" none) 2 .up = .ok n ∧
      ∀ rm, toDec parseNumeral n 2 rm = .ok n := by
  obtain ⟨hround, hagain⟩ :=
    roundRationalToDec_rounds parseNumeral parseNumeral_toString 2 .up
  obtain ⟨m, hm, herror, -⟩ := hround (1 / 3)
  exact ⟨⟨m, hm, herror⟩, hagain (.rat "1" "3" none) (1 / 3) (by decide +kernel)⟩

end Ubl.Unc1
