import Ubl.Unc1.Order

/-!
# The import of doubles

Below the sign the bits of a finite double count its magnitudes from zero up, so the neighbours of
a double are those of its bits (`magnitude_strictMono`).  For a double other than zero
`from_f64_bits` takes the midpoints between it and its neighbours and rounds them outwards
(`fromF64Bits_encloses`); either zero becomes the number zero.
-/

namespace Ubl.Unc1

open ExceptLemmas Interval

/-! ## Magnitudes -/

/-- The magnitude of a double by its bits below the sign, in units of the least one. -/
def scaledMagnitude (w : ℕ) : ℕ :=
  if w / 2 ^ 52 = 0 then w % 2 ^ 52 else (2 ^ 52 + w % 2 ^ 52) * 2 ^ (w / 2 ^ 52 - 1)

def magnitude (w : ℕ) : ℚ := scaledMagnitude w / 2 ^ 1074

theorem magnitude_zero : magnitude 0 = 0 := by
  simp [magnitude, scaledMagnitude]

/-- Within an exponent the fraction grows, and the next exponent starts above. -/
theorem scaledMagnitude_lt_succ (w : ℕ) : scaledMagnitude w < scaledMagnitude (w + 1) := by
  unfold scaledMagnitude
  by_cases hlast : w % 2 ^ 52 = 2 ^ 52 - 1
  · have he : (w + 1) / 2 ^ 52 = w / 2 ^ 52 + 1 := by omega
    have hf : (w + 1) % 2 ^ 52 = 0 := by omega
    rw [he, hf, hlast, if_neg (Nat.succ_ne_zero _)]
    by_cases hzero : w / 2 ^ 52 = 0
    · rw [if_pos hzero, hzero]
      decide
    · obtain ⟨e, he'⟩ := Nat.exists_eq_succ_of_ne_zero hzero
      rw [if_neg hzero, he', Nat.succ_sub_one, Nat.add_sub_cancel, Nat.add_zero, Nat.succ_eq_add_one,
        Nat.pow_succ']
      have hpos : 0 < 2 ^ e := Nat.two_pow_pos e
      omega
  · have he : (w + 1) / 2 ^ 52 = w / 2 ^ 52 := by omega
    have hf : (w + 1) % 2 ^ 52 = w % 2 ^ 52 + 1 := by omega
    rw [he, hf]
    split_ifs
    · exact Nat.lt_succ_self _
    · exact Nat.mul_lt_mul_of_pos_right (Nat.lt_succ_self _) (Nat.two_pow_pos _)

theorem magnitude_nonneg (w : ℕ) : 0 ≤ magnitude w := by
  unfold magnitude
  positivity

theorem magnitude_strictMono : StrictMono magnitude := by
  refine strictMono_nat_of_lt_succ fun w => ?_
  have hpos : (0 : ℚ) < 2 ^ 1074 := by positivity
  exact div_lt_div_of_pos_right (by exact_mod_cast scaledMagnitude_lt_succ w) hpos

/-- The bits of infinity are read as the power of two after the largest double. -/
theorem magnitude_infinity : magnitude (2047 * 2 ^ 52) = 2 ^ 1024 := by
  have hscaled : scaledMagnitude (2047 * 2 ^ 52) = 2 ^ 1024 * 2 ^ 1074 := by decide +kernel
  rw [magnitude, hscaled, Nat.cast_mul, Nat.cast_pow, Nat.cast_pow]
  exact mul_div_cancel_right₀ _ (by positivity)

/-! ## Bits -/

section Bits

variable (bits : UInt64)

theorem bits_sign : bits >>> 63 = 1 ↔ 2 ^ 63 ≤ bits.toNat := by
  have hlt := bits.toNat_lt
  rw [← UInt64.toNat_inj, UInt64.toNat_shiftRight, show (63 : UInt64).toNat % 64 = 63 from rfl,
    show (1 : UInt64).toNat = 1 from rfl, Nat.shiftRight_eq_div_pow]
  omega

theorem bits_exponent : ((bits >>> 52) &&& 0x7FF).toNat = bits.toNat % 2 ^ 63 / 2 ^ 52 := by
  rw [UInt64.toNat_and, UInt64.toNat_shiftRight, show (52 : UInt64).toNat % 64 = 52 from rfl,
    show (0x7FF : UInt64).toNat = 2 ^ 11 - 1 from rfl, Nat.and_two_pow_sub_one_eq_mod,
    Nat.shiftRight_eq_div_pow]
  omega

theorem bits_fraction :
    (bits &&& (0x000FFFFFFFFFFFFF : UInt64)).toNat = bits.toNat % 2 ^ 63 % 2 ^ 52 := by
  rw [UInt64.toNat_and, show (0x000FFFFFFFFFFFFF : UInt64).toNat = 2 ^ 52 - 1 from rfl,
    Nat.and_two_pow_sub_one_eq_mod]
  omega

theorem bits_significand :
    ((bits &&& (0x000FFFFFFFFFFFFF : UInt64)) ||| ((1 : UInt64) <<< 52)).toNat =
      2 ^ 52 + bits.toNat % 2 ^ 63 % 2 ^ 52 := by
  rw [UInt64.toNat_or, bits_fraction, Nat.or_comm,
    show ((1 : UInt64) <<< 52).toNat = 2 ^ 52 * 1 from rfl,
    ← Nat.two_pow_add_eq_or_of_lt (Nat.mod_lt _ (by decide)), Nat.mul_one]

theorem f64IsFinite_iff : f64IsFinite bits = true ↔ bits.toNat % 2 ^ 63 < 2047 * 2 ^ 52 := by
  rw [f64IsFinite, decide_eq_true_iff, ne_eq, ← UInt64.toNat_inj, bits_exponent,
    show (0x7ff : UInt64).toNat = 2047 from rfl]
  omega

theorem bits_zero : bits &&& 0x7FFFFFFFFFFFFFFF = 0 ↔ bits.toNat % 2 ^ 63 = 0 := by
  rw [← UInt64.toNat_inj, UInt64.toNat_and,
    show (0x7FFFFFFFFFFFFFFF : UInt64).toNat = 2 ^ 63 - 1 from rfl, Nat.and_two_pow_sub_one_eq_mod]
  rfl

/-- The value of a bit pattern is its magnitude with its sign. -/
theorem exactF64Rational_eq : exactF64Rational bits =
    (if 2 ^ 63 ≤ bits.toNat then -1 else 1) * magnitude (bits.toNat % 2 ^ 63) := by
  have hsign : (if 2 ^ 63 ≤ bits.toNat then -1 else 1 : ℚ) =
      ((if 2 ^ 63 ≤ bits.toNat then -1 else 1 : ℤ) : ℚ) := by
    split_ifs <;> simp
  simp only [exactF64Rational, scaled_eq, bits_sign, bits_exponent, bits_significand, bits_fraction]
  rw [hsign, magnitude, scaledMagnitude]
  generalize (if 2 ^ 63 ≤ bits.toNat then -1 else 1 : ℤ) = sign
  generalize bits.toNat % 2 ^ 63 % 2 ^ 52 = f
  generalize bits.toNat % 2 ^ 63 / 2 ^ 52 = e
  by_cases hsub : e = 0
  · have hzero : (e : ℤ) = 0 := by exact_mod_cast hsub
    rw [if_pos hzero, if_pos hzero, if_pos hsub, show (-1074 : ℤ) = -((1074 : ℕ) : ℤ) from rfl,
      zpow_neg, zpow_natCast]
    push_cast
    rw [mul_assoc, div_eq_mul_inv]
  · have hzero : ¬ (e : ℤ) = 0 := by exact_mod_cast hsub
    have hexp : (e : ℤ) - 1023 - 52 = ((e - 1 : ℕ) : ℤ) - ((1074 : ℕ) : ℤ) := by omega
    rw [if_neg hzero, if_neg hzero, if_neg hsub, hexp, zpow_sub₀ two_ne_zero, zpow_natCast,
      zpow_natCast]
    push_cast
    rw [mul_assoc, mul_div_assoc]

end Bits

/-! ## Neighbours -/

/-- The values of the finite doubles, and the powers of two on either side of them all. -/
def IsDouble (y : ℚ) : Prop :=
  (∃ bits, f64IsFinite bits = true ∧ exactF64Rational bits = y) ∨ |y| = 2 ^ 1024

/-- The doubles before and after `f`. -/
structure Neighbours (f pred succ : ℚ) : Prop where
  pred : IsGreatest {y | IsDouble y ∧ y < f} pred
  succ : IsLeast {y | IsDouble y ∧ f < y} succ

theorem abs_exactF64Rational (bits : UInt64) :
    |exactF64Rational bits| = magnitude (bits.toNat % 2 ^ 63) := by
  rw [exactF64Rational_eq, abs_mul, abs_of_nonneg (magnitude_nonneg _)]
  split_ifs <;> simp

theorem isDouble_iff {y : ℚ} : IsDouble y ↔ ∃ w ≤ 2047 * 2 ^ 52, |y| = magnitude w := by
  constructor
  · rintro (⟨bits, hfinite, rfl⟩ | hinf)
    · exact ⟨_, ((f64IsFinite_iff bits).mp hfinite).le, abs_exactF64Rational bits⟩
    · exact ⟨_, le_rfl, hinf.trans magnitude_infinity.symm⟩
  · rintro ⟨w, hw, hy⟩
    rcases hw.lt_or_eq with hlt | rfl
    · refine .inl ?_
      by_cases hneg : y < 0
      · have hbits : (UInt64.ofNat (2 ^ 63 + w)).toNat = 2 ^ 63 + w := by
          rw [UInt64.toNat_ofNat', Nat.mod_eq_of_lt (by omega)]
        have hmod : (2 ^ 63 + w) % 2 ^ 63 = w := by omega
        refine ⟨UInt64.ofNat (2 ^ 63 + w), ?_, ?_⟩
        · rwa [f64IsFinite_iff, hbits, hmod]
        · rw [exactF64Rational_eq, hbits, if_pos (Nat.le_add_right _ _), hmod, ← hy, abs_of_neg hneg]
          ring
      · have hbits : (UInt64.ofNat w).toNat = w := by
          rw [UInt64.toNat_ofNat', Nat.mod_eq_of_lt (by omega)]
        have hmod : w % 2 ^ 63 = w := by omega
        refine ⟨UInt64.ofNat w, ?_, ?_⟩
        · rwa [f64IsFinite_iff, hbits, hmod]
        · rw [exactF64Rational_eq, hbits, if_neg (by omega), hmod, ← hy,
            abs_of_nonneg (not_lt.mp hneg), one_mul]
    · exact .inr (hy.trans magnitude_infinity)

theorem isDouble_neg {y : ℚ} : IsDouble (-y) ↔ IsDouble y := by
  rw [isDouble_iff, isDouble_iff, abs_neg]

theorem isDouble_magnitude {w : ℕ} (hw : w ≤ 2047 * 2 ^ 52) : IsDouble (magnitude w) :=
  isDouble_iff.mpr ⟨w, hw, abs_of_nonneg (magnitude_nonneg w)⟩

theorem neighbours_magnitude {w : ℕ} (hpos : 0 < w) (hw : w < 2047 * 2 ^ 52) :
    Neighbours (magnitude w) (magnitude (w - 1)) (magnitude (w + 1)) := by
  refine ⟨⟨⟨isDouble_magnitude (by omega), magnitude_strictMono (by omega)⟩, ?_⟩,
    ⟨isDouble_magnitude (by omega), magnitude_strictMono (by omega)⟩, ?_⟩
  · rintro y ⟨hy, hlt⟩
    rcases le_or_gt y 0 with hneg | hy0
    · exact hneg.trans (magnitude_nonneg _)
    · obtain ⟨w', -, hw'⟩ := isDouble_iff.mp hy
      rw [abs_of_pos hy0] at hw'
      rw [hw', magnitude_strictMono.lt_iff_lt] at hlt
      rw [hw']
      exact magnitude_strictMono.monotone (by omega)
  · rintro y ⟨hy, hlt⟩
    obtain ⟨w', -, hw'⟩ := isDouble_iff.mp hy
    rw [abs_of_pos ((magnitude_nonneg w).trans_lt hlt)] at hw'
    rw [hw', magnitude_strictMono.lt_iff_lt] at hlt
    rw [hw']
    exact magnitude_strictMono.monotone hlt

/-- Negative doubles mirror the positive ones. -/
theorem Neighbours.neg {f pred succ : ℚ} (h : Neighbours f pred succ) :
    Neighbours (-f) (-succ) (-pred) := by
  obtain ⟨⟨⟨hpred, hpredlt⟩, hgreatest⟩, ⟨hsucc, hsucclt⟩, hleast⟩ := h
  refine ⟨⟨⟨isDouble_neg.mpr hsucc, neg_lt_neg hsucclt⟩, ?_⟩,
    ⟨isDouble_neg.mpr hpred, neg_lt_neg hpredlt⟩, ?_⟩
  · rintro y ⟨hy, hlt⟩
    exact le_neg_of_le_neg (hleast ⟨isDouble_neg.mpr hy, lt_neg_of_lt_neg hlt⟩)
  · rintro y ⟨hy, hlt⟩
    exact neg_le_of_neg_le (hgreatest ⟨isDouble_neg.mpr hy, neg_lt_of_neg_lt hlt⟩)

/-- The neighbours of a double other than zero are found by counting its bits up and down. -/
theorem neighbours_adjacentF64 {bits : UInt64} (hfinite : f64IsFinite bits = true)
    (hzero : bits.toNat % 2 ^ 63 ≠ 0) : Neighbours (exactF64Rational bits)
      (exactF64Rational (adjacentF64 bits).1) (exactF64Rational (adjacentF64 bits).2) := by
  have hlt := bits.toNat_lt
  have hw := (f64IsFinite_iff bits).mp hfinite
  have hsucc : (bits + 1).toNat = bits.toNat + 1 := by
    rw [UInt64.toNat_add, show (1 : UInt64).toNat = 1 from rfl, Nat.mod_eq_of_lt (by omega)]
  have hpred : (bits - 1).toNat = bits.toNat - 1 := by
    have hone : (1 : UInt64).toNat = 1 := rfl
    rw [UInt64.toNat_sub_of_le _ _ (UInt64.le_iff_toNat_le.mpr (by omega)), hone]
  have hsign : bits >>> 63 = 0 ↔ ¬ 2 ^ 63 ≤ bits.toNat := by
    rw [← UInt64.toNat_inj, UInt64.toNat_shiftRight, show (63 : UInt64).toNat % 64 = 63 from rfl,
      show (0 : UInt64).toNat = 0 from rfl, Nat.shiftRight_eq_div_pow]
    omega
  have hnbrs := neighbours_magnitude (Nat.pos_of_ne_zero hzero) hw
  simp only [adjacentF64, hsign, exactF64Rational_eq]
  by_cases hneg : 2 ^ 63 ≤ bits.toNat
  · have hup : (bits.toNat + 1) % 2 ^ 63 = bits.toNat % 2 ^ 63 + 1 := by omega
    have hdown : (bits.toNat - 1) % 2 ^ 63 = bits.toNat % 2 ^ 63 - 1 := by omega
    rw [if_neg (not_not.mpr hneg), if_pos hneg, hsucc, hpred, if_pos (by omega), if_pos (by omega),
      hup, hdown]
    simpa only [neg_one_mul] using hnbrs.neg
  · have hmod : bits.toNat % 2 ^ 63 = bits.toNat := by omega
    have hup : (bits.toNat + 1) % 2 ^ 63 = bits.toNat + 1 := by omega
    have hdown : (bits.toNat - 1) % 2 ^ 63 = bits.toNat - 1 := by omega
    rw [hmod] at hnbrs
    rw [if_pos hneg, if_neg hneg, hsucc, hpred, if_neg (by omega), if_neg (by omega), hup, hdown, hmod]
    simpa only [one_mul] using hnbrs

/-! ## The import -/

/-- The import is an interval from the midpoint between the double and the one before it to the
midpoint between it and the one after it, and less than `10 ^ -18` wider on either side. -/
def ImportedAround (parse : String → Except String Int) (bits : UInt64) : Prop :=
  ∃ lo hi u A pred succ, fromF64Bits bits = .ok (.bnd lo hi u) ∧
    bndBounds parse (.bnd lo hi u) = .ok A ∧ Neighbours (exactF64Rational bits) pred succ ∧
    A.1 ≤ (exactF64Rational bits + pred) / 2 ∧
    (exactF64Rational bits + pred) / 2 ≤ exactF64Rational bits ∧
    exactF64Rational bits ≤ (exactF64Rational bits + succ) / 2 ∧
    (exactF64Rational bits + succ) / 2 ≤ A.2 ∧
    (exactF64Rational bits + pred) / 2 - A.1 < 1 / 10 ^ 18 ∧
    A.2 - (exactF64Rational bits + succ) / 2 < 1 / 10 ^ 18

/-- Every finite double but the zeros is imported with the reals that round to it; the zeros are
imported as the number zero, and what is not finite is refused. -/
theorem fromF64Bits_encloses (parse : String → Except String Int)
    (hparse : ∀ i : Int, parse (toString i) = .ok i) (bits : UInt64) :
    (f64IsFinite bits = true → exactF64Rational bits ≠ 0 → ImportedAround parse bits) ∧
    (f64IsFinite bits = true → exactF64Rational bits = 0 →
      fromF64Bits bits = .ok (.bnd (.dec "0" 1 none) (.dec "0" 1 none) none)) ∧
    (f64IsFinite bits = false → fromF64Bits bits = .error "NUMERIC_VALUE_INVALID: NaN or Inf") := by
  have hvalue : exactF64Rational bits = 0 ↔ bits.toNat % 2 ^ 63 = 0 := by
    rw [← abs_eq_zero, abs_exactF64Rational, ← magnitude_zero, magnitude_strictMono.injective.eq_iff]
  refine ⟨fun hfinite hne => ?_, fun hfinite hzero => ?_, fun hinf => ?_⟩
  · have hnbrs := neighbours_adjacentF64 hfinite (fun h => hne (hvalue.mpr h))
    have hbits : ¬ bits &&& 0x7FFFFFFFFFFFFFFF = 0 := fun h => hne (hvalue.mpr ((bits_zero bits).mp h))
    have hscale : (0 : ℚ) < 10 ^ (18 : UInt32).toNat := by positivity
    have hpred := hnbrs.pred.1.2
    have hsucc := hnbrs.succ.1.2
    refine ⟨_, _, none, _, _, _, ?_, bndBounds_rounded hparse
      ((exactF64Rational bits + exactF64Rational (adjacentF64 bits).1) / 2)
      ((exactF64Rational bits + exactF64Rational (adjacentF64 bits).2) / 2) none, hnbrs,
      (mem_outward _ hscale).1, by linarith, by linarith, (mem_outward _ hscale).2,
      (outward_lt _ hscale).1, (outward_lt _ hscale).2⟩
    rw [fromF64Bits, if_neg (by rw [hfinite]; decide), if_neg hbits]
  · rw [fromF64Bits, if_neg (by rw [hfinite]; decide),
      if_pos ((bits_zero bits).mpr (hvalue.mp hzero))]
  · rw [fromF64Bits, if_pos hinf]

/-- One and a half, and the least double below zero. -/
theorem fromF64Bits_encloses_samples :
    ImportedAround parseNumeral 0x3FF8000000000000 ∧
      ImportedAround parseNumeral 0x8000000000000001 := by
  constructor
  · exact (fromF64Bits_encloses parseNumeral parseNumeral_toString 0x3FF8000000000000).1
      (by decide) (by decide)
  · exact (fromF64Bits_encloses parseNumeral parseNumeral_toString 0x8000000000000001).1
      (by decide) (by decide +kernel)

/-- Half of the least double rounds to zero, and is not in the interval of zero. -/
theorem zero_not_imported_around : f64IsFinite 0 = true ∧ ¬ ImportedAround parseNumeral 0 := by
  refine ⟨by decide, ?_⟩
  rintro ⟨lo, hi, u, A, pred, succ, hok, hA, hnbrs, hlo, -⟩
  have himport : fromF64Bits 0 = .ok (.bnd (.dec "0" 1 none) (.dec "0" 1 none) none) := rfl
  obtain ⟨rfl, rfl, rfl⟩ := Num.bnd.inj (Except.ok.inj (hok.symm.trans himport))
  have hbounds : bndBounds parseNumeral (.bnd (.dec "0" 1 none) (.dec "0" 1 none) none) =
      .ok (0, 0) := by
    decide
  obtain rfl := Except.ok.inj (hA.symm.trans hbounds)
  have hpred : pred < exactF64Rational 0 := hnbrs.pred.1.2
  have hzero : exactF64Rational 0 = 0 := by decide +kernel
  rw [hzero] at hlo hpred
  linarith

end Ubl.Unc1
