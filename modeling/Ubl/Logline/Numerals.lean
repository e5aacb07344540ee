import Ubl.Logline.Token
import Ubl.Lib.Numeral

/-!
# Integers as `f64`s and as numerals

`F64.ofInt` is the double of an integer up to `2^53` in magnitude:

    i.natAbs ≤ 2 ^ 53 → exactF64Rational (F64.ofInt i) = i        (F64.exact_ofInt)

With it the tables of ASCII are an instance of `RustStd`, so that its laws are not empty.
-/

namespace Ubl.Logline

open Unc1 Numeral

/-! ## Numerals -/

theorem digits_toDigits (n : Nat) : Digits (Nat.toDigits 10 n) :=
  ⟨Nat.toDigits_ne_nil, fun _ => isDigit_of_mem_toDigits⟩

/-! ## Doubles of integers -/

/-- Sign, exponent field and fraction. -/
def F64.ofFields (neg : Bool) (exponent fraction : Nat) : F64 :=
  UInt64.ofNat ((if neg then 2 ^ 63 else 0) + exponent * 2 ^ 52 + fraction)

section Fields

variable {neg : Bool} {exponent fraction : Nat} (he : exponent < 2 ^ 11) (hf : fraction < 2 ^ 52)

include he hf

theorem toNat_ofFields : (F64.ofFields neg exponent fraction).toNat =
    (if neg then 2 ^ 63 else 0) + exponent * 2 ^ 52 + fraction := by
  rw [F64.ofFields, UInt64.toNat_ofNat', Nat.mod_eq_of_lt]
  cases neg <;> simp <;> omega

theorem ofFields_sign : F64.ofFields neg exponent fraction >>> 63 = 1 ↔ neg := by
  have hbits := @toNat_ofFields neg _ _ he hf
  rw [← UInt64.toNat_inj]
  simp only [UInt64.toNat_shiftRight, hbits]
  cases neg <;> simp [Nat.shiftRight_eq_div_pow] <;> omega

theorem ofFields_exponent :
    ((F64.ofFields neg exponent fraction >>> 52) &&& 0x7FF).toNat = exponent := by
  have hbits := @toNat_ofFields neg _ _ he hf
  simp only [UInt64.toNat_and, UInt64.toNat_shiftRight, hbits]
  have hmask : (0x7FF : UInt64).toNat = 2 ^ 11 - 1 := rfl
  rw [hmask, Nat.and_two_pow_sub_one_eq_mod]
  cases neg <;> simp [Nat.shiftRight_eq_div_pow] <;> omega

theorem ofFields_fraction :
    (F64.ofFields neg exponent fraction &&& 0x000FFFFFFFFFFFFF).toNat = fraction := by
  have hbits := @toNat_ofFields neg _ _ he hf
  simp only [UInt64.toNat_and, hbits]
  have hmask : (0x000FFFFFFFFFFFFF : UInt64).toNat = 2 ^ 52 - 1 := rfl
  rw [hmask, Nat.and_two_pow_sub_one_eq_mod]
  cases neg <;> simp <;> omega

theorem ofFields_significand :
    ((F64.ofFields neg exponent fraction &&& (0x000FFFFFFFFFFFFF : UInt64)) |||
      ((1 : UInt64) <<< 52)).toNat = 2 ^ 52 + fraction := by
  rw [UInt64.toNat_or, ofFields_fraction he hf, Nat.or_comm]
  have hone : ((1 : UInt64) <<< 52).toNat = 2 ^ 52 * 1 := rfl
  rw [hone, ← Nat.two_pow_add_eq_or_of_lt hf, Nat.mul_one]

/-- The value of a normal number. -/
theorem exact_ofFields (hnormal : 0 < exponent) :
    exactF64Rational (F64.ofFields neg exponent fraction) =
      (((if neg then -1 else 1) * (2 ^ 52 + fraction : ℕ) : Int) : ℚ) *
        (2 : ℚ) ^ ((exponent : Int) - 1075) := by
  have hne : (exponent : Int) ≠ 0 := by omega
  have hexp : (exponent : Int) - 1023 - 52 = exponent - 1075 := by omega
  simp only [exactF64Rational, scaled_eq, ofFields_sign he hf, ofFields_exponent he hf,
    ofFields_significand he hf, if_neg hne, hexp]

theorem isFinite_ofFields (hfinite : exponent < 2047) :
    f64IsFinite (F64.ofFields neg exponent fraction) := by
  have hexp := @ofFields_exponent neg _ _ he hf
  rw [f64IsFinite, decide_eq_true_iff]
  intro h
  rw [h] at hexp
  exact absurd hexp (by simp; omega)

end Fields

/-- The double of an integer up to `2^53` in magnitude. -/
def F64.ofInt (i : Int) : F64 :=
  let m := i.natAbs
  let e := m.log2
  if m = 0 then 0
  else if e ≤ 52 then .ofFields (i < 0) (e + 1023) (m * 2 ^ (52 - e) - 2 ^ 52)
  else .ofFields (i < 0) (e + 1023) (m / 2 ^ (e - 52) - 2 ^ 52)

theorem sign_mul_natAbs (i : Int) : (if decide (i < 0) then -1 else 1) * (i.natAbs : Int) = i := by
  split_ifs with h <;> simp at h <;> omega

theorem F64.ofInt_spec {i : Int} (hi : i.natAbs ≤ 2 ^ 53) :
    f64IsFinite (F64.ofInt i) ∧ exactF64Rational (F64.ofInt i) = i := by
  unfold F64.ofInt
  dsimp only
  by_cases hzero : i.natAbs = 0
  · rw [if_pos hzero, Int.natAbs_eq_zero.mp hzero]
    exact ⟨by decide, by decide +kernel⟩
  have hsign := sign_mul_natAbs i
  generalize i.natAbs = m at hi hzero hsign ⊢
  rw [if_neg hzero]
  have hlow : 2 ^ m.log2 ≤ m := Nat.log2_self_le hzero
  have hhigh : m < 2 ^ (m.log2 + 1) := Nat.lt_log2_self
  generalize m.log2 = e at hlow hhigh
  by_cases he : e ≤ 52
  · rw [if_pos he]
    have hsplit : (2 : ℕ) ^ 52 = 2 ^ e * 2 ^ (52 - e) := by
      rw [← Nat.pow_add, Nat.add_sub_cancel' he]
    have hpos : 0 < 2 ^ (52 - e) := Nat.two_pow_pos _
    have hge : 2 ^ 52 ≤ m * 2 ^ (52 - e) := hsplit ▸ Nat.mul_le_mul_right _ hlow
    have hlt : m * 2 ^ (52 - e) < 2 * 2 ^ 52 := by
      rw [hsplit, ← Nat.mul_assoc, ← Nat.pow_succ']
      exact Nat.mul_lt_mul_of_pos_right hhigh hpos
    refine ⟨isFinite_ofFields (by omega) (by omega) (by omega), ?_⟩
    rw [exact_ofFields (by omega) (by omega) (by omega), Nat.add_sub_cancel' hge]
    have hexp : ((e + 1023 : ℕ) : Int) - 1075 = -((52 - e : ℕ) : Int) := by omega
    rw [hexp, zpow_neg, zpow_natCast]
    push_cast
    rw [mul_assoc, mul_assoc, mul_inv_cancel₀ (by positivity), mul_one]
    exact_mod_cast hsign
  · have hm : m = 2 ^ 53 := by
      have hle : 2 ^ 53 ≤ 2 ^ e := Nat.pow_le_pow_right (by decide) (by omega)
      omega
    have he' : e = 53 := by
      have hle : 2 ^ e ≤ 2 ^ 53 := hm ▸ hlow
      have := (Nat.pow_le_pow_iff_right (by decide)).mp hle
      omega
    subst hm he'
    rw [if_neg he]
    refine ⟨isFinite_ofFields (by decide) (by decide) (by decide), ?_⟩
    rw [exact_ofFields (by decide) (by decide) (by decide)]
    refine Eq.trans ?_ (congrArg Int.cast hsign)
    generalize (if decide (i < 0) then (-1 : Int) else 1) = sign
    norm_num
    ring

/-! ## ASCII -/

/-- The standard library as far as ASCII and whole numbers go. -/
def RustStd.ascii : RustStd where
  isAlphabetic := Char.isAlpha
  isNumeric := Char.isDigit
  toUppercase c := [c.toUpper]
  toLowercase s := String.ofList (s.toList.map Char.toLower)
  parseF64 s := (readInt s.toList).map F64.ofInt
  displayF64 n :=
    match F64.asI64 n with
    | some i => toString i
    | none => "NaN"
  overflowChecks := false
  isAlphabetic_ascii _ _ := rfl
  isNumeric_ascii _ _ := rfl
  toUppercase_ascii _ _ := rfl
  toUppercase_ne_nil _ := List.cons_ne_nil _ _
  toLowercase_ascii _ _ := rfl
  parseF64_int i hi := ⟨F64.ofInt i, by rw [readInt_toString, Option.map_some], F64.ofInt_spec hi⟩
  displayF64_form n := by
    cases F64.asI64 n with
    | none => exact .inl (by simp)
    | some i =>
      have hform := toList_toString_int i
      right
      split_ifs at hform with h
      · exact .inl (hform ▸ .inl (digits_toDigits _))
      · exact .inr ⟨_, hform, .inl (digits_toDigits _)⟩

end Ubl.Logline
