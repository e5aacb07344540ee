import Ubl.Pipeline.Profiles
import Ubl.Vm.Numbers

/-!
# The rounding of money

The numeric profile takes the amount to a ratio with a denominator of a million at most, and that to
cents.  The ratio is so near to the amount that only one thing can go wrong: it can be half a cent
itself where the amount is not.  Then the even side is taken, which is not always the side of the
amount (`moneyCode_rounds`).
-/

namespace Ubl.Pipeline

open BigEndian Metered ExceptLemmas Rounding
open Ubl.Vm Ubl.Unc1

/-- `NumToRat` with its limit, and `NumToDec` with two digits. -/
def moneyCode : List Instr := [⟨.numToRat, toBE 8 1000000⟩, ⟨.numToDec, [0, 0, 0, 2, 0]⟩]

section Money

variable {σ : Type} {env : VmEnv σ} {core : Core σ} {v : Value} {a : Unc1.Num} {r s : ℚ}

/-- Half a cent more than `k` cents. -/
def halfCent (k : ℤ) : ℚ := (2 * k + 1) / 200

/-- The approximation is rounded as the amount is. -/
def SameCents (r s : ℚ) : Prop :=
  ∀ k : ℤ, s = halfCent k → r = s ∨ (r < s ∧ Even k) ∨ (s < r ∧ Odd k)

theorem mul_hundred_eq_iff {x : ℚ} (k : ℤ) : x * 100 = k + 1 / 2 ↔ x = halfCent k := by
  unfold halfCent
  constructor <;> intro h <;> linarith

theorem limit_cast : ((1000000 : UInt64).toNat : ℚ) = 10 ^ 6 := by
  rw [show (1000000 : UInt64).toNat = 1000000 from rfl]
  norm_num

/-- `HalfEven` tells the amount and its approximation apart only at half a cent. -/
theorem round_cents_eq_iff (hs : Approximant r 1000000 s) :
    RoundingMode.halfEven.round (r * 100) = RoundingMode.halfEven.round (s * 100) ↔
      SameCents r s := by
  have hden : (0 : ℚ) < s.den := by exact_mod_cast s.pos
  have hint : ∃ n : ℤ, 2 * ((s.den : ℤ) : ℚ) * (s * 100) = n := by
    refine ⟨200 * s.num, ?_⟩
    have hnum : s * s.den = s.num := Rat.mul_den_eq_num s
    push_cast
    linear_combination 200 * hnum
  have hnear : |r * 100 - s * 100| < 1 / (2 * ((s.den : ℤ) : ℚ)) := by
    have herror := hs.error
    rw [limit_cast] at herror
    rw [lt_div_iff₀ (by positivity)] at herror ⊢
    rw [← sub_mul, abs_mul, abs_of_pos (by norm_num : (0 : ℚ) < 100)]
    push_cast
    have hnonneg : 0 ≤ |r - s| * s.den := by positivity
    nlinarith
  rw [RoundingMode.round,
    toEven_onMagnitude.eq_iff_of_near (by exact_mod_cast s.pos : (0 : ℤ) < s.den) hint hnear]
  simp only [mul_hundred_eq_iff, SameCents, mul_left_inj' (by norm_num : (100 : ℚ) ≠ 0),
    mul_lt_mul_iff_of_pos_right (by norm_num : (0 : ℚ) < 100)]

/-- The denominator of half a cent is a multiple of eight. -/
theorem eight_le_den {k : ℤ} (h : s = halfCent k) : (8 : ℚ) ≤ s.den := by
  have hnum : s * s.den = s.num := Rat.mul_den_eq_num s
  have hprod : (s.den : ℤ) * (2 * k + 1) = 200 * s.num := by
    have : (s.den : ℚ) * (2 * k + 1) = 200 * s.num := by
      rw [← hnum, h, halfCent]
      ring
    exact_mod_cast this
  have hdvd : (8 : ℤ) ∣ s.den := by
    have hcoprime : IsCoprime (8 : ℤ) (2 * k + 1) := by
      have hodd : IsCoprime (2 : ℤ) (2 * k + 1) := ⟨-k, 1, by ring⟩
      have hpow : IsCoprime ((2 : ℤ) ^ 3) (2 * k + 1) := hodd.pow_left
      exact hpow
    refine hcoprime.dvd_of_dvd_mul_right ?_
    rw [hprod]
    exact ⟨25 * s.num, by ring⟩
  have hpos : (0 : ℤ) < s.den := by exact_mod_cast s.pos
  have hle := Int.le_of_dvd hpos hdvd
  exact_mod_cast hle

theorem sameCents_of_far (hs : Approximant r 1000000 s)
    (h : ∀ k : ℤ, r = halfCent k ∨ 1 / (8 * 10 ^ 6) ≤ |r - halfCent k|) : SameCents r s := by
  intro k hk
  rcases h k with hr | hfar
  · exact .inl (hr.trans hk.symm)
  · rw [← hk] at hfar
    have herror := hs.error
    rw [limit_cast] at herror
    have hden := eight_le_den hk
    have hbound : 1 / ((s.den : ℚ) * 10 ^ 6) ≤ 1 / (8 * 10 ^ 6) :=
      one_div_le_one_div_of_le (by norm_num) (by linarith)
    exact absurd hfar (by linarith)

theorem ten_pow_two : (10 : ℚ) ^ (2 : UInt32).toNat = 100 := by
  rw [show (2 : UInt32).toNat = 2 from rfl]
  norm_num

/-- Direct rounding to cents. -/
theorem toDec_cents (ha : toRational env.parseBigInt a = .ok r) :
    toDec env.parseBigInt a 2 .halfEven =
      .ok (.dec (toString (RoundingMode.halfEven.round (r * 100))) 2 a.unit) := by
  rw [toDec_of_value ha, ten_pow_two]

/-- The two instructions one after the other. -/
theorem exec_moneyCode {m n : Unc1.Num}
    (hv : ∀ op, popNumFor env op (core.push v) = .ok (a, core))
    (hrat : toRat env.parseBigInt a 1000000 = .ok m)
    (hdec : toDec env.parseBigInt m 2 .halfEven = .ok n) :
    (exec (execOp env) moneyCode (core.push v)).result = .ok (core.push (.num n)) := by
  have hfirst : execOp env ⟨.numToRat, toBE 8 1000000⟩ (core.push v) = .ok (core.push (.num m)) := by
    have hlimit : UInt64.ofNat (ofBE (toBE 8 1000000)) = 1000000 := by decide
    have hlength : ¬ (toBE 8 1000000).length ≠ 8 := by decide
    simp only [execOp, if_neg hlength, hv, bind_ok, hlimit, hrat]
  have hsecond : execOp env ⟨.numToDec, [0, 0, 0, 2, 0]⟩ (core.push (.num m)) =
      .ok (core.push (.num n)) := by
    have hpop : popNumFor env .numToDec (core.push (.num m)) = .ok (m, core) := rfl
    have hmode : RoundingMode.fromU8 ([0, 0, 0, 2, 0].getD 4 0) = .ok .halfEven := rfl
    have hscale : UInt32.ofNat (ofBE ([0, 0, 0, 2, 0].take 4)) = 2 := by decide
    have hlength : ¬ ([0, 0, 0, 2, 0] : List UInt8).length ≠ 5 := by decide
    simp only [execOp, if_neg hlength, hmode, hpop, bind_ok, hscale, hdec, pushNum]
  rw [moneyCode, exec_cons_ok _ hfirst, spend_bind_result, exec_cons_ok _ hsecond]
  rfl

end Money

/-- The two instructions of the numeric profile round to the cents of the amount itself but where the
approximation is half a cent, the amount is not, and the even side is not that of the amount.  That
cannot be with a denominator of a million at most, nor when every half cent that is not the amount is
far from it. -/
theorem moneyCode_rounds {σ : Type} (env : VmEnv σ)
    (hparse : ∀ i : Int, env.parseBigInt (toString i) = .ok i) (core : Core σ) (v : Value)
    (a : Unc1.Num) (r : ℚ) (hv : ∀ op, popNumFor env op (core.push v) = .ok (a, core))
    (ha : toRational env.parseBigInt a = .ok r) :
    (∃ before after, profileCode .numericV1 = before ++ moneyCode ++ after) ∧
    ∃ s n, Approximant r 1000000 s ∧
      (exec (execOp env) moneyCode (core.push v)).result = .ok (core.push (.num n)) ∧
      (toDec env.parseBigInt a 2 .halfEven = .ok n ↔ SameCents r s) ∧
      (r.den ≤ 1000000 → toDec env.parseBigInt a 2 .halfEven = .ok n) ∧
      ((∀ k : ℤ, r = halfCent k ∨ 1 / (8 * 10 ^ 6) ≤ |r - halfCent k|) →
        toDec env.parseBigInt a 2 .halfEven = .ok n) := by
  obtain ⟨s, hs⟩ := @exists_approximant 1000000 r (by decide)
  have hvalue : toRational env.parseBigInt ((rationalToReducedRat s).setUnit a.unit) = .ok s := by
    rw [toRational_setUnit, toRational_rat hparse]
  have hcents := toDec_cents hvalue
  rw [unit_setUnit] at hcents
  refine ⟨⟨Silicon.loadBody ++ [⟨.jsonValidate, []⟩, ⟨.jsonGetKey, Utf8.utf8 "amount"⟩],
    [⟨.setRcBody, []⟩, ⟨.pushInput, toBE 2 0⟩, ⟨.attachProof, []⟩], rfl⟩, s, _, hs,
    exec_moneyCode hv (toRat_approximant ha hs) hcents, ?_⟩
  have hiff : toDec env.parseBigInt a 2 .halfEven =
      .ok (.dec (toString (RoundingMode.halfEven.round (s * 100))) 2 a.unit) ↔ SameCents r s := by
    rw [toDec_cents ha, ← round_cents_eq_iff hs]
    constructor
    · exact fun h => toString_int_injective (Num.dec.inj (Except.ok.inj h)).1
    · exact fun h => by rw [h]
  refine ⟨hiff, fun hden => hiff.mpr ?_, fun hfar => hiff.mpr (sameCents_of_far hs hfar)⟩
  obtain rfl := hs.within hden
  exact fun k _ => .inl rfl

/-- Five cents and a half, which is a half cent itself. -/
theorem moneyCode_rounds_sample :
    let a : Unc1.Num := .dec "55" 3 (some "EUR")
    ∃ n, (exec (execOp reading) moneyCode ((initial ()).push (.num a))).result =
        .ok ((initial ()).push (.num n)) ∧
      toDec parseNumeral a 2 .halfEven = .ok n := by
  intro a
  have ha : toRational parseNumeral a = .ok (11 / 200) := by decide +kernel
  obtain ⟨-, s, n, -, hexec, -, hsmall, -⟩ := moneyCode_rounds reading parseNumeral_toString
    (initial ()) (.num a) a (11 / 200) (fun _ => rfl) ha
  exact ⟨n, hexec, hsmall (by norm_num)⟩

/-- A little more than half a cent is a cent, and is taken for half a cent and so for nothing. -/
theorem moneyCode_drops_cent :
    let a : Unc1.Num := .dec "5000001" 9 none
    (exec (execOp reading) moneyCode ((initial ()).push (.num a))).result =
        .ok ((initial ()).push (.num (.dec "0" 2 none))) ∧
      toDec parseNumeral a 2 .halfEven = .ok (.dec "1" 2 none) ∧
      ¬ ∃ n, (exec (execOp reading) moneyCode ((initial ()).push (.num a))).result =
        .ok ((initial ()).push (.num n)) ∧ toDec parseNumeral a 2 .halfEven = .ok n := by
  intro a
  have hexec : (exec (execOp reading) moneyCode ((initial ()).push (.num a))).result =
      .ok ((initial ()).push (.num (.dec "0" 2 none))) := by
    have hrat : toRat parseNumeral a 1000000 = .ok (.rat "1" "200" none) := by decide +kernel
    exact exec_moneyCode (fun _ => rfl) hrat (by decide +kernel)
  have hdirect : toDec parseNumeral a 2 .halfEven = .ok (.dec "1" 2 none) := by decide +kernel
  refine ⟨hexec, hdirect, ?_⟩
  rintro ⟨n, hn, hn'⟩
  rw [hdirect] at hn'
  obtain rfl := Except.ok.inj hn'
  rw [hexec, Except.ok.injEq, Core.push, Core.push, Core.mk.injEq] at hn
  simp at hn

end Ubl.Pipeline
