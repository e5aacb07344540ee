import Ubl.Unc1.Rounding

/-!
# Sums and differences are exact

Between integers, decimals and ratios `add` and `sub` go through the rational values of their
operands and back to the kind of the higher one.  An integer sum is an integer and a decimal sum
fits the larger of the two scales, so nothing is lost on the way back (`add_sub_exact`).
-/

namespace Ubl.Unc1

open ExceptLemmas

/-! ## Units -/

section Units

variable {a b c : Num} {u : Option String}

/-- Both have a unit only if it is the same. -/
def Compatible (a b : Num) : Prop := ∀ x ∈ a.unit, ∀ y ∈ b.unit, x = y

theorem checkUnits_eq_ok : checkUnits a b = .ok u ↔ Compatible a b ∧ u = a.unit.or b.unit := by
  unfold checkUnits Compatible
  cases a.unit with
  | none => cases b.unit <;> simp [eq_comm]
  | some x =>
    cases b.unit with
    | none => simp [eq_comm]
    | some y => by_cases h : x = y <;> simp [h, eq_comm]

theorem Compatible.checkUnits (h : Compatible a b) : checkUnits a b = .ok (a.unit.or b.unit) :=
  checkUnits_eq_ok.mpr ⟨h, rfl⟩

theorem Compatible.symm (h : Compatible a b) : Compatible b a :=
  fun x hx y hy => (h y hy x hx).symm

/-- A merged unit agrees with what agrees with both. -/
theorem Compatible.merged {n : Num} (hn : n.unit = a.unit.or b.unit) (hac : Compatible a c)
    (hbc : Compatible b c) : Compatible n c := by
  intro x hx y hy
  rw [hn, Option.mem_def, Option.or_eq_some_iff] at hx
  rcases hx with hx | ⟨-, hx⟩
  · exact hac x hx y hy
  · exact hbc x hx y hy

end Units

@[simp] theorem unit_setUnit (u : Option String) (n : Num) : (n.setUnit u).unit = u := by
  cases n <;> rfl

@[simp] theorem rank_setUnit (u : Option String) (n : Num) : (n.setUnit u).rank = n.rank := by
  cases n <;> rfl

/-! ## The way back from a rational number -/

section Results

variable {parse : String → Except String Int} {a b : Num} {x y r : ℚ}

theorem toRational_setUnit (u : Option String) (n : Num) :
    toRational parse (n.setUnit u) = toRational parse n := by
  cases n <;> rfl

/-- An integer or a decimal is an integer at its scale. -/
theorem exists_int_of_rank (hrank : a.rank ≤ 1) (ha : toRational parse a = .ok x) {s : ℕ}
    (hs : a.decScale.toNat ≤ s) : ∃ k : ℤ, x * 10 ^ s = k := by
  suffices hscale : ∃ k : ℤ, x * 10 ^ a.decScale.toNat = k by
    obtain ⟨k, hk⟩ := hscale
    refine ⟨k * 10 ^ (s - a.decScale.toNat), ?_⟩
    rw [← Nat.add_sub_cancel' hs, pow_add, ← mul_assoc, hk, Nat.add_sub_cancel_left]
    push_cast
    rfl
  cases a with
  | int v u =>
    obtain ⟨i, -, hi⟩ := bind_eq_ok.mp ha
    obtain rfl := Except.ok.inj hi
    exact ⟨i, by simp [Num.decScale]⟩
  | dec m s u =>
    obtain ⟨i, -, hi⟩ := bind_eq_ok.mp ha
    obtain rfl := Except.ok.inj hi
    refine ⟨i, ?_⟩
    have hpos : (10 : ℚ) ^ s.toNat ≠ 0 := by positivity
    rw [mkRat_pow, Num.decScale]
    exact div_mul_cancel₀ _ hpos
  | rat p q u => exact absurd hrank (by simp [Num.rank])
  | bnd lo hi u => cases ha

/-- `to_string` of a denominator is that of an integer. -/
theorem toString_den (r : ℚ) : toString r.den = toString (r.den : ℤ) := rfl

/-- The kind that an operation between points returns. -/
def ofRank (rank : ℕ) (scale : UInt32) (r : ℚ) : Num :=
  match rank with
  | 0 => rationalToInt r
  | 1 => roundRationalToDec r scale .halfEven
  | _ => rationalToReducedRat r

theorem binaryOp_points (ha : toRational parse a = .ok x) (hb : toRational parse b = .ok y)
    (hunits : Compatible a b) (op : IntervalOp) : binaryOp parse a b op =
      .ok ((ofRank (max a.rank b.rank) (max a.decScale b.decScale) (op.apply x y)).setUnit
        (a.unit.or b.unit)) := by
  rw [binaryOp, hunits.checkUnits, bind_ok,
    if_neg (not_or.mpr ⟨toRational_bnd ha, toRational_bnd hb⟩), toRational_stripUnit, ha, bind_ok,
    toRational_stripUnit, hb, bind_ok]
  rfl

section

variable (hparse : ∀ i : Int, parse (toString i) = .ok i)

include hparse

theorem toRational_rat (r : ℚ) : toRational parse (rationalToReducedRat r) = .ok r := by
  have hden : (r.den : ℤ) ≠ 0 := by exact_mod_cast r.den_ne_zero
  have hvalue : ((r.num : ℚ) / ((r.den : ℤ) : ℚ)) = r := Rat.num_div_den r
  rw [rationalToReducedRat, toRational, parseBigint_toString hparse, bind_ok, toString_den,
    parseBigint_toString hparse, bind_ok, if_neg hden]
  show Except.ok ((r.num : ℚ) / ((r.den : ℤ) : ℚ)) = .ok r
  rw [hvalue]

theorem toRational_int (k : ℤ) (u : Option String) :
    toRational parse (.int (toString k) u) = .ok (k : ℚ) := by
  rw [toRational, parseBigint_toString hparse, bind_ok]
  rfl

/-- Nothing is lost where the number is an integer at the scale of the kind. -/
theorem toRational_ofRank {rank : ℕ} {scale : UInt32} {r : ℚ}
    (hint : rank = 0 → ∃ k : ℤ, r = k) (hdec : rank = 1 → ∃ k : ℤ, r * 10 ^ scale.toNat = k) :
    toRational parse (ofRank rank scale r) = .ok r ∧
      (rank ≤ 2 → (ofRank rank scale r).rank = rank) := by
  match rank with
  | 0 =>
    obtain ⟨k, rfl⟩ := hint rfl
    have hden : ((k : ℚ)).den = 1 := Rat.den_intCast k
    have hnum : ((k : ℚ)).num = k := Rat.num_intCast k
    rw [ofRank, rationalToInt, if_pos hden, hnum]
    exact ⟨toRational_int hparse k none, fun _ => rfl⟩
  | 1 =>
    obtain ⟨k, hk⟩ := hdec rfl
    have hscale : (10 : ℚ) ^ scale.toNat ≠ 0 := by positivity
    rw [ofRank, roundRationalToDec_eq_round, hk, RoundingMode.round_intCast]
    refine ⟨?_, fun _ => rfl⟩
    rw [toRational_dec hparse, ← hk, mul_div_cancel_right₀ _ hscale]
  | 2 => exact ⟨toRational_rat hparse r, fun _ => rfl⟩
  | n + 3 => exact ⟨toRational_rat hparse r, fun h => absurd h (by omega)⟩

end

end Results

/-! ## Sums and differences -/

/-- The number has the value, the kind and the unit. -/
structure Is (parse : String → Except String Int) (n : Num) (value : ℚ) (rank : ℕ)
    (unit : Option String) : Prop where
  value : toRational parse n = .ok value
  rank : n.rank = rank
  unit : n.unit = unit

section Exact

variable {parse : String → Except String Int} (hparse : ∀ i : Int, parse (toString i) = .ok i)

include hparse

/-- An operation that keeps integers at a scale is exact. -/
theorem binaryOp_exact {a b : Num} {x y : ℚ} (ha : toRational parse a = .ok x)
    (hb : toRational parse b = .ok y) (hunits : Compatible a b) {op : IntervalOp}
    (hop : ∀ s : ℕ, (∃ k : ℤ, x * 10 ^ s = k) → (∃ k : ℤ, y * 10 ^ s = k) →
      ∃ k : ℤ, op.apply x y * 10 ^ s = k) :
    ∃ n, binaryOp parse a b op = .ok n ∧
      Is parse n (op.apply x y) (max a.rank b.rank) (a.unit.or b.unit) := by
  have hra : a.rank ≤ 2 := by
    have := toRational_bnd ha
    cases a <;> simp_all [Num.rank]
  have hrb : b.rank ≤ 2 := by
    have := toRational_bnd hb
    cases b <;> simp_all [Num.rank]
  have hmax : (max a.decScale b.decScale).toNat = max a.decScale.toNat b.decScale.toNat := by
    show (if a.decScale ≤ b.decScale then b.decScale else a.decScale).toNat = _
    simp only [Nat.max_def, UInt32.le_iff_toNat_le]
    split_ifs <;> rfl
  have hscaled {s : ℕ} (hrank : max a.rank b.rank ≤ 1)
      (hs : max a.decScale.toNat b.decScale.toNat ≤ s) :
      ∃ k : ℤ, op.apply x y * 10 ^ s = k :=
    hop s (exists_int_of_rank (by omega) ha (by omega)) (exists_int_of_rank (by omega) hb (by omega))
  have hint (hrank : max a.rank b.rank = 0) : ∃ k : ℤ, op.apply x y = k := by
    have hscale {n : Num} (h : n.rank = 0) : n.decScale.toNat = 0 := by
      cases n with
      | int v u => rfl
      | _ => cases h
    obtain ⟨k, hk⟩ := @hscaled 0 (by omega)
      (by rw [hscale (by omega : a.rank = 0), hscale (by omega : b.rank = 0)]; exact le_rfl)
    exact ⟨k, by rw [← hk, pow_zero, mul_one]⟩
  obtain ⟨hvalue, hrank⟩ := toRational_ofRank hparse hint
    fun hone => @hscaled (max a.decScale b.decScale).toNat hone.le (by rw [hmax])
  refine ⟨_, binaryOp_points ha hb hunits op, ?_, ?_, ?_⟩
  · rw [toRational_setUnit, hvalue]
  · rw [rank_setUnit, hrank (by omega)]
  · exact unit_setUnit _ _

theorem add_exact {a b : Num} {x y : ℚ} (ha : toRational parse a = .ok x)
    (hb : toRational parse b = .ok y) (hunits : Compatible a b) :
    ∃ n, add parse a b = .ok n ∧ Is parse n (x + y) (max a.rank b.rank) (a.unit.or b.unit) := by
  refine @binaryOp_exact _ hparse _ _ _ _ ha hb hunits .add fun s ⟨j, hj⟩ ⟨k, hk⟩ => ⟨j + k, ?_⟩
  rw [IntervalOp.apply, add_mul, hj, hk, Int.cast_add]

theorem sub_exact {a b : Num} {x y : ℚ} (ha : toRational parse a = .ok x)
    (hb : toRational parse b = .ok y) (hunits : Compatible a b) :
    ∃ n, sub parse a b = .ok n ∧ Is parse n (x - y) (max a.rank b.rank) (a.unit.or b.unit) := by
  refine @binaryOp_exact _ hparse _ _ _ _ ha hb hunits .sub fun s ⟨j, hj⟩ ⟨k, hk⟩ => ⟨j - k, ?_⟩
  rw [IntervalOp.apply, sub_mul, hj, hk, Int.cast_sub]

end Exact

/-- Between points `add` and `sub` are exact, in the kind of the higher operand and with the merged
unit; so sums commute and associate in value, and a difference undoes a sum. -/
theorem add_sub_exact (parse : String → Except String Int)
    (hparse : ∀ i : Int, parse (toString i) = .ok i) (a b c : Num) (x y z : ℚ)
    (ha : toRational parse a = .ok x) (hb : toRational parse b = .ok y)
    (hc : toRational parse c = .ok z) (hab : Compatible a b) (hac : Compatible a c)
    (hbc : Compatible b c) :
    (∃ n, add parse a b = .ok n ∧ Is parse n (x + y) (max a.rank b.rank) (a.unit.or b.unit)) ∧
    (∃ n, sub parse a b = .ok n ∧ Is parse n (x - y) (max a.rank b.rank) (a.unit.or b.unit)) ∧
    (∃ m n, add parse a b = .ok m ∧ add parse b a = .ok n ∧
      toRational parse m = toRational parse n) ∧
    (∃ m n, (add parse a b >>= fun ab => add parse ab c) = .ok m ∧
      (add parse b c >>= fun bc => add parse a bc) = .ok n ∧
      toRational parse m = toRational parse n) ∧
    ∃ n, (add parse a b >>= fun ab => sub parse ab b) = .ok n ∧
      toRational parse n = toRational parse a := by
  obtain ⟨ab, hadd, hsum⟩ := add_exact hparse ha hb hab
  obtain ⟨ba, hadd', hsum'⟩ := add_exact hparse hb ha hab.symm
  obtain ⟨bc, haddbc, hsumbc⟩ := add_exact hparse hb hc hbc
  have habc : Compatible ab c := Compatible.merged hsum.unit hac hbc
  have habc' : Compatible a bc := (Compatible.merged hsumbc.unit hab.symm hac.symm).symm
  have habb : Compatible ab b :=
    Compatible.merged hsum.unit hab fun u hu v hv => Option.mem_unique hu hv
  obtain ⟨m, hm, hm'⟩ := add_exact hparse hsum.value hc habc
  obtain ⟨n, hn, hn'⟩ := add_exact hparse ha hsumbc.value habc'
  obtain ⟨d, hd, hd'⟩ := sub_exact hparse hsum.value hb habb
  refine ⟨⟨ab, hadd, hsum⟩, sub_exact hparse ha hb hab, ⟨ab, ba, hadd, hadd', ?_⟩,
    ⟨m, n, ?_, ?_, ?_⟩, d, ?_, ?_⟩
  · rw [hsum.value, hsum'.value, add_comm]
  · rw [hadd, bind_ok, hm]
  · rw [haddbc, bind_ok, hn]
  · rw [hm'.value, hn'.value, add_assoc]
  · rw [hadd, bind_ok, hd]
  · rw [hd'.value, ha, add_sub_cancel_right]

/-- Half a dollar, a third, and two. -/
theorem add_sub_exact_sample :
    let a : Num := .dec "50" 2 (some "USD")
    let b : Num := .rat "1" "3" none
    (∃ n, add parseNumeral a b = .ok n ∧ Is parseNumeral n (1 / 2 + 1 / 3) 2 (some "USD")) ∧
      ∃ n, (add parseNumeral a b >>= fun ab => sub parseNumeral ab b) = .ok n ∧
        toRational parseNumeral n = toRational parseNumeral a := by
  intro a b
  have h := add_sub_exact parseNumeral parseNumeral_toString a b (.int "2" none) (1 / 2) (1 / 3) 2
    (by decide +kernel) (by decide +kernel) (by decide +kernel) (by simp [Compatible, a, b, Num.unit])
    (by simp [Compatible, a, Num.unit]) (by simp [Compatible, b, Num.unit])
  exact ⟨h.1, h.2.2.2.2⟩

end Ubl.Unc1
