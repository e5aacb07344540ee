import Ubl.Unc1.Arith
import Ubl.Lib.Interval
import Ubl.Lib.ExceptLemmas
import Ubl.Lib.Numeral
import Mathlib.Data.Rat.Floor

/-!
# Interval arithmetic encloses the result

With an interval on either side an operation of `ubl_unc1` computes the ends of the result from
the ends of its operands and rounds them outwards to 18 decimals.  The interval so obtained
contains the result for all values of the operands (`interval_sound`).
-/

namespace Ubl.Unc1

open ExceptLemmas Interval

/-! ## Rounding by integer division -/

theorem floorDiv_eq {n d : Int} (hd : 0 < d) : floorDiv n d = n / d := by
  have hsign : d.sign = 1 := Int.sign_eq_one_of_pos hd
  unfold floorDiv
  simp only [Int.tdiv_eq_ediv, ne_eq, ← Int.dvd_iff_tmod_eq_zero, hsign]
  by_cases hdvd : d ∣ n
  · simp [hdvd]
  · by_cases hn : n < 0
    · simp [hdvd, hn, hd.not_gt, hn.not_ge]
    · simp [hdvd, hn, hd.not_gt, not_lt.mp hn]

theorem ceilDiv_eq {n d : Int} (hd : 0 < d) : ceilDiv n d = -(-n / d) := by
  have hsign : d.sign = 1 := Int.sign_eq_one_of_pos hd
  unfold ceilDiv
  simp only [Int.tdiv_eq_ediv, ne_eq, ← Int.dvd_iff_tmod_eq_zero, hsign, Int.neg_ediv]
  by_cases hdvd : d ∣ n
  · simp [hdvd]
  · by_cases hn : n < 0
    · simp [hdvd, hn, hd.not_gt, hn.not_ge]
      omega
    · simp [hdvd, hn, hd.not_gt, not_lt.mp hn]
      omega

theorem roundRationalToDec_floor (r : ℚ) (scale : UInt32) :
    roundRationalToDec r scale .floor = .dec (toString ⌊r * 10 ^ scale.toNat⌋) scale none := by
  have hden : (0 : Int) < ((r * 10 ^ scale.toNat : ℚ).den : Int) := by
    exact_mod_cast (r * 10 ^ scale.toNat : ℚ).pos
  simp only [roundRationalToDec, Int.cast_pow, Int.cast_ofNat]
  rw [floorDiv_eq hden, ← Rat.floor_def']

theorem roundRationalToDec_ceil (r : ℚ) (scale : UInt32) :
    roundRationalToDec r scale .ceil = .dec (toString ⌈r * 10 ^ scale.toNat⌉) scale none := by
  have hden : (0 : Int) < ((r * 10 ^ scale.toNat : ℚ).den : Int) := by
    exact_mod_cast (r * 10 ^ scale.toNat : ℚ).pos
  simp only [roundRationalToDec, Int.cast_pow, Int.cast_ofNat]
  rw [ceilDiv_eq hden, ← Rat.ceil_def']

/-! ## Values of operands -/

section

variable (parse : String → Except String Int)

/-- `x` is in the value set of the number. -/
def ValueOf (a : Num) (x : ℚ) : Prop :=
  ∃ bounds, bndBounds parse a = .ok bounds ∧ bounds.1 ≤ x ∧ x ≤ bounds.2

/-- The number is an interval, its ends are in order, and `x` is between them. -/
def Encloses (n : Num) (x : ℚ) : Prop :=
  (∃ lo hi u, n = .bnd lo hi u) ∧
    ∃ bounds, bndBounds parse n = .ok bounds ∧ bounds.1 ≤ bounds.2 ∧ bounds.1 ≤ x ∧ x ≤ bounds.2

end

section Sound

variable {parse : String → Except String Int}

theorem toRational_stripUnit (n : Num) : toRational parse n.stripUnit = toRational parse n := by
  cases n <;> rfl

/-- A point value has one bound twice. -/
theorem bndBounds_point {n : Num} (h : n.rank ≠ 3) :
    bndBounds parse n = toRational parse n >>= fun r => .ok (r, r) := by
  cases n with
  | bnd lo hi u => exact absurd rfl h
  | _ => rfl

theorem toRational_bnd {n : Num} {r : ℚ} (h : toRational parse n = .ok r) : n.rank ≠ 3 := by
  cases n with
  | bnd lo hi u => cases h
  | _ => simp [Num.rank]

variable (hparse : ∀ i : Int, parse (toString i) = .ok i)

include hparse

theorem parseBigint_toString (i : Int) : parseBigint parse (toString i) = .ok i := by
  rw [parseBigint, hparse]

theorem toRational_dec (m : Int) (scale : UInt32) (u : Option String) :
    toRational parse (.dec (toString m) scale u) = .ok ((m : ℚ) / 10 ^ scale.toNat) := by
  rw [toRational, parseBigint_toString hparse, bind_ok, mkRat_pow]
  rfl

/-- The bounds of an interval that is rounded outwards. -/
theorem bndBounds_rounded (lo hi : ℚ) (u : Option String) : bndBounds parse
    (.bnd (roundRationalToDec lo 18 .floor) (roundRationalToDec hi 18 .ceil) u) =
      .ok ((⌊lo * 10 ^ (18 : UInt32).toNat⌋ : ℚ) / 10 ^ (18 : UInt32).toNat,
        (⌈hi * 10 ^ (18 : UInt32).toNat⌉ : ℚ) / 10 ^ (18 : UInt32).toNat) := by
  simp only [bndBounds, roundRationalToDec_floor, roundRationalToDec_ceil,
    toRational_dec hparse, bind_ok]
  rfl

/-- Rounded outwards, an interval still encloses what is between its ends. -/
theorem encloses_rounded {lo hi x : ℚ} (hlo : lo ≤ x) (hhi : x ≤ hi) (u : Option String) :
    Encloses parse (.bnd (roundRationalToDec lo 18 .floor) (roundRationalToDec hi 18 .ceil) u) x := by
  have hscale : (0 : ℚ) < 10 ^ (18 : UInt32).toNat := by positivity
  have hdown := ((mem_outward lo hscale).1).trans hlo
  have hup := hhi.trans (mem_outward hi hscale).2
  exact ⟨⟨_, _, u, rfl⟩, _, bndBounds_rounded hparse lo hi u, hdown.trans hup, hdown, hup⟩

/-- The ends that `bnd_binary_op` computes are around the result. -/
theorem bndBinaryOp_sound {a b : Num} {x y : ℚ} (hx : ValueOf parse a x) (hy : ValueOf parse b y)
    {op : IntervalOp} (hdiv : op = .div → ∃ r, bndBounds parse b = .ok (r, r))
    {u : Option String} {n : Num} (h : bndBinaryOp parse a b u op = .ok n) :
    Encloses parse n (op.apply x y) := by
  obtain ⟨A, hA, hAx, hxA⟩ := hx
  obtain ⟨B, hB, hBy, hyB⟩ := hy
  have hxmem : x ∈ Set.uIcc A.1 A.2 := Set.mem_uIcc_of_le hAx hxA
  have hymem : y ∈ Set.uIcc B.1 B.2 := Set.mem_uIcc_of_le hBy hyB
  unfold bndBinaryOp at h
  rw [hA, bind_ok, hB, bind_ok] at h
  cases op with
  | add =>
    obtain rfl := Except.ok.inj h
    exact encloses_rounded hparse (add_le_add hAx hBy) (add_le_add hxA hyB) u
  | sub =>
    obtain rfl := Except.ok.inj h
    exact encloses_rounded hparse (sub_le_sub hAx hyB) (sub_le_sub hxA hBy) u
  | mul =>
    obtain rfl := Except.ok.inj h
    obtain ⟨hlo, hhi⟩ := mul_mem_corners hxmem hymem
    exact encloses_rounded hparse hlo hhi u
  | div =>
    simp only [bind_error, ite_error_eq_ok] at h
    obtain rfl := Except.ok.inj h.2
    obtain ⟨r, hr⟩ := hdiv rfl
    obtain rfl := Except.ok.inj (hB.symm.trans hr)
    obtain rfl : y = r := le_antisymm hyB hBy
    have hinv : y⁻¹ ∈ Set.uIcc y⁻¹ y⁻¹ := by simp
    obtain ⟨hlo, hhi⟩ := mul_mem_corners hxmem hinv
    refine encloses_rounded hparse ?_ ?_ u
    · simpa only [corners, IntervalOp.apply, div_eq_mul_inv] using hlo
    · simpa only [corners, IntervalOp.apply, div_eq_mul_inv] using hhi

theorem binaryOp_sound {a b : Num} (hbnd : a.rank = 3 ∨ b.rank = 3) {x y : ℚ}
    (hx : ValueOf parse a x) (hy : ValueOf parse b y) {op : IntervalOp}
    (hdiv : op = .div → ∃ r, bndBounds parse b = .ok (r, r)) {n : Num}
    (h : binaryOp parse a b op = .ok n) : Encloses parse n (op.apply x y) := by
  unfold binaryOp at h
  obtain ⟨u, -, h⟩ := bind_eq_ok.mp h
  rw [if_pos hbnd] at h
  exact bndBinaryOp_sound hparse hx hy hdiv h

/-- Whatever an operation on intervals returns encloses the results for all values of its
operands. -/
theorem interval_sound (a b : Num) (hbnd : a.rank = 3 ∨ b.rank = 3) (x y : ℚ)
    (hx : ValueOf parse a x) (hy : ValueOf parse b y) (n : Num) :
    (add parse a b = .ok n → Encloses parse n (x + y)) ∧
    (sub parse a b = .ok n → Encloses parse n (x - y)) ∧
    (mul parse a b = .ok n → Encloses parse n (x * y)) ∧
    (div parse a b = .ok n → Encloses parse n (x / y)) := by
  refine ⟨fun h => ?_, fun h => ?_, fun h => ?_, fun h => ?_⟩
  · exact binaryOp_sound hparse hbnd hx hy (fun h => (by cases h)) h
  · exact binaryOp_sound hparse hbnd hx hy (fun h => (by cases h)) h
  · exact binaryOp_sound hparse hbnd hx hy (fun h => (by cases h)) h
  · unfold div at h
    obtain ⟨r, hr, h⟩ := bind_eq_ok.mp h
    rw [toRational_stripUnit] at hr
    have hpoint : bndBounds parse b = .ok (r, r) := by
      rw [bndBounds_point (toRational_bnd hr), hr, bind_ok]
    simp only [throw_eq_error, bind_error, ite_error_eq_ok] at h
    exact binaryOp_sound hparse hbnd hx hy (fun _ => ⟨r, hpoint⟩) h.2

end Sound

/-- `BigInt::from_str` on the numerals that `to_string` writes. -/
def parseNumeral (s : String) : Except String Int :=
  match Numeral.readInt s.toList with
  | some i => .ok i
  | none => .error "invalid digit found in string"

theorem parseNumeral_toString (i : Int) : parseNumeral (toString i) = .ok i := by
  rw [parseNumeral, Numeral.readInt_toString]

/-- A number between -2 and 3, and the number -3. -/
theorem interval_sound_sample :
    let a : Num := .bnd (.int "-2" none) (.dec "30" 1 none) none
    let b : Num := .int "-3" none
    (∃ n, mul parseNumeral a b = .ok n ∧ Encloses parseNumeral n (1 / 2 * -3)) ∧
      ∃ n, div parseNumeral a b = .ok n ∧ Encloses parseNumeral n (1 / 2 / -3) := by
  intro a b
  have hx : ValueOf parseNumeral a (1 / 2) := ⟨(-2, 3), by decide +kernel, by norm_num, by norm_num⟩
  have hy : ValueOf parseNumeral b (-3) := ⟨(-3, -3), by decide +kernel, le_rfl, le_rfl⟩
  have sound := interval_sound parseNumeral_toString a b (.inl rfl) (1 / 2) (-3) hx hy
  obtain ⟨n, hn⟩ : ∃ n, mul parseNumeral a b = .ok n := ⟨_, rfl⟩
  obtain ⟨m, hm⟩ : ∃ n, div parseNumeral a b = .ok n := by
    have hok : (div parseNumeral a b).isOk = true := by decide +kernel
    cases hdiv : div parseNumeral a b with
    | ok m => exact ⟨m, rfl⟩
    | error e => rw [hdiv] at hok; cases hok
  exact ⟨⟨n, hn, (sound n).2.2.1 hn⟩, m, hm, (sound m).2.2.2 hm⟩

end Ubl.Unc1
