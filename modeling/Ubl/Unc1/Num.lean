import Ubl.Json

/-!
# `ubl_unc1`: numbers and the IEEE-754 frontier

A `Num` is an integer, a decimal, a ratio or an interval between two numbers, each with
an optional unit; literals stay the decimal strings the source keeps.  `fromF64Bits`
turns a finite double into the interval of reals that round to it.  Big integers are
`Int` and big rationals `ℚ`, which is reduced with a positive denominator as
`BigRational` is; `BigInt` division truncates.
-/

namespace Ubl.Unc1

inductive Num where
  | int (v : String) (u : Option String)
  | dec (m : String) (s : UInt32) (u : Option String)
  | rat (p q : String) (u : Option String)
  | bnd (lo hi : Num) (u : Option String)
deriving DecidableEq

inductive RoundingMode where
  | halfEven
  | down
  | up
  | halfUp
  | floor
  | ceil
deriving DecidableEq

/-! ## Rounding -/

def floorDiv (n d : Int) : Int :=
  let q := n.tdiv d
  let r := n.tmod d
  if r ≠ 0 ∧ decide (n < 0) ≠ decide (d < 0) then q - 1 else q

def ceilDiv (n d : Int) : Int :=
  let q := n.tdiv d
  let r := n.tmod d
  if r ≠ 0 ∧ decide (n < 0) = decide (d < 0) then q + 1 else q

/-- Round half away from zero. -/
def halfUp (n d : Int) : Int :=
  let absD := |d|
  let absN := |n|
  let q := absN.tdiv absD
  let r := absN.tmod absD
  let result := if r * 2 ≥ absD then q + 1 else q
  if n < 0 then -result else result

/-- Banker's rounding. -/
def halfEven (n d : Int) : Int :=
  let absD := |d|
  let absN := |n|
  let q := absN.tdiv absD
  let r := absN.tmod absD
  let result :=
    if r * 2 > absD then q + 1
    else if r * 2 = absD then
      if q.tmod 2 = 0 then q else q + 1
    else q
  if n < 0 then -result else result

def roundRationalToDec (r : ℚ) (scale : UInt32) (rm : RoundingMode) : Num :=
  let factor : Int := 10 ^ scale.toNat
  let scaled := r * (factor : ℚ)
  let numer := scaled.num
  let denom : Int := scaled.den
  let m : Int :=
    match rm with
    | .down => if scaled < 0 then -((-numer).tdiv denom) else numer.tdiv denom
    | .up =>
      if scaled.den = 1 then numer
      else if scaled < 0 then -((-numer + denom - 1).tdiv denom)
      else (numer + denom - 1).tdiv denom
    | .floor => floorDiv numer denom
    | .ceil => ceilDiv numer denom
    | .halfUp => halfUp numer denom
    | .halfEven => halfEven numer denom
  .dec (toString m) scale none

/-! ## Doubles -/

/-- The rational value of a bit pattern, `sign · mantissa · 2^exponent`. -/
def exactF64Rational (bits : UInt64) : ℚ :=
  let sign : Int := if bits >>> 63 = 1 then -1 else 1
  let biasedExp : Int := ((bits >>> 52) &&& 0x7FF).toNat
  let frac := bits &&& 0x000FFFFFFFFFFFFF
  let mantissa : Int := if biasedExp = 0 then frac.toNat else (frac ||| ((1 : UInt64) <<< 52)).toNat
  let exponent : Int := if biasedExp = 0 then -1074 else biasedExp - 1023 - 52
  let signedMantissa := sign * mantissa
  if exponent ≥ 0 then ((signedMantissa * 2 ^ exponent.toNat : Int) : ℚ)
  else mkRat signedMantissa (2 ^ (-exponent).toNat)

/-- The neighbours below and above a finite double other than zero. -/
def adjacentF64 (bits : UInt64) : UInt64 × UInt64 :=
  if bits >>> 63 = 0 then (bits - 1, bits + 1) else (bits + 1, bits - 1)

def fromF64Bits (bits : UInt64) : Except String Num :=
  if f64IsFinite bits = false then .error "NUMERIC_VALUE_INVALID: NaN or Inf"
  else if bits &&& 0x7FFFFFFFFFFFFFFF = 0 then
    .ok (.bnd (.dec "0" 1 none) (.dec "0" 1 none) none)
  else
    let exact := exactF64Rational bits
    let (prev, next) := adjacentF64 bits
    let loRat := (exact + exactF64Rational prev) / 2
    let hiRat := (exact + exactF64Rational next) / 2
    .ok (.bnd (roundRationalToDec loRat 18 .floor) (roundRationalToDec hiRat 18 .ceil) none)

/-! ## The JSON of a number -/

def u32ToJson (n : UInt32) : Json := .number (.posInt n.toUInt64)

/-- The unit member, left out when there is no unit. -/
def unitMember : Option String → List (String × Json)
  | none => []
  | some u => [("u", .string u)]

/-- `serde_json::to_value`: an internally tagged enum, the tag first. -/
def toValue : Num → Json
  | .int v u => .object ([("@num", .string "int/1"), ("v", .string v)] ++ unitMember u)
  | .dec m s u =>
    .object ([("@num", .string "dec/1"), ("m", .string m), ("s", u32ToJson s)] ++ unitMember u)
  | .rat p q u =>
    .object ([("@num", .string "rat/1"), ("p", .string p), ("q", .string q)] ++ unitMember u)
  | .bnd lo hi u =>
    .object ([("@num", .string "bnd/1"), ("lo", toValue lo), ("hi", toValue hi)] ++ unitMember u)

/-! ## Scaled integers -/

theorem mkRat_pow (m : ℤ) (b k : ℕ) [b.AtLeastTwo] :
    mkRat m (OfNat.ofNat b ^ k) = (m : ℚ) / OfNat.ofNat b ^ k := by
  rw [Rat.mkRat_eq_div, Nat.cast_pow, Nat.cast_ofNat]

/-- An integer times a power of two, which may be a fraction. -/
theorem scaled_eq (m x : ℤ) : (if x ≥ 0 then ((m * 2 ^ x.toNat : ℤ) : ℚ)
    else mkRat m (2 ^ (-x).toNat)) = m * (2 : ℚ) ^ x := by
  split_ifs with h
  · obtain ⟨n, rfl⟩ := Int.eq_ofNat_of_zero_le h
    push_cast
    rw [Int.toNat_natCast, zpow_natCast]
  · obtain ⟨n, rfl⟩ : ∃ n : ℕ, x = -n := ⟨(-x).toNat, by omega⟩
    rw [neg_neg, Int.toNat_natCast, mkRat_pow, zpow_neg, zpow_natCast, div_eq_mul_inv]

/-! ## What an import looks like -/

/-- An imported double is an interval between two decimals without units. -/
theorem fromF64Bits_eq_ok {bits : UInt64} {n : Num} (h : fromF64Bits bits = .ok n) :
    ∃ (lo hi : Int) (s : UInt32),
      n = .bnd (.dec (toString lo) s none) (.dec (toString hi) s none) none := by
  unfold fromF64Bits at h
  split_ifs at h with hfin hzero
  · obtain rfl := Except.ok.inj h
    exact ⟨0, 0, 1, rfl⟩
  · obtain rfl := Except.ok.inj h
    exact ⟨_, _, 18, rfl⟩

end Ubl.Unc1
