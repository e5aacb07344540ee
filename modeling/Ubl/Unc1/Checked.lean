import Ubl.Unc1.Approximation
import Ubl.Unc1.Doubles

/-!
# The arithmetic with its partial operations

Rational numbers are made and divided by functions that panic on a zero denominator, integers are
divided by functions that panic on a zero divisor, and the bits of a double are counted up and down
by operations that may overflow.  Written with these, the operations on numbers are the ones that
return a number or an error text for all operands

    Checked.add parse a b = (add parse a b).mapError .err    (Checked.add_eq, and so on)

but for `to_rat`, which makes the ratio `1 / 0` when its limit is zero (`Checked.toRat_panics_iff`).
-/

namespace Ubl.Unc1.Checked

open ExceptLemmas

/-! ## Partial operations -/

/-- `BigRational::new`. -/
def bigRational (n d : Int) : Except NumFault ℚ :=
  if d = 0 then .error .panic else .ok ((n : ℚ) / (d : ℚ))

/-- The quotient of two `BigRational`s. -/
def ratDiv (x y : ℚ) : Except NumFault ℚ := if y = 0 then .error .panic else .ok (x / y)

/-- `BigRational::recip`. -/
def recip (x : ℚ) : Except NumFault ℚ := if x = 0 then .error .panic else .ok x⁻¹

/-- The quotient of two `BigInt`s. -/
def bigDiv (n d : Int) : Except NumFault Int := if d = 0 then .error .panic else .ok (n.tdiv d)

/-- `BigInt::div_rem`. -/
def divRem (n d : Int) : Except NumFault (Int × Int) :=
  if d = 0 then .error .panic else .ok (n.tdiv d, n.tmod d)

/-- `bits + 1` where overflow is checked. -/
def bitsUp (bits : UInt64) : Except NumFault UInt64 :=
  if bits.toNat + 1 < 2 ^ 64 then .ok (bits + 1) else .error .panic

/-- `bits - 1` where overflow is checked. -/
def bitsDown (bits : UInt64) : Except NumFault UInt64 :=
  if bits = 0 then .error .panic else .ok (bits - 1)

section Partial

variable {x y : ℚ} {n d : ℤ}

theorem bigRational_eq (h : d ≠ 0) : bigRational n d = .ok ((n : ℚ) / (d : ℚ)) := if_neg h

theorem ratDiv_eq (h : y ≠ 0) : ratDiv x y = .ok (x / y) := if_neg h

theorem recip_eq (h : x ≠ 0) : recip x = .ok x⁻¹ := if_neg h

theorem bigDiv_eq (h : d ≠ 0) : bigDiv n d = .ok (n.tdiv d) := if_neg h

theorem divRem_eq (h : d ≠ 0) : divRem n d = .ok (n.tdiv d, n.tmod d) := if_neg h

end Partial

/-! ## Rounding -/

def floorDiv (n d : Int) : Except NumFault Int := do
  let (q, r) ← divRem n d
  pure (if r ≠ 0 ∧ decide (n < 0) ≠ decide (d < 0) then q - 1 else q)

def ceilDiv (n d : Int) : Except NumFault Int := do
  let (q, r) ← divRem n d
  pure (if r ≠ 0 ∧ decide (n < 0) = decide (d < 0) then q + 1 else q)

def halfUp (n d : Int) : Except NumFault Int := do
  let absD := |d|
  let absN := |n|
  let (q, r) ← divRem absN absD
  let result := if r * 2 ≥ absD then q + 1 else q
  pure (if n < 0 then -result else result)

def halfEven (n d : Int) : Except NumFault Int := do
  let absD := |d|
  let absN := |n|
  let (q, r) ← divRem absN absD
  let result :=
    if r * 2 > absD then q + 1
    else if r * 2 = absD then
      if q.tmod 2 = 0 then q else q + 1
    else q
  pure (if n < 0 then -result else result)

def roundRationalToDec (r : ℚ) (scale : UInt32) (rm : RoundingMode) : Except NumFault Num := do
  let factor : Int := 10 ^ scale.toNat
  let scaled := r * (factor : ℚ)
  let numer := scaled.num
  let denom : Int := scaled.den
  let m ←
    match rm with
    | .down =>
      if scaled < 0 then (bigDiv (-numer) denom).map Neg.neg else bigDiv numer denom
    | .up =>
      if scaled.den = 1 then .ok numer
      else if scaled < 0 then (bigDiv (-numer + denom - 1) denom).map Neg.neg
      else bigDiv (numer + denom - 1) denom
    | .floor => floorDiv numer denom
    | .ceil => ceilDiv numer denom
    | .halfUp => halfUp numer denom
    | .halfEven => halfEven numer denom
  pure (.dec (toString m) scale none)

section Rounding

variable {n d : ℤ}

theorem floorDiv_eq (h : d ≠ 0) : floorDiv n d = .ok (Unc1.floorDiv n d) := by
  rw [floorDiv, divRem_eq h]
  rfl

theorem ceilDiv_eq (h : d ≠ 0) : ceilDiv n d = .ok (Unc1.ceilDiv n d) := by
  rw [ceilDiv, divRem_eq h]
  rfl

theorem halfUp_eq (h : d ≠ 0) : halfUp n d = .ok (Unc1.halfUp n d) := by
  simp only [halfUp, divRem_eq (abs_ne_zero.mpr h)]
  rfl

theorem halfEven_eq (h : d ≠ 0) : halfEven n d = .ok (Unc1.halfEven n d) := by
  simp only [halfEven, divRem_eq (abs_ne_zero.mpr h)]
  rfl

/-- Nothing is divided by but denominators. -/
theorem roundRationalToDec_eq (r : ℚ) (scale : UInt32) (rm : RoundingMode) :
    roundRationalToDec r scale rm = .ok (Unc1.roundRationalToDec r scale rm) := by
  unfold roundRationalToDec Unc1.roundRationalToDec
  dsimp only
  generalize r * ((10 ^ scale.toNat : Int) : ℚ) = scaled
  have hden : (scaled.den : ℤ) ≠ 0 := by exact_mod_cast scaled.den_ne_zero
  cases rm with
  | down => split_ifs <;> simp [bigDiv_eq hden, Except.map]
  | up => split_ifs <;> simp [bigDiv_eq hden, Except.map]
  | floor => rw [floorDiv_eq hden]; rfl
  | ceil => rw [ceilDiv_eq hden]; rfl
  | halfUp => rw [halfUp_eq hden]; rfl
  | halfEven => rw [halfEven_eq hden]; rfl

end Rounding

/-! ## Doubles -/

def exactF64Rational (bits : UInt64) : Except NumFault ℚ :=
  let sign : Int := if bits >>> 63 = 1 then -1 else 1
  let biasedExp : Int := ((bits >>> 52) &&& 0x7FF).toNat
  let frac := bits &&& 0x000FFFFFFFFFFFFF
  let mantissa : Int := if biasedExp = 0 then frac.toNat else (frac ||| ((1 : UInt64) <<< 52)).toNat
  let exponent : Int := if biasedExp = 0 then -1074 else biasedExp - 1023 - 52
  let signedMantissa := sign * mantissa
  if exponent ≥ 0 then .ok ((signedMantissa * 2 ^ exponent.toNat : Int) : ℚ)
  else bigRational signedMantissa (2 ^ (-exponent).toNat)

def adjacentF64 (bits : UInt64) : Except NumFault (UInt64 × UInt64) :=
  if bits >>> 63 = 0 then do
    let prev ← bitsDown bits
    let next ← bitsUp bits
    pure (prev, next)
  else do
    let prev ← bitsUp bits
    let next ← bitsDown bits
    pure (prev, next)

def fromF64Bits (bits : UInt64) : Except NumFault Num :=
  if f64IsFinite bits = false then .error (.err "NUMERIC_VALUE_INVALID: NaN or Inf")
  else if bits &&& 0x7FFFFFFFFFFFFFFF = 0 then
    .ok (.bnd (.dec "0" 1 none) (.dec "0" 1 none) none)
  else do
    let exact ← exactF64Rational bits
    let (prev, next) ← adjacentF64 bits
    let prevExact ← exactF64Rational prev
    let nextExact ← exactF64Rational next
    let loRat ← ratDiv (exact + prevExact) 2
    let hiRat ← ratDiv (exact + nextExact) 2
    let loDec ← roundRationalToDec loRat 18 .floor
    let hiDec ← roundRationalToDec hiRat 18 .ceil
    pure (.bnd loDec hiDec none)

section Doubles

variable {bits : UInt64}

theorem exactF64Rational_eq (bits : UInt64) :
    exactF64Rational bits = .ok (Unc1.exactF64Rational bits) := by
  have hpow (m : ℤ) (k : ℕ) : bigRational m (2 ^ k) = .ok (mkRat m (2 ^ k)) := by
    rw [bigRational_eq (pow_ne_zero k two_ne_zero), mkRat_pow]
    push_cast
    rfl
  simp only [exactF64Rational, Unc1.exactF64Rational, hpow]
  split_ifs <;> rfl

/-- The bits of a finite double other than zero are neither the least nor the greatest. -/
theorem adjacentF64_eq (hfinite : f64IsFinite bits = true) (hzero : ¬ bits &&& 0x7FFFFFFFFFFFFFFF = 0) :
    adjacentF64 bits = .ok (Unc1.adjacentF64 bits) := by
  rw [f64IsFinite_iff] at hfinite
  rw [bits_zero] at hzero
  have hlt := bits.toNat_lt
  have hup : bitsUp bits = .ok (bits + 1) := if_pos (by omega)
  have hdown : bitsDown bits = .ok (bits - 1) := by
    refine if_neg fun h => hzero ?_
    rw [h]
    rfl
  rw [adjacentF64, Unc1.adjacentF64, hup, hdown]
  split_ifs <;> rfl

theorem fromF64Bits_eq (bits : UInt64) :
    fromF64Bits bits = (Unc1.fromF64Bits bits).mapError .err := by
  rw [fromF64Bits, Unc1.fromF64Bits]
  split_ifs with hnonfinite hzero
  · rfl
  · rfl
  · have hfinite : f64IsFinite bits = true := by simpa using hnonfinite
    simp only [exactF64Rational_eq, adjacentF64_eq hfinite hzero, ratDiv_eq two_ne_zero,
      roundRationalToDec_eq, bind_ok]
    rfl

end Doubles

/-! ## Operations -/

section

variable (parse : String → Except String Int)

def parseBigint (s : String) : Except NumFault Int := (Unc1.parseBigint parse s).mapError .err

def toRational : Num → Except NumFault ℚ
  | .int v _ => do
    let i ← parseBigint parse v
    pure (i : ℚ)
  | .dec m s _ => do
    let mantissa ← parseBigint parse m
    bigRational mantissa (10 ^ s.toNat)
  | .rat p q _ => do
    let num ← parseBigint parse p
    let den ← parseBigint parse q
    if den = 0 then throw (.err "division_by_zero")
    bigRational num den
  | .bnd _ _ _ => .error (.err "cannot convert BND to single rational")

def checkUnits (a b : Num) : Except NumFault (Option String) :=
  (Unc1.checkUnits a b).mapError .err

def bndBounds : Num → Except NumFault (ℚ × ℚ)
  | .bnd lo hi _ => do
    let lo ← toRational parse lo
    let hi ← toRational parse hi
    pure (lo, hi)
  | n => do
    let r ← toRational parse n
    pure (r, r)

def apply : IntervalOp → ℚ → ℚ → Except NumFault ℚ
  | .add, x, y => .ok (x + y)
  | .sub, x, y => .ok (x - y)
  | .mul, x, y => .ok (x * y)
  | .div, x, y => ratDiv x y

def corners (op : ℚ → ℚ → Except NumFault ℚ) (a b : ℚ × ℚ) : Except NumFault (ℚ × ℚ) := do
  let ll ← op a.1 b.1
  let lh ← op a.1 b.2
  let hl ← op a.2 b.1
  let hh ← op a.2 b.2
  pure (min (min ll lh) (min hl hh), max (max ll lh) (max hl hh))

def bndBinaryOp (a b : Num) (resultUnit : Option String) (op : IntervalOp) :
    Except NumFault Num := do
  let a ← bndBounds parse a
  let b ← bndBounds parse b
  let bounds ←
    match op with
    | .add => .ok (a.1 + b.1, a.2 + b.2)
    | .sub => .ok (a.1 - b.2, a.2 - b.1)
    | .mul => corners (apply .mul) a b
    | .div =>
      if b.1 ≤ 0 ∧ b.2 ≥ 0 then .error (.err "division_by_zero") else corners (apply .div) a b
  let loDec ← roundRationalToDec bounds.1 18 .floor
  let hiDec ← roundRationalToDec bounds.2 18 .ceil
  pure (.bnd loDec hiDec resultUnit)

def binaryOp (a b : Num) (op : IntervalOp) : Except NumFault Num := do
  let resultUnit ← checkUnits a b
  if a.rank = 3 ∨ b.rank = 3 then bndBinaryOp parse a b resultUnit op
  else do
    let ra ← toRational parse a.stripUnit
    let rb ← toRational parse b.stripUnit
    let result ← apply op ra rb
    let num ←
      match max a.rank b.rank with
      | 0 => .ok (rationalToInt result)
      | 1 => roundRationalToDec result (max a.decScale b.decScale) .halfEven
      | 2 => .ok (rationalToReducedRat result)
      -- `unreachable!()`
      | _ => .error .panic
    pure (num.setUnit resultUnit)

def add (a b : Num) : Except NumFault Num := binaryOp parse a b .add
def sub (a b : Num) : Except NumFault Num := binaryOp parse a b .sub
def mul (a b : Num) : Except NumFault Num := binaryOp parse a b .mul

def div (a b : Num) : Except NumFault Num := do
  let rb ← toRational parse b.stripUnit
  if rb = 0 then throw (.err "division_by_zero")
  binaryOp parse a b .div

def toDec (a : Num) (scale : UInt32) (rm : RoundingMode) : Except NumFault Num :=
  match a with
  | .bnd lo hi u => do
    let lo ← toRational parse lo
    let hi ← toRational parse hi
    let lo ← roundRationalToDec lo scale .floor
    let hi ← roundRationalToDec hi scale .ceil
    if lo = hi then pure (lo.setUnit u)
    else throw (.err "bnd_too_wide: interval does not collapse to single DEC at this scale")
  | a => do
    let r ← toRational parse a
    let dec ← roundRationalToDec r scale rm
    pure (dec.setUnit a.unit)

def approximateLoop (limit : Int) :
    Nat → (p0 q0 p1 q1 : Int) → ℚ → Except NumFault (Int × Int)
  | 0, _, _, p1, q1, _ => .ok (p1, q1)
  | turns + 1, p0, q0, p1, q1, x => do
    let a ← floorDiv x.num x.den
    let p2 := a * p1 + p0
    let q2 := a * q1 + q0
    if q2 > limit then pure (p1, q1)
    else
      let frac := x - (a : ℚ)
      if frac = 0 then pure (p2, q2)
      else do
        let x ← recip frac
        approximateLoop limit turns p1 q1 p2 q2 x

def approximateRational (r : ℚ) (limitDen : UInt64) : Except NumFault ℚ := do
  let (p, q) ← approximateLoop limitDen.toNat r.den 0 1 1 0 r
  bigRational p q

def toRat (a : Num) (limitDen : UInt64) : Except NumFault Num := do
  let r ← toRational parse a
  if r.den > limitDen.toNat then do
    let approx ← approximateRational r limitDen
    pure (.rat (toString approx.num) (toString approx.den) a.unit)
  else pure (.rat (toString r.num) (toString r.den) a.unit)

def compare (a b : Num) : Except NumFault Num := do
  let _ ← checkUnits a b
  if a.rank = 3 ∨ b.rank = 3 then do
    let a ← bndBounds parse a
    let b ← bndBounds parse b
    if a.2 < b.1 then pure (.int "-1" none)
    else if a.1 > b.2 then pure (.int "1" none)
    else do
      let aMid ← ratDiv (a.1 + a.2) 2
      let bMid ← ratDiv (b.1 + b.2) 2
      pure (orderingNum aMid bMid)
  else do
    let ra ← toRational parse a.stripUnit
    let rb ← toRational parse b.stripUnit
    pure (orderingNum ra rb)

end

section Operations

variable {parse : String → Except String Int} {a b : Num}

theorem toRational_eq (a : Num) : toRational parse a = (Unc1.toRational parse a).mapError .err := by
  cases a with
  | int v u =>
    rw [toRational, Unc1.toRational, mapError_bind]
    rfl
  | dec m s u =>
    have hpow (i : ℤ) : bigRational i (10 ^ s.toNat) = .ok (mkRat i (10 ^ s.toNat)) := by
      rw [bigRational_eq (pow_ne_zero _ (by decide)), mkRat_pow]
      push_cast
      rfl
    simp only [toRational, Unc1.toRational, mapError_bind, hpow]
    rfl
  | rat p q u =>
    simp only [toRational, Unc1.toRational, mapError_bind]
    refine bind_congr fun num => bind_congr fun den => ?_
    split_ifs with hden
    · rfl
    · rw [bigRational_eq hden]
      rfl
  | bnd lo hi u => rfl

theorem bndBounds_eq (a : Num) : bndBounds parse a = (Unc1.bndBounds parse a).mapError .err := by
  cases a <;> simp only [bndBounds, Unc1.bndBounds, toRational_eq, mapError_bind] <;> rfl

theorem corners_eq {op : ℚ → ℚ → Except NumFault ℚ} {f : ℚ → ℚ → ℚ} {A B : ℚ × ℚ}
    (h : ∀ x y, y = B.1 ∨ y = B.2 → op x y = .ok (f x y)) :
    corners op A B = .ok (Unc1.corners f A B) := by
  simp only [corners, h _ _ (.inl rfl), h _ _ (.inr rfl), bind_ok]
  rfl

/-- On intervals only a division can panic, and not by a point. -/
theorem bndBinaryOp_eq {u : Option String} {op : IntervalOp} (hdiv : op = .div → b.rank ≠ 3) :
    bndBinaryOp parse a b u op = (Unc1.bndBinaryOp parse a b u op).mapError .err := by
  simp only [bndBinaryOp, Unc1.bndBinaryOp, bndBounds_eq, mapError_bind, roundRationalToDec_eq]
  cases hA : Unc1.bndBounds parse a with
  | error e => rfl
  | ok A =>
    cases hB : Unc1.bndBounds parse b with
    | error e => rfl
    | ok B =>
      simp only [mapError_ok, bind_ok]
      cases op with
      | add => rfl
      | sub => rfl
      | mul =>
        have hcorners : corners (apply .mul) A B = .ok (Unc1.corners (· * ·) A B) :=
          corners_eq fun _ _ _ => rfl
        simp only [hcorners]
        rfl
      | div =>
        rw [bndBounds_point (hdiv rfl)] at hB
        obtain ⟨y, -, hy⟩ := bind_eq_ok.mp hB
        obtain rfl := Except.ok.inj hy
        dsimp only
        split_ifs with hguard
        · rfl
        · have hne : y ≠ 0 := fun h => hguard ⟨h.le, h.ge⟩
          have hcorners : corners (apply .div) A (y, y) = .ok (Unc1.corners (· / ·) A (y, y)) :=
            corners_eq fun x z hz => ratDiv_eq (by rcases hz with rfl | rfl <;> exact hne)
          simp only [hcorners]
          rfl

theorem binaryOp_eq {op : IntervalOp}
    (hdiv : op = .div → ∃ y, Unc1.toRational parse b = .ok y ∧ y ≠ 0) :
    binaryOp parse a b op = (Unc1.binaryOp parse a b op).mapError .err := by
  simp only [binaryOp, Unc1.binaryOp, checkUnits, mapError_bind]
  refine bind_congr fun u => ?_
  split_ifs with hbnd
  · refine bndBinaryOp_eq fun hop => ?_
    obtain ⟨y, hy, -⟩ := hdiv hop
    exact toRational_bnd hy
  · simp only [toRational_eq, toRational_stripUnit, mapError_bind]
    refine bind_congr fun x => ?_
    cases hb : Unc1.toRational parse b with
    | error e => rfl
    | ok y =>
      have happly : apply op x y = .ok (op.apply x y) := by
        cases op with
        | div =>
          obtain ⟨y', hy', hne⟩ := hdiv rfl
          obtain rfl := Except.ok.inj (hb.symm.trans hy')
          exact ratDiv_eq hne
        | _ => rfl
      have hrank : max a.rank b.rank < 3 := by
        rw [not_or] at hbnd
        have ha : a.rank ≤ 3 := by cases a <;> simp [Num.rank]
        have hb : b.rank ≤ 3 := by cases b <;> simp [Num.rank]
        omega
      simp only [mapError_ok, bind_ok, happly, roundRationalToDec_eq]
      -- the branch that is `unreachable!()`
      generalize max a.rank b.rank = rank at hrank ⊢
      obtain rfl | rfl | rfl : rank = 0 ∨ rank = 1 ∨ rank = 2 := by omega
      · rfl
      · rfl
      · rfl

theorem add_eq : add parse a b = (Unc1.add parse a b).mapError .err := binaryOp_eq nofun

theorem sub_eq : sub parse a b = (Unc1.sub parse a b).mapError .err := binaryOp_eq nofun

theorem mul_eq : mul parse a b = (Unc1.mul parse a b).mapError .err := binaryOp_eq nofun

/-- The check on the divisor comes first. -/
theorem div_eq : div parse a b = (Unc1.div parse a b).mapError .err := by
  simp only [div, Unc1.div, toRational_eq, toRational_stripUnit, mapError_bind]
  cases hb : Unc1.toRational parse b with
  | error e => rfl
  | ok y =>
    simp only [mapError_ok, bind_ok]
    split_ifs with hzero
    · rfl
    · exact binaryOp_eq fun _ => ⟨y, hb, hzero⟩

theorem toDec_eq (scale : UInt32) (rm : RoundingMode) :
    toDec parse a scale rm = (Unc1.toDec parse a scale rm).mapError .err := by
  cases a with
  | bnd lo hi u =>
    simp only [toDec, Unc1.toDec, toRational_eq, roundRationalToDec_eq, mapError_bind, bind_ok]
    refine bind_congr fun lo => bind_congr fun hi => ?_
    split_ifs <;> rfl
  | _ =>
    simp only [toDec, Unc1.toDec, toRational_eq, roundRationalToDec_eq, mapError_bind, bind_ok]
    rfl

theorem compare_eq : compare parse a b = (Unc1.compare parse a b).mapError .err := by
  simp only [compare, Unc1.compare, checkUnits, mapError_bind]
  refine bind_congr fun u => ?_
  split_ifs with hbnd
  · simp only [bndBounds_eq, mapError_bind, ratDiv_eq two_ne_zero, bind_ok]
    refine bind_congr fun A => bind_congr fun B => ?_
    split_ifs <;> rfl
  · simp only [toRational_eq, mapError_bind]
    rfl

/-! ## Approximation -/

variable {r x : ℚ} {limit p0 q0 p1 q1 : ℤ} {turns : ℕ} {limitDen : UInt64}

/-- What is inverted is not zero. -/
theorem approximateLoop_eq : approximateLoop limit turns p0 q0 p1 q1 x =
    .ok (Unc1.approximateLoop limit turns p0 q0 p1 q1 x) := by
  induction turns generalizing p0 q0 p1 q1 x with
  | zero => rfl
  | succ turns ih =>
    have hden : (x.den : ℤ) ≠ 0 := by exact_mod_cast x.den_ne_zero
    simp only [approximateLoop, Unc1.approximateLoop, floorDiv_eq hden, bind_ok]
    split_ifs with hover hzero
    · rfl
    · rfl
    · rw [recip_eq hzero, bind_ok, ih]

theorem approximateRational_eq :
    approximateRational r limitDen = Unc1.approximateRational r limitDen := by
  rw [approximateRational, approximateLoop_eq]
  rfl

theorem toRat_eq : toRat parse a limitDen = Unc1.toRat parse a limitDen := by
  rw [toRat, Unc1.toRat, toRational_eq]
  cases Unc1.toRational parse a with
  | error e => rfl
  | ok r =>
    simp only [mapError_ok, bind_ok, approximateRational_eq]
    split_ifs
    · cases Unc1.approximateRational r limitDen <;> rfl
    · rfl

/-- The first convergent is over the limit, so the ratio is still `1 / 0`. -/
theorem approximateRational_zero (r : ℚ) : Unc1.approximateRational r 0 = .error .panic := by
  obtain ⟨turns, hturns⟩ : ∃ n, r.den = n + 1 := ⟨r.den - 1, by have := r.pos; omega⟩
  have hlimit : ((0 : UInt64).toNat : ℤ) = 0 := rfl
  rw [Unc1.approximateRational, hturns, hlimit, approximateLoop_succ]
  norm_num

theorem toRat_panics_iff : Unc1.toRat parse a limitDen = .error .panic ↔
    limitDen = 0 ∧ ∃ r, Unc1.toRational parse a = .ok r := by
  cases ha : Unc1.toRational parse a with
  | error e => simp [Unc1.toRat, ha]
  | ok r =>
    rw [toRat_of_value ha]
    by_cases hzero : limitDen = 0
    · have hden : r.den > (0 : UInt64).toNat := r.pos
      rw [hzero, if_pos hden, approximateRational_zero]
      simp [Except.map]
    · have hpos : 0 < limitDen := UInt64.pos_iff_ne_zero.mpr hzero
      obtain ⟨p, q, -, happrox, -⟩ := @Unc1.approximateRational_eq r limitDen hpos
      rw [happrox]
      split_ifs <;> simp [hzero, Except.map]

end Operations

end Ubl.Unc1.Checked
