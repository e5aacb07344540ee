import Ubl.Unc1.Num

/-!
# `ubl_unc1`: arithmetic on numbers

The operations behind the numeric opcodes of the VM.  Two numbers meet at their rational
values; the kind of the result is that of the higher operand, and with an interval on
either side the result is an interval rounded outwards to 18 decimals.  `BigInt::from_str`
is the parameter `parse`.
-/

namespace Ubl.Unc1

/-- How an operation ends when it does not return `Ok`. -/
inductive NumFault where
  | err (msg : String)
  | panic
deriving DecidableEq

namespace Num

def unit : Num → Option String
  | .int _ u => u
  | .dec _ _ u => u
  | .rat _ _ u => u
  | .bnd _ _ u => u

def setUnit (u : Option String) : Num → Num
  | .int v _ => .int v u
  | .dec m s _ => .dec m s u
  | .rat p q _ => .rat p q u
  | .bnd lo hi _ => .bnd lo hi u

def stripUnit : Num → Num
  | .int v _ => .int v none
  | .dec m s _ => .dec m s none
  | .rat p q _ => .rat p q none
  | .bnd lo hi _ => .bnd lo.stripUnit hi.stripUnit none

/-- Promotion rank: INT=0, DEC=1, RAT=2, BND=3. -/
def rank : Num → Nat
  | .int _ _ => 0
  | .dec _ _ _ => 1
  | .rat _ _ _ => 2
  | .bnd _ _ _ => 3

def withUnit (n : Num) (unit : String) : Except String Num :=
  match n.unit with
  | some old => if old ≠ unit then .error "unit_mismatch" else .ok (n.setUnit (some unit))
  | none => .ok (n.setUnit (some unit))

def assertUnit (n : Num) (unit : String) : Except String Unit :=
  match n.unit with
  | some x => if x ≠ unit then .error "unit_mismatch" else .ok ()
  | none => .error "unit_missing"

/-- The scale of a decimal, zero for the other kinds. -/
def decScale : Num → UInt32
  | .dec _ s _ => s
  | _ => 0

end Num

def RoundingMode.fromU8 (v : UInt8) : Except String RoundingMode :=
  if v = 0 then .ok .halfEven
  else if v = 1 then .ok .down
  else if v = 2 then .ok .up
  else if v = 3 then .ok .halfUp
  else if v = 4 then .ok .floor
  else if v = 5 then .ok .ceil
  else .error ("invalid rounding mode: " ++ toString v.toNat)

/-- The pieces between the dots. -/
def splitDots : List Char → List (List Char)
  | [] => [[]]
  | c :: cs =>
    match splitDots cs with
    | [] => [[c]]
    | part :: parts => if c = '.' then [] :: part :: parts else (c :: part) :: parts

def fromDecimalStr (s : String) : Except String Num :=
  let neg := s.toList.head? == some '-'
  let t := if neg then s.toList.drop 1 else s.toList
  let sign := if neg then "-" else ""
  if t.isEmpty || t.all (fun c => c == '.' || c == '-') then .error "invalid_decimal"
  else
    match splitDots t with
    | [whole] => .ok (.dec (sign ++ String.ofList whole) 0 none)
    | [whole, frac] =>
      .ok (.dec (sign ++ String.ofList (whole ++ frac))
        (UInt32.ofNat (String.ofList frac).utf8ByteSize) none)
    | _ => .error "invalid_decimal"

section

variable (parse : String → Except String Int)

def parseBigint (s : String) : Except String Int :=
  match parse s with
  | .ok i => .ok i
  | .error e => .error ("invalid bigint '" ++ s ++ "': " ++ e)

def toRational : Num → Except String ℚ
  | .int v _ => do
    let i ← parseBigint parse v
    pure (i : ℚ)
  | .dec m s _ => do
    let mantissa ← parseBigint parse m
    pure (mkRat mantissa (10 ^ s.toNat))
  | .rat p q _ => do
    let num ← parseBigint parse p
    let den ← parseBigint parse q
    if den = 0 then throw "division_by_zero"
    pure ((num : ℚ) / (den : ℚ))
  | .bnd _ _ _ => .error "cannot convert BND to single rational"

def rationalToReducedRat (r : ℚ) : Num := .rat (toString r.num) (toString r.den) none

/-- An integer value as INT, any other as RAT. -/
def rationalToInt (r : ℚ) : Num :=
  if r.den = 1 then .int (toString r.num) none else rationalToReducedRat r

def checkUnits (a b : Num) : Except String (Option String) :=
  match a.unit, b.unit with
  | none, none => .ok none
  | some x, none => .ok (some x)
  | none, some x => .ok (some x)
  | some x, some y =>
    if x = y then .ok (some x) else .error ("unit_mismatch: " ++ x ++ " vs " ++ y)

def bndBounds : Num → Except String (ℚ × ℚ)
  | .bnd lo hi _ => do
    let lo ← toRational parse lo
    let hi ← toRational parse hi
    pure (lo, hi)
  | n => do
    let r ← toRational parse n
    pure (r, r)

inductive IntervalOp where
  | add
  | sub
  | mul
  | div
deriving DecidableEq

def IntervalOp.apply : IntervalOp → ℚ → ℚ → ℚ
  | .add, x, y => x + y
  | .sub, x, y => x - y
  | .mul, x, y => x * y
  | .div, x, y => x / y

/-- The least and the greatest of the four corner values. -/
def corners (op : ℚ → ℚ → ℚ) (a b : ℚ × ℚ) : ℚ × ℚ :=
  let ll := op a.1 b.1
  let lh := op a.1 b.2
  let hl := op a.2 b.1
  let hh := op a.2 b.2
  (min (min ll lh) (min hl hh), max (max ll lh) (max hl hh))

def bndBinaryOp (a b : Num) (resultUnit : Option String) (op : IntervalOp) :
    Except String Num := do
  let a ← bndBounds parse a
  let b ← bndBounds parse b
  let bounds ←
    match op with
    | .add => .ok (a.1 + b.1, a.2 + b.2)
    | .sub => .ok (a.1 - b.2, a.2 - b.1)
    | .mul => .ok (corners (· * ·) a b)
    | .div =>
      if b.1 ≤ 0 ∧ b.2 ≥ 0 then .error "division_by_zero" else .ok (corners (· / ·) a b)
  pure (.bnd (roundRationalToDec bounds.1 18 .floor) (roundRationalToDec bounds.2 18 .ceil)
    resultUnit)

def binaryOp (a b : Num) (op : IntervalOp) : Except String Num := do
  let resultUnit ← checkUnits a b
  if a.rank = 3 ∨ b.rank = 3 then bndBinaryOp parse a b resultUnit op
  else do
    let ra ← toRational parse a.stripUnit
    let rb ← toRational parse b.stripUnit
    let result := op.apply ra rb
    let num :=
      match max a.rank b.rank with
      | 0 => rationalToInt result
      | 1 => roundRationalToDec result (max a.decScale b.decScale) .halfEven
      | _ => rationalToReducedRat result
    pure (num.setUnit resultUnit)

def add (a b : Num) : Except String Num := binaryOp parse a b .add
def sub (a b : Num) : Except String Num := binaryOp parse a b .sub
def mul (a b : Num) : Except String Num := binaryOp parse a b .mul

def div (a b : Num) : Except String Num := do
  let rb ← toRational parse b.stripUnit
  if rb = 0 then throw "division_by_zero"
  binaryOp parse a b .div

def toDec (a : Num) (scale : UInt32) (rm : RoundingMode) : Except String Num :=
  match a with
  | .bnd lo hi u => do
    let lo ← toRational parse lo
    let hi ← toRational parse hi
    let lo := roundRationalToDec lo scale .floor
    let hi := roundRationalToDec hi scale .ceil
    if lo = hi then pure (lo.setUnit u)
    else throw "bnd_too_wide: interval does not collapse to single DEC at this scale"
  | a => do
    let r ← toRational parse a
    pure ((roundRationalToDec r scale rm).setUnit a.unit)

/-- The loop of `approximate_rational`; the denominator of `x` falls at every turn, which
bounds the turns by the first argument. -/
def approximateLoop (limit : Int) : Nat → (p0 q0 p1 q1 : Int) → ℚ → Int × Int
  | 0, _, _, p1, q1, _ => (p1, q1)
  | turns + 1, p0, q0, p1, q1, x =>
    let a := floorDiv x.num x.den
    let p2 := a * p1 + p0
    let q2 := a * q1 + q0
    if q2 > limit then (p1, q1)
    else
      let frac := x - (a : ℚ)
      if frac = 0 then (p2, q2) else approximateLoop limit turns p1 q1 p2 q2 frac⁻¹

def approximateRational (r : ℚ) (limitDen : UInt64) : Except NumFault ℚ :=
  let (p, q) := approximateLoop limitDen.toNat r.den 0 1 1 0 r
  -- `BigRational::new` panics on a zero denominator
  if q = 0 then .error .panic else .ok ((p : ℚ) / (q : ℚ))

def toRat (a : Num) (limitDen : UInt64) : Except NumFault Num :=
  match toRational parse a with
  | .error e => .error (.err e)
  | .ok r =>
    if r.den > limitDen.toNat then
      match approximateRational r limitDen with
      | .error f => .error f
      | .ok approx => .ok (.rat (toString approx.num) (toString approx.den) a.unit)
    else .ok (.rat (toString r.num) (toString r.den) a.unit)

def orderingNum (x y : ℚ) : Num :=
  .int (if x < y then "-1" else if x = y then "0" else "1") none

def compare (a b : Num) : Except String Num := do
  let _ ← checkUnits a b
  if a.rank = 3 ∨ b.rank = 3 then do
    let a ← bndBounds parse a
    let b ← bndBounds parse b
    if a.2 < b.1 then pure (.int "-1" none)
    else if a.1 > b.2 then pure (.int "1" none)
    else pure (orderingNum ((a.1 + a.2) / 2) ((b.1 + b.2) / 2))
  else do
    let ra ← toRational parse a.stripUnit
    let rb ← toRational parse b.stripUnit
    pure (orderingNum ra rb)

end

end Ubl.Unc1
