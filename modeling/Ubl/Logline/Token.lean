import Ubl.Knock.Stage
import Ubl.Unc1.Num

/-!
# `logline`: tokens, values and errors

`token.rs`, `ast.rs`, `position.rs` and what `error.rs` holds of the errors that are returned.
An `f64` is given by its bits.  The Unicode tables and the conversions between `f64` and text
are those of Rust's standard library, `RustStd`.

A computation of the crate can go on for ever, so each of its loops takes fuel, and a run that
has used it up is `Halt.spent`.
-/

namespace Ubl.Logline

/-- The bits of an `f64`. -/
abbrev F64 := UInt64

namespace F64

/-- `==`: the two zeros are equal and NaN is not equal to itself. -/
def eq (a b : F64) : Bool :=
  if f64IsFinite a && f64IsFinite b then Unc1.exactF64Rational a = Unc1.exactF64Rational b
  else a = b && a &&& 0x000FFFFFFFFFFFFF = 0

/-- `n as i64` where `n.fract() == 0.0`, `n >= i64::MIN as f64` and `n <= i64::MAX as f64`; the
cast saturates. -/
def asI64 (n : F64) : Option Int :=
  let q := Unc1.exactF64Rational n
  if f64IsFinite n && q.den = 1 && -2 ^ 63 ≤ q.num && q.num ≤ 2 ^ 63 then
    some (min q.num (2 ^ 63 - 1))
  else none

end F64

/-- ASCII digits, at least one. -/
def Digits (cs : List Char) : Prop := cs ≠ [] ∧ ∀ c ∈ cs, c.isDigit

/-- Digits with at most one point, which has digits on both sides. -/
def Decimal (cs : List Char) : Prop :=
  Digits cs ∨ ∃ whole frac, Digits whole ∧ Digits frac ∧ cs = whole ++ '.' :: frac

/-- What the crate takes from the standard library. -/
structure RustStd where
  /-- `char::is_alphabetic`. -/
  isAlphabetic : Char → Bool
  /-- `char::is_numeric`. -/
  isNumeric : Char → Bool
  /-- `char::to_uppercase`. -/
  toUppercase : Char → List Char
  /-- `str::to_lowercase`. -/
  toLowercase : String → String
  /-- `str::parse::<f64>`. -/
  parseF64 : String → Option F64
  /-- `f64::to_string`. -/
  displayF64 : F64 → String
  /-- Whether `usize` arithmetic is checked, as in a debug build. -/
  overflowChecks : Bool
  isAlphabetic_ascii : ∀ c : Char, c.toNat < 128 → isAlphabetic c = c.isAlpha
  isNumeric_ascii : ∀ c : Char, c.toNat < 128 → isNumeric c = c.isDigit
  toUppercase_ascii : ∀ c : Char, c.toNat < 128 → toUppercase c = [c.toUpper]
  toUppercase_ne_nil : ∀ c : Char, toUppercase c ≠ []
  toLowercase_ascii : ∀ s : String, (∀ c ∈ s.toList, c.toNat < 128) →
    toLowercase s = String.ofList (s.toList.map Char.toLower)
  /-- Integers up to `2^53` in magnitude are read exactly. -/
  parseF64_int : ∀ i : Int, i.natAbs ≤ 2 ^ 53 →
    ∃ n, parseF64 (toString i) = some n ∧ f64IsFinite n ∧ Unc1.exactF64Rational n = i
  /-- `Display` writes no exponent. -/
  displayF64_form : ∀ n : F64,
    displayF64 n ∈ ["NaN", "inf", "-inf"] ∨ Decimal (displayF64 n).toList ∨
      ∃ cs, (displayF64 n).toList = '-' :: cs ∧ Decimal cs

namespace RustStd

variable (std : RustStd)

/-- `char::is_alphanumeric`. -/
def isAlphanumeric (c : Char) : Bool := std.isAlphabetic c || std.isNumeric c

/-- `str::to_uppercase`. -/
def strToUppercase (s : String) : String := String.ofList (s.toList.flatMap std.toUppercase)

end RustStd

/-! ## Positions -/

structure Position where
  line : Nat
  column : Nat
  offset : Nat
deriving DecidableEq

structure Span where
  start : Position
  stop : Position
deriving DecidableEq

namespace Span

def single (pos : Position) : Span := ⟨pos, pos⟩

/-- `Span::default()`. -/
def default : Span := single ⟨0, 0, 0⟩

end Span

/-! ## Tokens -/

inductive TokenKind where
  | identifier (s : String)
  | string (s : String)
  | number (n : F64)
  | boolean (b : Bool)
  | colon
  | comma
  | leftBrace
  | rightBrace
  | leftBracket
  | rightBracket
  | newline
  | endMarker
  | indent (n : Nat)
  | eof
deriving DecidableEq

/-- Check if this token can start a value. -/
def TokenKind.isValueStart : TokenKind → Bool
  | .string _ | .number _ | .boolean _ | .leftBrace | .leftBracket | .identifier _ => true
  | _ => false

structure Token where
  kind : TokenKind
  span : Span
deriving DecidableEq

/-- `bool::to_string`. -/
def displayBool (b : Bool) : String := if b then "true" else "false"

/-- `TokenKind`'s `Display`. -/
def TokenKind.toString (std : RustStd) : TokenKind → String
  | .identifier s => "identifier '" ++ s ++ "'"
  | .string s => "string \"" ++ s ++ "\""
  | .number n => "number " ++ std.displayF64 n
  | .boolean b => "boolean " ++ displayBool b
  | .colon => "':'"
  | .comma => "','"
  | .leftBrace => "'\x7b'"
  | .rightBrace => "'\x7d'"
  | .leftBracket => "'['"
  | .rightBracket => "']'"
  | .newline => "newline"
  | .endMarker => "END"
  | .indent n => "indent(" ++ ToString.toString n ++ ")"
  | .eof => "end of file"

/-! ## Errors -/

inductive ParseError where
  | unexpectedToken (expected found : String) (span : Span)
  | unexpectedEof (pos : Position)
  | invalidNumber (span : Span)
  | unterminatedString (span : Span)
  | invalidEscape (pos : Position)
  | invalidCharacter (ch : Char) (pos : Position)
  | missingEnd
  | emptyInput
  | invalidHeader
  | nestingTooDeep (max : Nat) (span : Span)
deriving DecidableEq

/-- How a run ends when it does not return `Ok`. -/
inductive Halt where
  | error (e : ParseError)
  | panic
  | spent
deriving DecidableEq

/-! ## Values -/

inductive LogLineValue where
  | str (s : String)
  | num (n : F64)
  | bool (b : Bool)
  | list (items : List LogLineValue)
  | object (fields : List (String × LogLineValue))

/-- A document. -/
structure LogLineSpan where
  type : String
  name : Option String
  params : List (String × LogLineValue)
  span : Option Span

mutual

/-- `PartialEq` of values. -/
def LogLineValue.eq : LogLineValue → LogLineValue → Bool
  | .str s, .str s' => s = s'
  | .num n, .num n' => F64.eq n n'
  | .bool b, .bool b' => b = b'
  | .list items, .list items' => itemsEq items items'
  | .object fields, .object fields' => fieldsEq fields fields'
  | _, _ => false

def itemsEq : List LogLineValue → List LogLineValue → Bool
  | [], [] => true
  | v :: items, v' :: items' => v.eq v' && itemsEq items items'
  | _, _ => false

def fieldsEq : List (String × LogLineValue) → List (String × LogLineValue) → Bool
  | [], [] => true
  | (k, v) :: fields, (k', v') :: fields' => k = k' && v.eq v' && fieldsEq fields fields'
  | _, _ => false

end

/-- The same type, name and params. -/
def LogLineSpan.SameContent (a b : LogLineSpan) : Prop :=
  a.type = b.type ∧ a.name = b.name ∧ fieldsEq a.params b.params

end Ubl.Logline
