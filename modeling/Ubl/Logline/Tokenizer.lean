import Ubl.Logline.Token

/-!
# `tokenizer.rs`

The state is the input that has not been read and a `Cursor`, which counts what has.  A token
depends on the cursor in two ways only: whether a line has just begun, and through the column
arithmetic of a tab, which counts four columns but one character.
-/

namespace Ubl.Logline

open Knock (isWhitespace)

/-- What the tokenizer counts while it reads. -/
structure Cursor where
  position : Nat
  line : Nat
  column : Nat
  atLineStart : Bool
deriving DecidableEq

namespace Cursor

def here (cur : Cursor) : Position := ⟨cur.line, cur.column, cur.position⟩

/-- The cursor behind one more character. -/
def advance (cur : Cursor) (ch : Char) : Cursor :=
  if ch = '\n' then ⟨cur.position + 1, cur.line + 1, 1, true⟩
  else ⟨cur.position + 1, cur.line, cur.column + 1, cur.atLineStart && isWhitespace ch⟩

/-- The cursor behind `cs`. -/
def advanceAll (cur : Cursor) (cs : List Char) : Cursor := cs.foldl advance cur

end Cursor

structure Tokenizer where
  rest : List Char
  cursor : Cursor
deriving DecidableEq

namespace Tokenizer

def new (input : String) : Tokenizer := ⟨input.toList, ⟨0, 1, 1, true⟩⟩

/-- The characters up to the first that fails `p`, read one after the other. -/
def readWhile (p : Char → Bool) (t : Tokenizer) : List Char × Tokenizer :=
  let cs := t.rest.takeWhile p
  (cs, ⟨t.rest.dropWhile p, t.cursor.advanceAll cs⟩)

def skipWhitespaceExceptNewline (t : Tokenizer) : Tokenizer :=
  (t.readWhile fun ch => ch = ' ' || ch = '\t' || ch = '\r').2

/-- The columns of leading blanks: a tab is four. -/
def countIndent (t : Tokenizer) : Nat × Tokenizer :=
  let (blanks, t) := t.readWhile fun ch => ch = ' ' || ch = '\t'
  ((blanks.map fun ch => if ch = ' ' then 1 else 4).sum, t)

end Tokenizer

section Std

variable (std : RustStd)

/-- `a - b` on `usize`. -/
def usizeSub (a b : Nat) : Except Halt Nat :=
  if b ≤ a then .ok (a - b)
  else if std.overflowChecks then .error .panic
  else .ok (a + 2 ^ 64 - b)

def isIdentifierChar (ch : Char) : Bool := std.isAlphanumeric ch || ch = '_' || ch = '-'

/-- Digits and the first point that has a digit behind it: what is taken and what is left. -/
def numberTail : (hasDot : Bool) → List Char → List Char × List Char
  | _, [] => ([], [])
  | hasDot, ch :: rest =>
    if std.isNumeric ch then
      let (cs, rest) := numberTail hasDot rest
      (ch :: cs, rest)
    else if ch = '.' && !hasDot && rest.head?.any std.isNumeric then
      let (cs, rest) := numberTail true rest
      (ch :: cs, rest)
    else ([], ch :: rest)

/-- The characters of a number, a minus sign first. -/
def numberChars : List Char → List Char × List Char
  | '-' :: rest =>
    let (cs, rest) := numberTail std false rest
    ('-' :: cs, rest)
  | rest => numberTail std false rest

theorem numberChars_cons {ch : Char} (hch : ch ≠ '-') (rest : List Char) :
    numberChars std (ch :: rest) = numberTail std false (ch :: rest) := by
  unfold numberChars
  split
  · next heq => exact absurd (List.cons.inj heq).1 hch
  · rfl

def readNumber (start : Position) (t : Tokenizer) : Except Halt (F64 × Tokenizer) :=
  let (cs, rest) := numberChars std t.rest
  let cursor := t.cursor.advanceAll cs
  match std.parseF64 (String.ofList cs) with
  | some n => .ok (n, ⟨rest, cursor⟩)
  | none => .error (.error (.invalidNumber ⟨start, cursor.here⟩))

/-- The character that an escape stands for. -/
def unescape : Char → Option Char
  | 'n' => some '\n'
  | 't' => some '\t'
  | 'r' => some '\r'
  | '"' => some '"'
  | '\\' => some '\\'
  | _ => none

/-- A string behind its opening quote. -/
def readStringBody (start : Position) : List Char → Cursor → Except Halt (List Char × Tokenizer)
  | [], cur => .error (.error (.unterminatedString ⟨start, cur.here⟩))
  | '"' :: rest, cur => .ok ([], ⟨rest, cur.advance '"'⟩)
  | ['\\'], cur => .error (.error (.unterminatedString ⟨start, (cur.advance '\\').here⟩))
  | '\\' :: esc :: rest, cur =>
    match unescape esc with
    | none => .error (.error (.invalidEscape (cur.advance '\\').here))
    | some ch => do
      let (cs, t) ← readStringBody start rest ((cur.advance '\\').advance esc)
      .ok (ch :: cs, t)
  | '\n' :: _, cur => .error (.error (.unterminatedString ⟨start, cur.here⟩))
  | ch :: rest, cur => do
    let (cs, t) ← readStringBody start rest (cur.advance ch)
    .ok (ch :: cs, t)

/-- `read_string`, at the opening quote. -/
def readString (start : Position) (t : Tokenizer) : Except Halt (List Char × Tokenizer) :=
  readStringBody start t.rest.tail (t.cursor.advanceAll (t.rest.take 1))

/-- `str::trim`. -/
def trim (cs : List Char) : List Char :=
  ((cs.dropWhile isWhitespace).reverse.dropWhile isWhitespace).reverse

/-- Where an unquoted value stops. -/
def isDelimiter (ch : Char) : Bool :=
  ch = '\n' || ch = '{' || ch = '}' || ch = '[' || ch = ']' || ch = ','

def readUnquotedValue (t : Tokenizer) : List Char × Tokenizer :=
  let (cs, t) := t.readWhile fun ch => !isDelimiter ch
  (trim cs, t)

/-- The tokens of one character. -/
def punctuation : Char → Option TokenKind
  | '\n' => some .newline
  | ':' => some .colon
  | '{' => some .leftBrace
  | '}' => some .rightBrace
  | '[' => some .leftBracket
  | ']' => some .rightBracket
  | ',' => some .comma
  | _ => none

/-- An identifier or one of the three words. -/
def wordKind (ident : String) : TokenKind :=
  match std.strToUppercase ident with
  | "END" => .endMarker
  | "TRUE" => .boolean true
  | "FALSE" => .boolean false
  | _ => .identifier ident

def startsNumber : List Char → Bool
  | ch :: rest => std.isNumeric ch || ch = '-' && rest.head?.any std.isNumeric
  | [] => false

def startsWord (ch : Char) : Bool := std.isAlphabetic ch || ch = '_'

/-- The token whose first character is the next one. -/
def readToken (t : Tokenizer) : Except Halt (Token × Tokenizer) :=
  let start := t.cursor.here
  match t.rest with
  | [] => .ok (⟨.eof, Span.single start⟩, t)
  | ch :: rest =>
    match punctuation ch with
    | some kind =>
      let t := ⟨rest, t.cursor.advance ch⟩
      .ok (⟨kind, start, t.cursor.here⟩, t)
    | none =>
      if ch = '"' then do
        let (value, t) ← readString start t
        .ok (⟨.string (String.ofList value), start, t.cursor.here⟩, t)
      else if startsNumber std t.rest then do
        let (value, t) ← readNumber std start t
        .ok (⟨.number value, start, t.cursor.here⟩, t)
      else if startsWord std ch then
        let (ident, t) := t.readWhile (isIdentifierChar std)
        .ok (⟨wordKind std (String.ofList ident), start, t.cursor.here⟩, t)
      else
        match readUnquotedValue t with
        | ([], t) => .error (.error (.invalidCharacter (t.rest.head?.getD '\x00') start))
        | (value, t) => .ok (⟨.string (String.ofList value), start, t.cursor.here⟩, t)

/-- `next_token` behind the indentation. -/
def nextInLine (t : Tokenizer) : Except Halt (Token × Tokenizer) :=
  readToken std t.skipWhitespaceExceptNewline

def nextToken (t : Tokenizer) : Except Halt (Token × Tokenizer) :=
  if t.cursor.atLineStart then
    let (indent, t) := t.countIndent
    match t.rest with
    | [] => nextInLine std t
    | ch :: _ =>
      if ch = '\n' then nextInLine std t
      else
        let t := { t with cursor := { t.cursor with atLineStart := false } }
        if 0 < indent then do
          let offset ← usizeSub std t.cursor.position indent
          .ok (⟨.indent indent, ⟨t.cursor.line, 1, offset⟩, t.cursor.here⟩, t)
        else nextInLine std t
  else nextInLine std t

def tokenize : Nat → Tokenizer → Except Halt (List Token)
  | 0, _ => .error .spent
  | fuel + 1, t => do
    let (token, t) ← nextToken std t
    if token.kind = .eof then .ok [token]
    else
      let tokens ← tokenize fuel t
      .ok (token :: tokens)

end Std

end Ubl.Logline
