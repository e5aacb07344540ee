import Ubl.Logline.Tokenizer

/-!
# `parser.rs`

The parser is recursive descent over a vector of tokens; its state is the tokens that are left.
`tail` is the end of the last token of all, which an error at the end of the input names.  Every
turn of a loop and every nested call takes one unit of fuel.
-/

namespace Ubl.Logline

def maxNestingDepth : Nat := 32

/-- `current_kind`. -/
def currentKind (tokens : List Token) : Option TokenKind := tokens.head?.map Token.kind

def isBlank : Token → Bool
  | ⟨.newline, _⟩ => true
  | ⟨.indent _, _⟩ => true
  | _ => false

/-- Newlines and indents are passed over. -/
def skipWhitespace (tokens : List Token) : List Token := tokens.dropWhile isBlank

/-- `span: self.current().map(|t| t.span).unwrap_or_default()`. -/
def currentSpan (tokens : List Token) : Span := (tokens.head?.map Token.span).getD Span.default

/-- A comma is taken where one stands. -/
def optionalComma (tokens : List Token) : List Token :=
  let tokens := skipWhitespace tokens
  match currentKind tokens with
  | some .comma => tokens.tail
  | _ => tokens

/-! ## Text without quotes -/

section Std

variable (std : RustStd)

/-- What a token adds to a text, and whether the text goes on at all. -/
def textPart : TokenKind → Option (List String)
  | .newline | .endMarker | .eof => none
  | .leftBrace | .leftBracket => none
  | .rightBrace | .rightBracket | .comma => none
  | .identifier s => some [s]
  | .string s => some [s]
  | .number n => some [std.displayF64 n]
  | .boolean b => some [displayBool b]
  | .colon => some [":"]
  | .indent _ => some []

/-- The tokens up to the end of the line or a delimiter. -/
def textParts : List Token → List String × List Token
  | [] => ([], [])
  | token :: tokens =>
    match textPart std token.kind with
    | none => ([], token :: tokens)
    | some part =>
      let (parts, rest) := textParts tokens
      (part ++ parts, rest)

/-! ## Values -/

/-- `found: self.current_kind().map(|k| k.to_string()).unwrap_or_default()`. -/
def unexpectedToken (expected : String) (tokens : List Token) : Halt :=
  .error (.unexpectedToken expected (((currentKind tokens).map (·.toString std)).getD "")
    (currentSpan tokens))

/-- The arms of `parse_value` for values that are not containers. -/
def parsePlain (tokens : List Token) : LogLineValue × List Token :=
  match currentKind tokens with
  | some (.string s) => (.str s, tokens.tail)
  | some (.number n) => (.num n, tokens.tail)
  | some (.boolean b) => (.bool b, tokens.tail)
  | some (.identifier _) =>
    let (parts, tokens) := textParts std tokens
    (.str (" ".intercalate parts), tokens)
  -- whatever else stands here is left for the caller
  | _ => (.str "", tokens)

mutual

/-- A parameter, `KEY: value`; a key alone is `true`. -/
def parseParam (tail : Position) :
    Nat → (depth : Nat) → List Token → Except Halt ((String × LogLineValue) × List Token)
  | 0, _, _ => .error .spent
  | fuel + 1, depth, tokens =>
    match currentKind tokens with
    | some (.identifier s) =>
      let key := std.toLowercase s
      let tokens := tokens.tail
      match currentKind tokens with
      | some .colon => do
        let (value, tokens) ← parseValue tail fuel depth tokens.tail
        .ok ((key, value), tokens)
      | _ => .ok ((key, .bool true), tokens)
    | _ => .error (.error .invalidHeader)
termination_by structural fuel => fuel

def parseValue (tail : Position) :
    Nat → (depth : Nat) → List Token → Except Halt (LogLineValue × List Token)
  | 0, _, _ => .error .spent
  | fuel + 1, depth, tokens =>
    if maxNestingDepth < depth then
      .error (.error (.nestingTooDeep maxNestingDepth (currentSpan tokens)))
    else
      match currentKind tokens with
      | some .leftBrace => do
        let (fields, tokens) ← parseObject tail fuel (depth + 1) tokens
        .ok (.object fields, tokens)
      | some .leftBracket => do
        let (items, tokens) ← parseArray tail fuel (depth + 1) tokens
        .ok (.list items, tokens)
      | _ => .ok (parsePlain std tokens)
termination_by structural fuel => fuel

def parseObject (tail : Position) :
    Nat → (depth : Nat) → List Token → Except Halt (List (String × LogLineValue) × List Token)
  | 0, _, _ => .error .spent
  | fuel + 1, depth, tokens =>
    match currentKind tokens with
    | some .leftBrace => objectLoop tail fuel depth tokens.tail
    | _ => .error (unexpectedToken std "'\x7b'" tokens)
termination_by structural fuel => fuel

/-- The fields up to the closing brace. -/
def objectLoop (tail : Position) :
    Nat → (depth : Nat) → List Token → Except Halt (List (String × LogLineValue) × List Token)
  | 0, _, _ => .error .spent
  | fuel + 1, depth, tokens =>
    let tokens := skipWhitespace tokens
    match currentKind tokens with
    | some .rightBrace => .ok ([], tokens.tail)
    | some .eof | none => .error (.error (.unexpectedEof tail))
    | some (.identifier _) => do
      let (field, tokens) ← parseParam tail fuel depth tokens
      let (fields, tokens) ← objectLoop tail fuel depth (optionalComma tokens)
      .ok (field :: fields, tokens)
    | _ => objectLoop tail fuel depth tokens.tail
termination_by structural fuel => fuel

def parseArray (tail : Position) :
    Nat → (depth : Nat) → List Token → Except Halt (List LogLineValue × List Token)
  | 0, _, _ => .error .spent
  | fuel + 1, depth, tokens =>
    match currentKind tokens with
    | some .leftBracket => arrayLoop tail fuel depth tokens.tail
    | _ => .error (unexpectedToken std "'['" tokens)
termination_by structural fuel => fuel

/-- The items up to the closing bracket. -/
def arrayLoop (tail : Position) :
    Nat → (depth : Nat) → List Token → Except Halt (List LogLineValue × List Token)
  | 0, _, _ => .error .spent
  | fuel + 1, depth, tokens =>
    let tokens := skipWhitespace tokens
    match currentKind tokens with
    | some .rightBracket => .ok ([], tokens.tail)
    | some .eof | none => .error (.error (.unexpectedEof tail))
    | _ => do
      let (value, tokens) ← parseValue tail fuel depth tokens
      let (items, tokens) ← arrayLoop tail fuel depth (optionalComma tokens)
      .ok (value :: items, tokens)
termination_by structural fuel => fuel

end

/-! ## Documents -/

def parseOptionalName (tokens : List Token) : Option String × List Token :=
  match currentKind tokens with
  | some (.identifier s) => (some s, tokens.tail)
  | some (.string s) => (some s, tokens.tail)
  | some (.number n) => (some (std.displayF64 n), tokens.tail)
  | _ => (none, tokens)

/-- The header line, `TYPE: name`, with the span of the type. -/
def parseHeader (tokens : List Token) :
    Except Halt ((String × Option String × Span) × List Token) :=
  match tokens with
  | ⟨.identifier s, span⟩ :: tokens =>
    match currentKind tokens with
    | some .colon =>
      let (name, tokens) := parseOptionalName std tokens.tail
      .ok ((std.toLowercase s, name, span), tokens)
    | _ => .error (.error .invalidHeader)
  | _ => .error (.error .invalidHeader)

/-- The params up to END, the end of the input or a closing brace. -/
def parseParams (tail : Position) :
    Nat → List Token → Except Halt (List (String × LogLineValue) × List Token)
  | 0, _ => .error .spent
  | fuel + 1, tokens =>
    let tokens := skipWhitespace tokens
    match currentKind tokens with
    | some .endMarker | some .eof | none => .ok ([], tokens)
    | some .rightBrace => .ok ([], tokens)
    | some (.identifier _) => do
      let (param, tokens) ← parseParam std tail fuel 0 tokens
      let (params, tokens) ← parseParams tail fuel tokens
      .ok (param :: params, tokens)
    | _ => parseParams tail fuel tokens.tail

/-- END, and the document. -/
def expectEnd (header : String × Option String × Span) (params : List (String × LogLineValue))
    (tokens : List Token) : Except Halt LogLineSpan :=
  let (type, name, startSpan) := header
  let tokens := skipWhitespace tokens
  match currentKind tokens with
  | some .endMarker =>
    let endSpan := (tokens.tail.head?.map Token.span).getD startSpan
    .ok ⟨type, name, params, some ⟨startSpan.start, endSpan.stop⟩⟩
  | _ => .error (.error .missingEnd)

/-- `Parser::parse`. -/
def parse (fuel : Nat) (tokens : List Token) : Except Halt LogLineSpan := do
  let tail := ((tokens.getLast?).map (·.span.stop)).getD ⟨0, 0, 0⟩
  let (header, tokens) ← parseHeader std (skipWhitespace tokens)
  let (params, tokens) ← parseParams std tail fuel tokens
  expectEnd header params tokens

def parseLogline (fuel : Nat) (input : String) : Except Halt LogLineSpan :=
  if trim input.toList = [] then .error (.error .emptyInput)
  else do
    let tokens ← tokenize std fuel (Tokenizer.new input)
    parse std fuel tokens

end Std

/-! ## The parser by its next token -/

section Equations

variable {std : RustStd} {tail : Position} {depth fuel : Nat} {span : Span} {tokens : List Token}

theorem parseValue_deep (h : maxNestingDepth < depth) :
    parseValue std tail (fuel + 1) depth tokens =
      .error (.error (.nestingTooDeep maxNestingDepth (currentSpan tokens))) := by
  rw [parseValue, if_pos h]

theorem parseValue_plain (h : ¬ maxNestingDepth < depth)
    (hbrace : currentKind tokens ≠ some .leftBrace)
    (hbracket : currentKind tokens ≠ some .leftBracket) :
    parseValue std tail (fuel + 1) depth tokens = .ok (parsePlain std tokens) := by
  rw [parseValue, if_neg h]
  split
  · next heq => exact absurd heq hbrace
  · next heq => exact absurd heq hbracket
  · rfl

theorem parseValue_leftBrace (h : ¬ maxNestingDepth < depth) :
    parseValue std tail (fuel + 1) depth (⟨.leftBrace, span⟩ :: tokens) =
      parseObject std tail fuel (depth + 1) (⟨.leftBrace, span⟩ :: tokens) >>=
        fun p => .ok (.object p.1, p.2) := by
  rw [parseValue, if_neg h]
  rfl

theorem parseValue_leftBracket (h : ¬ maxNestingDepth < depth) :
    parseValue std tail (fuel + 1) depth (⟨.leftBracket, span⟩ :: tokens) =
      parseArray std tail fuel (depth + 1) (⟨.leftBracket, span⟩ :: tokens) >>=
        fun p => .ok (.list p.1, p.2) := by
  rw [parseValue, if_neg h]
  rfl

theorem parseParam_colon {s : String} {span' : Span} :
    parseParam std tail (fuel + 1) depth (⟨.identifier s, span⟩ :: ⟨.colon, span'⟩ :: tokens) =
      parseValue std tail fuel depth tokens >>=
        fun p => .ok ((std.toLowercase s, p.1), p.2) := rfl

/-- A key alone. -/
theorem parseParam_bare {s : String} (h : currentKind tokens ≠ some .colon) :
    parseParam std tail (fuel + 1) depth (⟨.identifier s, span⟩ :: tokens) =
      .ok ((std.toLowercase s, .bool true), tokens) := by
  rw [parseParam]
  dsimp only [currentKind, List.head?_cons, Option.map_some, List.tail_cons] at h ⊢
  split
  · next heq => exact absurd heq h
  · rfl

theorem objectLoop_field {s : String} {ts : List Token}
    (h : skipWhitespace tokens = ⟨.identifier s, span⟩ :: ts) :
    objectLoop std tail (fuel + 1) depth tokens =
      parseParam std tail fuel depth (⟨.identifier s, span⟩ :: ts) >>= fun p =>
        objectLoop std tail fuel depth (optionalComma p.2) >>= fun q => .ok (p.1 :: q.1, q.2) := by
  rw [objectLoop, h]
  rfl

theorem objectLoop_close {ts : List Token} (h : skipWhitespace tokens = ⟨.rightBrace, span⟩ :: ts) :
    objectLoop std tail (fuel + 1) depth tokens = .ok ([], ts) := by
  rw [objectLoop, h]
  rfl

theorem arrayLoop_item {token : Token} {ts : List Token} (h : skipWhitespace tokens = token :: ts)
    (hstart : token.kind.isValueStart) :
    arrayLoop std tail (fuel + 1) depth tokens =
      parseValue std tail fuel depth (token :: ts) >>= fun p =>
        arrayLoop std tail fuel depth (optionalComma p.2) >>= fun q => .ok (p.1 :: q.1, q.2) := by
  obtain ⟨kind, span⟩ := token
  rw [arrayLoop, h]
  cases kind <;> first | rfl | cases hstart

theorem arrayLoop_close {ts : List Token} (h : skipWhitespace tokens = ⟨.rightBracket, span⟩ :: ts) :
    arrayLoop std tail (fuel + 1) depth tokens = .ok ([], ts) := by
  rw [arrayLoop, h]
  rfl

theorem parseParams_param {s : String} {ts : List Token}
    (h : skipWhitespace tokens = ⟨.identifier s, span⟩ :: ts) :
    parseParams std tail (fuel + 1) tokens =
      parseParam std tail fuel 0 (⟨.identifier s, span⟩ :: ts) >>= fun p =>
        parseParams std tail fuel p.2 >>= fun q => .ok (p.1 :: q.1, q.2) := by
  rw [parseParams, h]
  rfl

theorem parseParams_end {ts : List Token} (h : skipWhitespace tokens = ⟨.endMarker, span⟩ :: ts) :
    parseParams std tail (fuel + 1) tokens = .ok ([], ⟨.endMarker, span⟩ :: ts) := by
  rw [parseParams, h]
  rfl

end Equations

end Ubl.Logline
