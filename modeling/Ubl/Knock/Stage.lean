import Ubl.Lib.Utf8
import Ubl.Nrf.Normalize
import Ubl.Unc1.Num

/-!
# `knock.rs`: the first gate of the pipeline

`knockWithOptions` checks the raw bytes, parses them, normalises the value, imports
doubles when asked to, checks depth, array lengths, numbers and the schema of one chip
type, and at last scans the raw bytes for duplicate keys.  What stands outside the
repository is a `KnockEnv`.
-/

namespace Ubl.Knock

open AssocMap Nrf Utf8

def MAX_BODY_BYTES : Nat := 1048576
def MAX_DEPTH : Nat := 32
def MAX_ARRAY_LEN : Nat := 10000

inductive F64ImportMode where
  | reject
  | bnd
deriving DecidableEq

inductive KnockError where
  | bodyTooLarge (n : Nat)
  | depthExceeded
  | arrayTooLong (n : Nat)
  | duplicateKey (key : String)
  | invalidUtf8
  | missingAnchor (anchor : String)
  | notObject
  | rawFloat (msg : String)
  | malformedNum (msg : String)
  | numericLiteralNotAllowed (path : String)
  | inputNormalization (msg : String)
  | schemaValidation (msg : String)
deriving DecidableEq

def KnockError.text (t : Text) : KnockError → String
  | .bodyTooLarge n =>
    "KNOCK-001: body too large (" ++ toString n ++ " bytes, max " ++ toString MAX_BODY_BYTES ++ ")"
  | .depthExceeded => "KNOCK-002: nesting depth exceeds " ++ toString MAX_DEPTH
  | .arrayTooLong n =>
    "KNOCK-003: array length " ++ toString n ++ " exceeds " ++ toString MAX_ARRAY_LEN
  | .duplicateKey key => "KNOCK-004: duplicate key " ++ t.debug key
  | .invalidUtf8 => "KNOCK-005: invalid UTF-8 in body"
  | .missingAnchor anchor => "KNOCK-006: missing required anchor " ++ t.debug anchor
  | .notObject => "KNOCK-007: body is not a JSON object"
  | .rawFloat msg => "KNOCK-008: raw float in payload violates UNC-1 — use @num atoms: " ++ msg
  | .malformedNum msg => "KNOCK-009: malformed @num atom: " ++ msg
  | .numericLiteralNotAllowed path =>
    "KNOCK-010: numeric literals are disabled (set as @num atoms) at " ++ path
  | .inputNormalization msg => "KNOCK-011: input normalization failed: " ++ msg
  | .schemaValidation msg => "KNOCK-012: schema validation failed: " ++ msg

/-- How a call ends when it does not return `Ok`. -/
inductive KnockStop where
  | error (e : KnockError)
  | panic
deriving DecidableEq

/-- The functions KNOCK takes from other crates. -/
structure KnockEnv where
  text : Text
  /-- `DateTime::parse_from_rfc3339`, in UTC. -/
  chrono : String → Option UtcTime
  /-- `serde_json::from_slice::<Value>`. -/
  fromSlice : List UInt8 → Except String Json
  /-- `Display` of a `serde_json::Number`. -/
  displayNumber : Number → String

/-! ## Structural checks -/

section Walk

variable {ε : Type} (node : Nat → Json → Except ε Unit)

mutual

/-- Visit a value and everything in it, with the number of containers around it. -/
def walk (depth : Nat) : Json → Except ε Unit
  | .array arr => do
    node depth (.array arr)
    walkItems (depth + 1) arr
  | .object map => do
    node depth (.object map)
    walkMembers (depth + 1) map
  | value => node depth value

def walkItems (depth : Nat) : List Json → Except ε Unit
  | [] => .ok ()
  | v :: arr => do
    walk depth v
    walkItems depth arr

def walkMembers (depth : Nat) : List (String × Json) → Except ε Unit
  | [] => .ok ()
  | (_, v) :: map => do
    walk depth v
    walkMembers depth map

end

end Walk

def checkDepth (value : Json) (depth : Nat) : Except KnockError Unit :=
  walk (fun depth _ => if depth > MAX_DEPTH then .error .depthExceeded else .ok ()) depth value

def checkArrays (value : Json) : Except KnockError Unit :=
  walk (fun _ value =>
    match value with
    | .array arr => if arr.length > MAX_ARRAY_LEN then .error (.arrayTooLong arr.length) else .ok ()
    | _ => .ok ()) 0 value

/-! ## `@num` atoms -/

def ensureAllowedKeys (map : List (String × Json)) (allowed : List String) (path tag : String) :
    Except KnockError Unit :=
  match (keys map).find? (· ∉ allowed) with
  | some k =>
    .error (.malformedNum (path ++ " contains unknown field '" ++ k ++ "' for " ++ tag))
  | none => .ok ()

def isBigintLiteral (s : String) : Bool :=
  match s.toList with
  | [] => false
  | '-' :: digits => !digits.isEmpty && digits.all Char.isDigit
  | digits => digits.all Char.isDigit

def isZeroBigint (s : String) : Bool :=
  let digits :=
    match s.toList with
    | '-' :: digits => digits
    | digits => digits
  !digits.isEmpty && digits.all (· == '0')

def ensureBigintField (map : List (String × Json)) (field path : String) :
    Except KnockError String :=
  match (map.lookup field).bind Json.asStr with
  | none => .error (.malformedNum (path ++ "." ++ field ++ " must be bigint string"))
  | some s =>
    if isBigintLiteral s then .ok s
    else .error (.malformedNum (path ++ "." ++ field ++ " invalid bigint literal '" ++ s ++ "'"))

def ensureU32Field (map : List (String × Json)) (field path : String) : Except KnockError UInt32 :=
  match (map.lookup field).bind Json.asU64 with
  | none => .error (.malformedNum (path ++ "." ++ field ++ " must be u32"))
  | some n =>
    if n.toNat < 2 ^ 32 then .ok n.toUInt32
    else .error (.malformedNum (path ++ "." ++ field ++ " out of range for u32"))

def ensureOptionalUnit (map : List (String × Json)) (path : String) : Except KnockError Unit :=
  match map.lookup "u" with
  | some v =>
    if v.isString then .ok () else .error (.malformedNum (path ++ ".u must be string when present"))
  | none => .ok ()

theorem sizeOf_lt_of_lookup {map inner : List (String × Json)} {k : String}
    (h : map.lookup k = some (.object inner)) : sizeOf inner < sizeOf map := by
  have hmem := List.sizeOf_lt_of_mem (mem_of_lookup h)
  simp only [Prod.mk.sizeOf_spec, Json.object.sizeOf_spec] at hmem
  omega

def validateNumAtom (map : List (String × Json)) (path : String) : Except KnockError Unit :=
  match (map.lookup "@num").bind Json.asStr with
  | none => .error (.malformedNum (path ++ ".@num must be string"))
  | some tag =>
    if tag = "int/1" then do
      ensureAllowedKeys map ["@num", "v", "u"] path tag
      let _ ← ensureBigintField map "v" path
      ensureOptionalUnit map path
    else if tag = "dec/1" then do
      ensureAllowedKeys map ["@num", "m", "s", "u"] path tag
      let _ ← ensureBigintField map "m" path
      let _ ← ensureU32Field map "s" path
      ensureOptionalUnit map path
    else if tag = "rat/1" then do
      ensureAllowedKeys map ["@num", "p", "q", "u"] path tag
      let _ ← ensureBigintField map "p" path
      let q ← ensureBigintField map "q" path
      if isZeroBigint q then
        throw (.malformedNum (path ++ ".q must be non-zero for rat/1"))
      ensureOptionalUnit map path
    else if tag = "bnd/1" then do
      ensureAllowedKeys map ["@num", "lo", "hi", "u"] path tag
      match _h : map.lookup "lo" with
      | some (.object lo) =>
        match _h : map.lookup "hi" with
        | some (.object hi) => do
          validateNumAtom lo (path ++ ".lo")
          validateNumAtom hi (path ++ ".hi")
          ensureOptionalUnit map path
        | _ => throw (.malformedNum (path ++ ".hi must be object"))
      | _ => throw (.malformedNum (path ++ ".lo must be object"))
    else .error (.malformedNum (path ++ ".@num unsupported tag '" ++ tag ++ "'"))
termination_by sizeOf map
decreasing_by all_goals exact sizeOf_lt_of_lookup ‹_›

section Numbers

variable (displayNumber : Number → String) (requireUnc1 : Bool)

mutual

def checkNumericNodes : Json → String → Except KnockError Unit
  | .number n, path =>
    if n.isI64 then
      if requireUnc1 then .error (.numericLiteralNotAllowed path) else .ok ()
    else if n.isU64 then
      .error (.inputNormalization ("numeric literal out of i64 range at " ++ path))
    else .error (.rawFloat (displayNumber n ++ " at " ++ path))
  | .array arr, path => checkNumericItems path 0 arr
  | .object map, path =>
    if "@num" ∈ keys map then validateNumAtom map path else checkNumericMembers path map
  | _, _ => .ok ()

def checkNumericItems (path : String) (idx : Nat) : List Json → Except KnockError Unit
  | [] => .ok ()
  | v :: arr => do
    checkNumericNodes v (path ++ "[" ++ toString idx ++ "]")
    checkNumericItems path (idx + 1) arr

def checkNumericMembers (path : String) : List (String × Json) → Except KnockError Unit
  | [] => .ok ()
  | (k, v) :: map => do
    checkNumericNodes v (path ++ "." ++ k)
    checkNumericMembers path map

end

end Numbers

mutual

/-- Doubles outside `@num` atoms become intervals. -/
def normalizeF64ToBnd : Json → Except KnockError Json
  | .number (.float bits _) =>
    match Unc1.fromF64Bits bits with
    | .error msg => .error (.malformedNum msg)
    | .ok bnd => .ok (Unc1.toValue bnd)
  | .array arr => do
    let arr ← normalizeF64Items arr
    pure (.array arr)
  | .object map =>
    if "@num" ∈ keys map then .ok (.object map)
    else do
      let map ← normalizeF64Members map
      pure (.object map)
  | value => .ok value

def normalizeF64Items : List Json → Except KnockError (List Json)
  | [] => .ok []
  | item :: arr => do
    let item ← normalizeF64ToBnd item
    let arr ← normalizeF64Items arr
    pure (item :: arr)

def normalizeF64Members : List (String × Json) → Except KnockError (List (String × Json))
  | [] => .ok []
  | (k, item) :: map => do
    let item ← normalizeF64ToBnd item
    let map ← normalizeF64Members map
    pure ((k, item) :: map)

end

/-! ## The schema of `task.lifecycle.event.v1` -/

/-- The Unicode `White_Space` property. -/
def isWhitespace (c : Char) : Bool :=
  let n := c.toNat
  (0x09 ≤ n && n ≤ 0x0d) || n == 0x20 || n == 0x85 || n == 0xa0 || n == 0x1680 ||
    (0x2000 ≤ n && n ≤ 0x200a) || n == 0x2028 || n == 0x2029 || n == 0x202f || n == 0x205f ||
    n == 0x3000

/-- `s.trim().is_empty()`. -/
def isBlank (s : String) : Bool := s.toList.all isWhitespace

/-- The type whose schema is checked, with the prefix of its messages. -/
def taskEvent : String := "task.lifecycle.event.v1"

def schemaError (msg : String) : KnockError := .schemaValidation (taskEvent ++ ": " ++ msg)

def requiredStr (map : List (String × Json)) (field label : String) : Except KnockError String :=
  match (map.lookup field).bind Json.asStr with
  | none => .error (schemaError (label ++ " must be string"))
  | some s => .ok s

def validateRequiredNonemptyString (map : List (String × Json)) (field : String) :
    Except KnockError Unit := do
  let value ← requiredStr map field field
  if isBlank value then throw (schemaError (field ++ " must be non-empty"))

/-- The first item that is not a string or is blank, from index `idx` on. -/
def validateStrings (field : String) (idx : Nat) : List Json → Except KnockError Unit
  | [] => .ok ()
  | item :: arr => do
    match item.asStr with
    | none => throw (schemaError (field ++ "[" ++ toString idx ++ "] must be string"))
    | some s =>
      if isBlank s then throw (schemaError (field ++ "[" ++ toString idx ++ "] must be non-empty"))
    validateStrings field (idx + 1) arr

def validateArrayOfStrings (map : List (String × Json)) (field : String) :
    Except KnockError Nat := do
  match (map.lookup field).bind Json.asArray with
  | none => throw (schemaError (field ++ " must be array"))
  | some arr =>
    validateStrings field 0 arr
    pure arr.length

def validateTypeSpecificSchema (t : Text) (value : Json) : Except KnockError Unit :=
  match value.asObject with
  | none => .error .notObject
  | some obj =>
    match (obj.lookup "@type").bind Json.asStr with
    | none => .error (.missingAnchor "@type")
    | some chipType =>
      if chipType ≠ taskEvent then .ok ()
      else do
        validateRequiredNonemptyString obj "@id"
        validateRequiredNonemptyString obj "@ver"
        validateRequiredNonemptyString obj "task_id"
        validateRequiredNonemptyString obj "track"
        validateRequiredNonemptyString obj "title"
        let state ← requiredStr obj "state" "state"
        if state ∉ ["open", "blocked", "in_progress", "done", "canceled"] then
          throw (schemaError ("invalid state " ++ t.debug state))
        let _ ← validateArrayOfStrings obj "depends_on"
        let evidenceLen ← validateArrayOfStrings obj "evidence"
        if state = "blocked" then validateRequiredNonemptyString obj "blocker_code"
        if state = "done" ∧ evidenceLen = 0 then
          throw (schemaError "done state requires at least one evidence item")
        match (obj.lookup "actor").bind Json.asObject with
        | none => throw (schemaError "actor must be object")
        | some actor =>
          validateRequiredNonemptyString actor "did"
          let role ← requiredStr actor "role" "actor.role"
          if role ∉ ["personal", "platform", "operator", "noc"] then
            throw (schemaError ("invalid actor.role " ++ t.debug role))

/-! ## Duplicate keys in the raw bytes -/

/-- The bytes of a string up to its closing quote and what follows them, the quote first;
`none` when a backslash is the last byte, where the source's index runs past the end. -/
def takeKey : List UInt8 → Option (List UInt8 × List UInt8)
  | [] => some ([], [])
  | [b] => if b = 0x5c then none else if b = 0x22 then some ([], [b]) else some ([b], [])
  | b :: c :: rest =>
    if b = 0x5c then (takeKey rest).map fun (key, rest) => (b :: c :: key, rest)
    else if b = 0x22 then some ([], b :: c :: rest)
    else (takeKey (c :: rest)).map fun (key, rest) => (b :: key, rest)

/-- `u8::is_ascii_whitespace`. -/
def isAsciiWhitespace (b : UInt8) : Bool :=
  b == 0x20 || b == 0x09 || b == 0x0a || b == 0x0c || b == 0x0d

/-- The next byte that is not white space is a colon. -/
def colonFollows (bytes : List UInt8) : Bool :=
  (bytes.dropWhile isAsciiWhitespace).head? == some 0x3a

theorem length_takeKey {bytes key rest : List UInt8} (h : takeKey bytes = some (key, rest)) :
    rest.length ≤ bytes.length := by
  fun_induction takeKey bytes generalizing key rest with
  | case2 => cases h
  | case5 c tail ih =>
    obtain ⟨⟨k, r⟩, hk, heq⟩ := Option.map_eq_some_iff.mp h
    obtain ⟨-, rfl⟩ := Prod.mk.inj heq
    have hle := ih hk
    simp only [List.length_cons]
    omega
  | case7 b c tail _ _ ih =>
    obtain ⟨⟨k, r⟩, hk, heq⟩ := Option.map_eq_some_iff.mp h
    obtain ⟨-, rfl⟩ := Prod.mk.inj heq
    exact le_trans (ih hk) (Nat.le_succ _)
  | _ =>
    obtain ⟨-, rfl⟩ := Prod.mk.inj (Option.some.inj h)
    simp

/-- The inner loop of `scan_object_keys`: from after an opening brace to the brace that
closes it, or to the end.  The bytes left start with that brace. -/
def scanObject (keys : List (List UInt8)) (depth : Nat) (inString escape : Bool)
    (bytes : List UInt8) : Except KnockStop (List UInt8) :=
  match bytes with
  | [] => .ok []
  | b :: rest =>
    if escape then scanObject keys depth inString false rest
    else if b = 0x5c ∧ inString then scanObject keys depth inString true rest
    else if b = 0x22 then
      if inString = false ∧ depth = 0 then
        match _hkey : takeKey rest with
        | none => .error .panic
        | some (key, after) =>
          if key ≠ [] ∧ colonFollows (after.drop 1) then
            if key ∈ keys then .error (.error (.duplicateKey ((fromUtf8 key).getD "")))
            else scanObject (key :: keys) depth inString false (after.drop 1)
          else scanObject keys depth inString false (after.drop 1)
      else scanObject keys depth (!inString) false rest
    else if inString = false ∧ (b = 0x7b ∨ b = 0x5b) then
      scanObject keys (depth + 1) inString false rest
    else if inString = false ∧ (b = 0x7d ∨ b = 0x5d) then
      if depth = 0 then .ok bytes else scanObject keys (depth - 1) inString false rest
    else scanObject keys depth inString false rest
termination_by bytes.length
decreasing_by
  all_goals first
    | (have hlen := length_takeKey ‹_›; simp; omega)
    | simp

theorem length_scanObject {keys : List (List UInt8)} {depth : Nat} {inString escape : Bool}
    {bytes left : List UInt8} (h : scanObject keys depth inString escape bytes = .ok left) :
    left.length ≤ bytes.length := by
  fun_induction scanObject keys depth inString escape bytes with
  | case1 => simp [← Except.ok.inj h]
  | case4 => cases h
  | case5 => cases h
  | case6 keys depth inString escape rest _ _ key after hkey _ _ _ ih =>
    have hdrop := ih h
    have htake := length_takeKey hkey
    simp only [List.length_drop, List.length_cons] at hdrop ⊢
    omega
  | case7 keys depth inString escape rest _ _ key after hkey _ _ ih =>
    have hdrop := ih h
    have htake := length_takeKey hkey
    simp only [List.length_drop, List.length_cons] at hdrop ⊢
    omega
  | case10 => simp [← Except.ok.inj h]
  | _ => exact le_trans (by apply_assumption; exact h) (Nat.le_succ _)

def scanObjectKeys (bytes : List UInt8) : Except KnockStop Unit :=
  match bytes with
  | [] => .ok ()
  | b :: rest =>
    if b = 0x7b then
      match _hscan : scanObject [] 0 false false rest with
      | .error stop => .error stop
      | .ok left => scanObjectKeys (left.drop 1)
    else scanObjectKeys rest
termination_by bytes.length
decreasing_by
  · have := length_scanObject ‹_›
    simp
    omega
  · simp

def checkDuplicateKeys (bytes : List UInt8) : Except KnockStop Unit :=
  match fromUtf8 bytes with
  | none => .error (.error .invalidUtf8)
  | some _ => scanObjectKeys bytes

/-! ## The stage -/

def knockRaw (bytes : List UInt8) : Except KnockError Unit :=
  if bytes.length > MAX_BODY_BYTES then .error (.bodyTooLarge bytes.length)
  else if fromUtf8 bytes = none then .error .invalidUtf8
  else .ok ()

/-- What follows the first occurrence of `pat`: `&msg[msg.find(pat)? + pat.len()..]`. -/
def findAfter (pat : List Char) : List Char → Option (List Char)
  | [] => if pat.isEmpty then some [] else none
  | c :: cs =>
    if pat.isPrefixOf (c :: cs) then some ((c :: cs).drop pat.length) else findAfter pat cs

def mapNormalizationError (err : RhoError) : KnockError :=
  match findAfter "DuplicateKey(".toList err.text.toList with
  | some tail => .duplicateKey (String.ofList (tail.takeWhile (· != ')')))
  | none => .inputNormalization err.text

section

variable (env : KnockEnv)

def knockParsedWithOptions (value : Json) (requireUnc1 : Bool) : Except KnockError Unit :=
  match value.asObject with
  | none => .error .notObject
  | some obj => do
    if "@type" ∉ keys obj then throw (.missingAnchor "@type")
    if "@world" ∉ keys obj then throw (.missingAnchor "@world")
    checkDepth value 0
    checkArrays value
    checkNumericNodes env.displayNumber requireUnc1 value "$"
    validateTypeSpecificSchema env.text value

def parseBody (bytes : List UInt8) : Except KnockError Json :=
  match env.fromSlice bytes with
  | .error msg => .error (.inputNormalization ("invalid JSON syntax: " ++ msg))
  | .ok value => .ok value

def normalizeBody (value : Json) : Except KnockError Json :=
  match normalizeForInput env.text env.chrono value with
  | .error err => .error (mapNormalizationError err)
  | .ok value => .ok value

def importF64 (mode : F64ImportMode) (value : Json) : Except KnockError Json :=
  match mode with
  | .bnd => normalizeF64ToBnd value
  | .reject => .ok value

/-- Everything before the scan for duplicate keys. -/
def knockValue (bytes : List UInt8) (requireUnc1 : Bool) (mode : F64ImportMode) :
    Except KnockError Json := do
  knockRaw bytes
  let parsed ← parseBody env bytes
  let normalized ← normalizeBody env parsed
  let value ← importF64 mode normalized
  knockParsedWithOptions env value requireUnc1
  pure value

def knockWithOptions (bytes : List UInt8) (requireUnc1 : Bool) (mode : F64ImportMode) :
    Except KnockStop Json :=
  match knockValue env bytes requireUnc1 mode with
  | .error e => .error (.error e)
  | .ok value =>
    match checkDuplicateKeys bytes with
    | .error stop => .error stop
    | .ok () => .ok value

end

end Ubl.Knock
