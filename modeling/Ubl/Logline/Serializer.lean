import Ubl.Logline.Token

/-!
# `serializer.rs`
-/

namespace Ubl.Logline

structure SerializeOptions where
  indent : String
  uppercaseKeywords : Bool
  quoteStrings : Bool
deriving DecidableEq

/-- `SerializeOptions::default()`. -/
def SerializeOptions.default : SerializeOptions := ⟨"  ", true, false⟩

/-- The characters that are never written bare. -/
def isSpecial (c : Char) : Bool :=
  c = '"' || c = '\\' || c = '\n' || c = '\r' || c = '\t' ||
    c = '{' || c = '}' || c = '[' || c = ']' || c = ','

def needsQuoting (s : List Char) : Bool := s.isEmpty || s.any isSpecial

def escapeChar : Char → List Char
  | '"' => ['\\', '"']
  | '\\' => ['\\', '\\']
  | '\n' => ['\\', 'n']
  | '\r' => ['\\', 'r']
  | '\t' => ['\\', 't']
  | c => [c]

def escapeString (s : List Char) : List Char := s.flatMap escapeChar

/-- A string, in quotes or as it is. -/
def serializeText (quoted : Bool) (s : String) : List Char :=
  if quoted || needsQuoting s.toList then '"' :: escapeString s.toList ++ ['"'] else s.toList

section Std

variable (std : RustStd) (options : SerializeOptions)

def serializeNum (n : F64) : List Char :=
  match F64.asI64 n with
  | some i => (toString i).toList
  | none => (std.displayF64 n).toList

def serializeKeyword (key : String) : List Char :=
  if options.uppercaseKeywords then (std.strToUppercase key).toList else key.toList

/-- `base_indent.repeat(n)`. -/
def indentBy (n : Nat) : List Char := (List.replicate n options.indent.toList).flatten

mutual

def serializeValue (depth : Nat) : LogLineValue → List Char
  | .str s => serializeText options.quoteStrings s
  | .num n => serializeNum std n
  | .bool b => (displayBool b).toList
  | .list items => '[' :: serializeItems depth items ++ [']']
  | .object fields =>
    ['{', '\n'] ++ serializeFields depth fields ++ indentBy options depth ++ ['}']

/-- The items, with `", "` before all but the first. -/
def serializeItems (depth : Nat) : List LogLineValue → List Char
  | [] => []
  | item :: items => serializeValue (depth + 1) item ++ serializeMoreItems depth items

def serializeMoreItems (depth : Nat) : List LogLineValue → List Char
  | [] => []
  | item :: items => [',', ' '] ++ serializeValue (depth + 1) item ++ serializeMoreItems depth items

def serializeFields (depth : Nat) : List (String × LogLineValue) → List Char
  | [] => []
  | (key, val) :: fields =>
    indentBy options (depth + 1) ++ serializeKeyword std options key ++ [':', ' '] ++
      serializeValue (depth + 1) val ++ ['\n'] ++ serializeFields depth fields

end

def serializeName : Option String → List Char
  | none => []
  | some name => ' ' :: serializeText false name

def serializeParams : List (String × LogLineValue) → List Char
  | [] => []
  | (key, value) :: params =>
    options.indent.toList ++ serializeKeyword std options key ++ [':', ' '] ++
      serializeValue std options 1 value ++ ['\n'] ++ serializeParams params

def serializeWithOptions (span : LogLineSpan) : String :=
  String.ofList (serializeKeyword std options span.type ++ [':'] ++ serializeName span.name ++
    ['\n'] ++ serializeParams std options span.params ++ ['E', 'N', 'D'])

end Std

def serializeLogline (std : RustStd) (span : LogLineSpan) : String :=
  serializeWithOptions std .default span

end Ubl.Logline
