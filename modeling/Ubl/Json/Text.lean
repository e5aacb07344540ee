import Mathlib

/-!
# JSON texts

The grammar of JSON as syntax trees that keep every byte: white space, the spelling of
numbers and the escapes of strings.  `JsonDoc.render` gives the bytes, so a byte string is
well-formed JSON when it is the rendering of a tree.  `units` decodes a string to UTF-16
code units, the form in which escapes and raw characters meet, and `HasDuplicate` says that
some object, at any depth, has two members whose decoded keys are equal.
-/

namespace Ubl.Grammar

/-- Space, tab, line feed, carriage return. -/
def isWs (b : UInt8) : Bool := b == 0x20 || b == 0x09 || b == 0x0a || b == 0x0d

/-- White space between tokens. -/
abbrev Ws := { l : List UInt8 // ∀ b ∈ l, isWs b }

def noWs : Ws := ⟨[], by simp⟩

/-! ## Strings -/

/-- The two-character escapes. -/
inductive Escape where
  | quote
  | backslash
  | slash
  | backspace
  | formFeed
  | lineFeed
  | carriageReturn
  | tab
deriving DecidableEq

/-- The byte after the backslash. -/
def Escape.byte : Escape → UInt8
  | .quote => 0x22
  | .backslash => 0x5c
  | .slash => 0x2f
  | .backspace => 0x62
  | .formFeed => 0x66
  | .lineFeed => 0x6e
  | .carriageReturn => 0x72
  | .tab => 0x74

/-- The character that is meant. -/
def Escape.unit : Escape → Nat
  | .quote => 0x22
  | .backslash => 0x5c
  | .slash => 0x2f
  | .backspace => 0x08
  | .formFeed => 0x0c
  | .lineFeed => 0x0a
  | .carriageReturn => 0x0d
  | .tab => 0x09

/-- The value of a hexadecimal digit. -/
def hexValue (b : UInt8) : Option Nat :=
  if 0x30 ≤ b ∧ b ≤ 0x39 then some (b.toNat - 0x30)
  else if 0x41 ≤ b ∧ b ≤ 0x46 then some (b.toNat - 0x41 + 10)
  else if 0x61 ≤ b ∧ b ≤ 0x66 then some (b.toNat - 0x61 + 10)
  else none

abbrev HexDigit := { b : UInt8 // (hexValue b).isSome }

def HexDigit.value (d : HexDigit) : Nat := (hexValue d.1).get d.2

inductive StrItem where
  | char (c : Char) (h : 0x20 ≤ c.toNat ∧ c ≠ '"' ∧ c ≠ '\\')
  | escape (e : Escape)
  | unicode (d₃ d₂ d₁ d₀ : HexDigit)

def StrItem.render : StrItem → List UInt8
  | .char c _ => String.utf8EncodeChar c
  | .escape e => [0x5c, e.byte]
  | .unicode d₃ d₂ d₁ d₀ => [0x5c, 0x75, d₃.1, d₂.1, d₁.1, d₀.1]

def StrItem.units : StrItem → List Nat
  | .char c _ =>
    let n := c.toNat
    if n < 0x10000 then [n]
    else [0xd800 + (n - 0x10000) / 0x400, 0xdc00 + (n - 0x10000) % 0x400]
  | .escape e => [e.unit]
  | .unicode d₃ d₂ d₁ d₀ => [((d₃.value * 16 + d₂.value) * 16 + d₁.value) * 16 + d₀.value]

/-- The bytes between the quotes. -/
def renderItems (items : List StrItem) : List UInt8 := items.flatMap StrItem.render

/-- The decoded string. -/
def units (items : List StrItem) : List Nat := items.flatMap StrItem.units

/-! ## Numbers -/

def isDigit (b : UInt8) : Bool := 0x30 ≤ b && b ≤ 0x39

def Digits (l : List UInt8) : Prop := l ≠ [] ∧ ∀ b ∈ l, isDigit b

/-- Sign, integer part without leading zeros, fraction, exponent. -/
structure IsNumber (lit : List UInt8) : Prop where
  spelling : ∃ sign int frac exp, lit = sign ++ (int ++ (frac ++ exp)) ∧
    (sign = [] ∨ sign = [0x2d]) ∧
    (int = [0x30] ∨ (Digits int ∧ int.head? ≠ some 0x30)) ∧
    (frac = [] ∨ ∃ ds, frac = 0x2e :: ds ∧ Digits ds) ∧
    (exp = [] ∨ ∃ e s ds, exp = e :: (s ++ ds) ∧ (e = 0x65 ∨ e = 0x45) ∧
      (s = [] ∨ s = [0x2b] ∨ s = [0x2d]) ∧ Digits ds)

/-! ## Values -/

mutual

inductive JsonText where
  | null
  | bool (b : Bool)
  | number (lit : List UInt8) (h : IsNumber lit)
  | string (items : List StrItem)
  | array (ws : Ws) (elements : Elements)
  | object (ws : Ws) (members : Members)

inductive Elements where
  | nil
  | cons (before : Ws) (value : JsonText) (after : Ws) (rest : Elements)

inductive Members where
  | nil
  | cons (before : Ws) (key : List StrItem) (afterKey beforeValue : Ws) (value : JsonText)
      (after : Ws) (rest : Members)

end

/-- A comma before every element but the first. -/
def comma (more : Bool) : List UInt8 := if more then [0x2c] else []

def renderString (items : List StrItem) : List UInt8 := 0x22 :: (renderItems items ++ [0x22])

mutual

def JsonText.render : JsonText → List UInt8
  | .null => [0x6e, 0x75, 0x6c, 0x6c]
  | .bool true => [0x74, 0x72, 0x75, 0x65]
  | .bool false => [0x66, 0x61, 0x6c, 0x73, 0x65]
  | .number lit _ => lit
  | .string items => renderString items
  | .array ws elements => 0x5b :: (ws.1 ++ (elements.render false ++ [0x5d]))
  | .object ws members => 0x7b :: (ws.1 ++ (members.render false ++ [0x7d]))

def Elements.render (more : Bool) : Elements → List UInt8
  | .nil => []
  | .cons before value after rest =>
    comma more ++ (before.1 ++ (value.render ++ (after.1 ++ rest.render true)))

def Members.render (more : Bool) : Members → List UInt8
  | .nil => []
  | .cons before key afterKey beforeValue value after rest =>
    comma more ++ (before.1 ++ (renderString key ++ (afterKey.1 ++ (0x3a :: (beforeValue.1 ++
      (value.render ++ (after.1 ++ rest.render true)))))))

end

structure JsonDoc where
  before : Ws
  value : JsonText
  after : Ws

def JsonDoc.render (doc : JsonDoc) : List UInt8 :=
  doc.before.1 ++ (doc.value.render ++ doc.after.1)

/-! ## Repeated keys -/

def Members.keys : Members → List (List StrItem)
  | .nil => []
  | .cons _ key _ _ _ _ rest => key :: rest.keys

mutual

/-- Some object, at any depth, has two members whose decoded keys are equal. -/
def JsonText.HasDuplicate : JsonText → Prop
  | .array _ elements => elements.HasDuplicate
  | .object _ members => ¬ (members.keys.map units).Nodup ∨ members.HasDuplicate
  | _ => False

def Elements.HasDuplicate : Elements → Prop
  | .nil => False
  | .cons _ value _ rest => value.HasDuplicate ∨ rest.HasDuplicate

def Members.HasDuplicate : Members → Prop
  | .nil => False
  | .cons _ _ _ _ value _ rest => value.HasDuplicate ∨ rest.HasDuplicate

end

/-! ## Bytes of the tokens -/

/-- The bytes of a raw character are never a quote or a backslash. -/
theorem utf8EncodeChar_plain {c : Char} (hq : c ≠ '"') (hb : c ≠ '\\') :
    ∀ b ∈ String.utf8EncodeChar c, b ≠ 0x22 ∧ b ≠ 0x5c := by
  have hq' : c.val.toNat ≠ 0x22 := fun h => hq (Char.ext (UInt32.toNat_inj.mp h))
  have hb' : c.val.toNat ≠ 0x5c := fun h => hb (Char.ext (UInt32.toNat_inj.mp h))
  have ne_of_toNat {b : UInt8} (h : b.toNat ≠ 0x22 ∧ b.toNat ≠ 0x5c) : b ≠ 0x22 ∧ b ≠ 0x5c :=
    ⟨fun h' => h.1 (by rw [h']; rfl), fun h' => h.2 (by rw [h']; rfl)⟩
  intro b hmem
  apply ne_of_toNat
  unfold String.utf8EncodeChar at hmem
  simp only at hmem
  split_ifs at hmem with h1 h2 h3
  all_goals
    simp only [List.mem_cons, List.not_mem_nil, or_false] at hmem
    rcases hmem with rfl | rfl | rfl | rfl <;>
      simp only [UInt8.toNat_ofNat'] <;> omega

theorem hexDigit_plain (d : HexDigit) : d.1 ≠ 0x22 ∧ d.1 ≠ 0x5c := by
  obtain ⟨b, hb⟩ := d
  constructor
  all_goals
    rintro rfl
    revert hb
    decide

/-- A byte that opens or closes nothing: neither quote, brace nor bracket. -/
def Plain (b : UInt8) : Prop := b ≠ 0x22 ∧ b ≠ 0x7b ∧ b ≠ 0x5b ∧ b ≠ 0x7d ∧ b ≠ 0x5d

instance (b : UInt8) : Decidable (Plain b) :=
  inferInstanceAs (Decidable (b ≠ 0x22 ∧ b ≠ 0x7b ∧ b ≠ 0x5b ∧ b ≠ 0x7d ∧ b ≠ 0x5d))

theorem plain_of_isWs {b : UInt8} (h : isWs b) : Plain b := by
  simp only [isWs, Bool.or_eq_true, beq_iff_eq] at h
  rcases h with ((rfl | rfl) | rfl) | rfl <;> decide

theorem plain_of_isDigit {b : UInt8} (h : isDigit b) : Plain b := by
  refine ⟨?_, ?_, ?_, ?_, ?_⟩
  all_goals
    rintro rfl
    revert h
    decide

theorem plain_of_isNumber {lit : List UInt8} (h : IsNumber lit) : ∀ b ∈ lit, Plain b := by
  obtain ⟨sign, int, frac, exp, rfl, hsign, hint, hfrac, hexp⟩ := h.spelling
  have digits {l : List UInt8} (hl : Digits l) : ∀ b ∈ l, Plain b :=
    fun b hb => plain_of_isDigit (hl.2 b hb)
  simp only [List.forall_mem_append]
  refine ⟨?_, ?_, ?_, ?_⟩
  · rcases hsign with rfl | rfl
    · simp
    · simp [Plain]
  · rcases hint with rfl | ⟨hint, -⟩
    · simp [Plain]
    · exact digits hint
  · rcases hfrac with rfl | ⟨ds, rfl, hds⟩
    · simp
    · exact List.forall_mem_cons.mpr ⟨by decide, digits hds⟩
  · rcases hexp with rfl | ⟨e, s, ds, rfl, he, hs, hds⟩
    · simp
    · refine List.forall_mem_cons.mpr ⟨?_, List.forall_mem_append.mpr ⟨?_, digits hds⟩⟩
      · rcases he with rfl | rfl <;> decide
      · rcases hs with rfl | rfl | rfl
        · simp
        · simp [Plain]
        · simp [Plain]

/-- A number starts with its sign or with a digit. -/
theorem head_isNumber {lit : List UInt8} (h : IsNumber lit) :
    ∃ b rest, lit = b :: rest ∧ (b = 0x2d ∨ isDigit b) := by
  obtain ⟨sign, int, frac, exp, rfl, hsign, hint, -, -⟩ := h.spelling
  rcases hsign with rfl | rfl
  · rcases hint with rfl | ⟨⟨hne, hdigits⟩, -⟩
    · exact ⟨0x30, frac ++ exp, rfl, .inr (by decide)⟩
    · obtain ⟨b, rest, rfl⟩ := List.exists_cons_of_ne_nil hne
      exact ⟨b, rest ++ (frac ++ exp), rfl, .inr (hdigits b List.mem_cons_self)⟩
  · exact ⟨0x2d, int ++ (frac ++ exp), rfl, .inl rfl⟩

end Ubl.Grammar
