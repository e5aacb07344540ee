import Ubl.Logline.Progress
import Ubl.Logline.RoundTrip

/-!
# What a string without quotes is read as

A string that holds no special character stands bare in its line, where the tokenizer takes it
apart by its own rules: `Line` says into which tokens.  The parser puts the tokens behind a word
together with single spaces between them, so the string comes back when it was spaced like that
in the first place and every part of it is written as it is displayed (`Bare`).
-/

namespace Ubl.Logline

open ExceptLemmas Fueled
open Knock (isWhitespace)

variable {std : RustStd}

/-! ## Texts that are not read -/

/-- Whatever stands before it, the text is not read to its end. -/
def Fails (std : RustStd) (fresh : Bool) (cs : List Char) : Prop :=
  ∀ cur : Cursor, cur.atLineStart = fresh → ∀ fuel tokens, tokenize std fuel ⟨cs, cur⟩ ≠ .ok tokens

/-- The next token is an error. -/
theorem Fails.of_error {fresh : Bool} {cs : List Char}
    (h : ∀ cur : Cursor, cur.atLineStart = fresh → ∃ e, nextToken std ⟨cs, cur⟩ = .error e) :
    Fails std fresh cs := by
  intro cur hcur fuel tokens htokens
  obtain ⟨e, he⟩ := h cur hcur
  cases fuel with
  | zero => cases htokens
  | succ fuel =>
    rw [tokenize, he] at htokens
    cases htokens

theorem Fails.lexes {fresh fresh' : Bool} {cs cs' : List Char} {kind : TokenKind}
    (hkind : kind ≠ .eof) (hlex : Lexes std fresh cs kind fresh' cs') (h : Fails std fresh' cs') :
    Fails std fresh cs := by
  intro cur hcur fuel tokens htokens
  obtain ⟨span, cur', hnext, hfresh⟩ := hlex cur hcur
  cases fuel with
  | zero => cases htokens
  | succ fuel =>
    rw [tokenize, hnext, bind_ok] at htokens
    simp only [if_neg hkind] at htokens
    obtain ⟨rest, hrest, -⟩ := bind_eq_ok.mp htokens
    exact h cur' hfresh fuel rest hrest

theorem Fails.reads {fresh fresh' : Bool} {cs cs' : List Char} {kinds : List TokenKind}
    (hreads : Reads std fresh cs kinds fresh' cs') (h : Fails std fresh' cs') :
    Fails std fresh cs := by
  induction hreads with
  | nil => exact h
  | cons hkind hlex _ ih => exact .lexes hkind hlex (ih h)

theorem nextToken_space {cs : List Char} {cur : Cursor} (hcur : cur.atLineStart = false) :
    nextToken std ⟨' ' :: cs, cur⟩ = nextToken std ⟨cs, cur.advance ' '⟩ := by
  have hcur' : (cur.advance ' ').atLineStart = false := advance_atLineStart hcur (by decide)
  rw [nextToken_inLine hcur, nextToken_inLine hcur']
  rfl

theorem Fails.space {cs : List Char} (h : Fails std false cs) : Fails std false (' ' :: cs) := by
  intro cur hcur fuel tokens htokens
  refine h (cur.advance ' ') (advance_atLineStart hcur (by decide)) fuel tokens ?_
  cases fuel with
  | zero => cases htokens
  | succ fuel => rwa [tokenize, nextToken_space hcur] at htokens

/-! ## The tokens of a line -/

/-- No character is special. -/
def Plain (cs : List Char) : Prop := ∀ c ∈ cs, isSpecial c = false

/-- A number begins the text and is followed by `cs`. -/
def IsNumeral (std : RustStd) (w cs : List Char) : Prop :=
  startsNumber std (w ++ cs) ∧ numberChars std (w ++ cs) = (w, cs)

/-- The text begins with nothing of the kind: it is taken as a whole. -/
def StartsOther (std : RustStd) : List Char → Prop
  | [] => False
  | c :: cs => isStructural c = false ∧ startsNumber std (c :: cs) = false ∧ startsWord std c = false

/-- The text `w` is a token in front of `cs`. -/
inductive IsToken (std : RustStd) : List Char → TokenKind → List Char → Prop
  | colon {cs : List Char} : IsToken std [':'] .colon cs
  | word {w cs : List Char} (hw : IsIdentifier std w) (hcs : StopsAt (isIdentifierChar std) cs) :
      IsToken std w (wordKind std (String.ofList w)) cs
  | number {w cs : List Char} {n : F64} (hw : IsNumeral std w cs)
      (hparse : std.parseF64 (String.ofList w) = some n) : IsToken std w (.number n) cs

/-- The tokens of a text without special characters. -/
inductive Line (std : RustStd) : List Char → List TokenKind → Prop
  | nil : Line std [] []
  | space {cs : List Char} {kinds : List TokenKind} (h : Line std cs kinds) :
      Line std (' ' :: cs) kinds
  | token {w cs : List Char} {kind : TokenKind} {kinds : List TokenKind}
      (hw : IsToken std w kind cs) (h : Line std cs kinds) : Line std (w ++ cs) (kind :: kinds)
  | other {cs : List Char} (hcs : StartsOther std cs) (htrim : trim cs ≠ []) :
      Line std cs [.string (String.ofList (trim cs))]

/-- No number goes on there. -/
def StopsNumber (std : RustStd) (stop : List Char) : Prop :=
  StopsAt (fun c => std.isNumeric c || c = '.') stop

section StopsNumber

variable {stop : List Char}

theorem StopsNumber.cons {c : Char} (h : c = '\n' ∨ c = ' ') (cs : List Char) :
    StopsNumber std (c :: cs) := by
  intro d hd
  obtain rfl := Option.some.inj hd
  rcases h with rfl | rfl <;> simp [std.isNumeric_ascii]

theorem StopsNumber.head? (h : StopsNumber std stop) (cs : List Char) :
    (cs ++ stop).head?.any std.isNumeric = cs.head?.any std.isNumeric := by
  cases cs with
  | cons => rfl
  | nil =>
    cases stop with
    | nil => rfl
    | cons c stop =>
      have := h c rfl
      rw [Bool.or_eq_false_iff] at this
      simp [this.1]

theorem numberTail_stops (h : StopsNumber std stop) {hasDot : Bool} (cs : List Char) :
    numberTail std hasDot (cs ++ stop) =
      ((numberTail std hasDot cs).1, (numberTail std hasDot cs).2 ++ stop) := by
  induction cs generalizing hasDot with
  | nil =>
    cases stop with
    | nil => rfl
    | cons c stop =>
      have := h c rfl
      simp only [Bool.or_eq_false_iff, decide_eq_false_iff_not] at this
      simp [numberTail, this.1, this.2]
  | cons c cs ih =>
    rw [List.cons_append, numberTail, numberTail, h.head?]
    split_ifs
    · rw [ih]
    · rw [ih]
    · rfl

/-- The text that stands behind a number makes no difference to it. -/
theorem IsNumeral.append {w cs : List Char} (hw : IsNumeral std w cs) (h : StopsNumber std stop) :
    IsNumeral std w (cs ++ stop) := by
  obtain ⟨hstarts, hchars⟩ := hw
  unfold IsNumeral
  rw [← List.append_assoc]
  generalize w ++ cs = text at hstarts hchars
  cases text with
  | nil => cases hstarts
  | cons c text =>
    rw [List.cons_append]
    refine ⟨?_, ?_⟩
    · rwa [startsNumber, h.head?]
    · by_cases hc : c = '-'
      · subst hc
        rw [numberChars] at hchars ⊢
        rw [numberTail_stops h]
        obtain ⟨rfl, rfl⟩ := Prod.mk.inj hchars
        rfl
      · rw [numberChars_cons std hc] at hchars ⊢
        rw [← List.cons_append, numberTail_stops h, hchars]

end StopsNumber

theorem startsNumber_append (c : Char) (cs : List Char) {stop : List Char}
    (h : StopsNumber std stop) :
    startsNumber std (c :: (cs ++ stop)) = startsNumber std (c :: cs) := by
  rw [startsNumber, startsNumber, h.head?]

theorem wordKind_ne_eof (s : String) : wordKind std s ≠ .eof := by
  unfold wordKind
  split <;> simp

theorem not_isDelimiter {cs : List Char} (h : Plain cs) : ∀ c ∈ cs, !isDelimiter c := by
  intro c hc
  have hspecial := h c hc
  by_contra hne
  simp only [Bool.not_eq_true, Bool.not_eq_false', isDelimiter, Bool.or_eq_true,
    decide_eq_true_eq] at hne
  rcases hne with ((((rfl | rfl) | rfl) | rfl) | rfl) | rfl <;> cases hspecial

/-- Everything up to the end of the line. -/
theorem readUnquotedValue_plain {cs : List Char} (h : Plain cs) (rest : List Char) (cur : Cursor) :
    readUnquotedValue ⟨cs ++ '\n' :: rest, cur⟩ =
      (trim cs, ⟨'\n' :: rest, cur.advanceAll cs⟩) := by
  have hstop : StopsAt (fun c => !isDelimiter c) ('\n' :: rest) := by
    intro c hc
    obtain rfl := Option.some.inj hc
    rfl
  obtain ⟨htake, hdrop⟩ := takeWhile_of_stopsAt (not_isDelimiter h) hstop
  simp only [readUnquotedValue, Tokenizer.readWhile, htake, hdrop]

/-- The token of such a text, or the error where it is blank. -/
theorem nextToken_other {cs : List Char} (hcs : StartsOther std cs) (hplain : Plain cs)
    (rest : List Char) {cur : Cursor} (hcur : cur.atLineStart = false) :
    nextToken std ⟨cs ++ '\n' :: rest, cur⟩ =
      if trim cs = [] then .error (.error (.invalidCharacter '\n' cur.here))
      else .ok (⟨.string (String.ofList (trim cs)), cur.here, (cur.advanceAll cs).here⟩,
        ⟨'\n' :: rest, cur.advanceAll cs⟩) := by
  have hread := readUnquotedValue_plain hplain rest cur
  cases cs with
  | nil => exact hcs.elim
  | cons c cs =>
    obtain ⟨hstructural, hnumber, hword⟩ := hcs
    rw [List.cons_append] at hread ⊢
    rw [nextToken_inLine hcur, nextInLine_eq_readToken (isStructural_eq_false.mp hstructural).2.2,
      readToken_other hstructural (by rwa [startsNumber_append c cs (.cons (.inl rfl) rest)]) hword
        hread]
    rfl

theorem plain_not_mem_newline {cs : List Char} (h : Plain cs) : '\n' ∉ cs := by
  intro hmem
  cases h _ hmem

theorem StopsAt.newline {cs : List Char} (h : StopsAt (isIdentifierChar std) cs) (rest : List Char) :
    StopsAt (isIdentifierChar std) (cs ++ '\n' :: rest) := by
  cases cs with
  | nil => exact stopsAt_structural rfl rest
  | cons => exact h

/-- Such a token is read in a line. -/
theorem IsToken.lexes {w cs : List Char} {kind : TokenKind} (h : IsToken std w kind cs)
    (rest : List Char) :
    kind ≠ .eof ∧ Lexes std false (w ++ cs ++ '\n' :: rest) kind false (cs ++ '\n' :: rest) := by
  rw [List.append_assoc]
  cases h with
  | colon => exact ⟨by simp, lexes_punctuation rfl _⟩
  | word hw hcs => exact ⟨wordKind_ne_eof _, lexes_word hw (hcs.newline rest)⟩
  | number hw hparse =>
    have hnumeral := hw.append (StopsNumber.cons (.inl rfl) rest)
    exact ⟨by simp, lexes_number hnumeral.1 hnumeral.2 hparse⟩

/-- A line is read as its tokens. -/
theorem Line.readsAs {cs : List Char} {kinds : List TokenKind} (h : Line std cs kinds)
    (hplain : Plain cs) : ReadsAs std cs kinds := by
  intro rest
  induction h with
  | nil => exact reads_newline
  | space h ih => exact (ih (List.forall_mem_cons.mp hplain).2).space (by simp)
  | token hw h ih =>
    obtain ⟨hkind, hlex⟩ := hw.lexes rest
    exact .cons hkind hlex (ih (List.forall_mem_append.mp hplain).2)
  | @other cs hcs htrim =>
    refine .cons (by simp) (fun cur hcur => ?_) reads_newline
    rw [nextToken_other hcs hplain rest hcur, if_neg htrim]
    exact ⟨_, _, rfl, advanceAll_atLineStart hcur (plain_not_mem_newline hplain)⟩

theorem isStructural_of_special {c : Char} (h : isSpecial c = false) (hspace : c ≠ ' ')
    (hcolon : c ≠ ':') : isStructural c = false := by
  by_contra hne
  have hmem := mem_of_isStructural (Bool.not_eq_false _ ▸ hne)
  simp only [List.mem_cons, List.not_mem_nil, or_false] at hmem
  rcases hmem with rfl | rfl | rfl | rfl | rfl | rfl | rfl | rfl | rfl | rfl | rfl <;>
    first | exact absurd rfl hspace | exact absurd rfl hcolon | cases h

/-- A numeral that is no number. -/
theorem IsNumeral.fails {w cs : List Char} (h : IsNumeral std w cs)
    (hparse : std.parseF64 (String.ofList w) = none) (rest : List Char) :
    Fails std false (w ++ cs ++ '\n' :: rest) := by
  have hlex := h.append (StopsNumber.cons (.inl rfl) rest)
  rw [List.append_assoc]
  obtain ⟨hstarts, hchars⟩ := hlex
  generalize w ++ (cs ++ '\n' :: rest) = text at hstarts hchars
  cases text with
  | nil => cases hstarts
  | cons c text =>
    have hstructural := isStructural_of_identifierChar (isIdentifierChar_of_startsNumber hstarts)
    refine .of_error fun cur hcur =>
      ⟨.error (.invalidNumber ⟨cur.here, (cur.advanceAll w).here⟩), ?_⟩
    rw [nextToken_inLine hcur, nextInLine_eq_readToken (isStructural_eq_false.mp hstructural).2.2,
      readToken_number hstructural hstarts, readNumber]
    simp only [hchars, hparse]
    rfl

/-- What begins a text: a space, a token, a numeral that is no number, or something else. -/
theorem line_cases (c : Char) (cs : List Char) (hspecial : isSpecial c = false) :
    c = ' ' ∨ (∃ w kind cs', c :: cs = w ++ cs' ∧ cs'.length < (c :: cs).length ∧
        IsToken std w kind cs') ∨
      (∃ w cs', c :: cs = w ++ cs' ∧ IsNumeral std w cs' ∧ std.parseF64 (String.ofList w) = none) ∨
      StartsOther std (c :: cs) := by
  by_cases hspace : c = ' '
  · exact .inl hspace
  refine .inr ?_
  by_cases hcolon : c = ':'
  · subst hcolon
    exact .inl ⟨[':'], _, cs, rfl, Nat.lt_succ_self _, .colon⟩
  have hstructural := isStructural_of_special hspecial hspace hcolon
  by_cases hnumber : startsNumber std (c :: cs)
  · have hsplit := @numberChars_append std (c :: cs)
    have hlt := numberChars_length_lt hnumber
    generalize hchars : numberChars std (c :: cs) = p at hsplit hlt
    obtain ⟨w, cs'⟩ := p
    dsimp only at hsplit hlt
    have hnumeral : IsNumeral std w cs' := by
      rw [IsNumeral, hsplit]
      exact ⟨hnumber, hchars⟩
    cases hparse : std.parseF64 (String.ofList w) with
    | none => exact .inr (.inl ⟨w, cs', hsplit.symm, hnumeral, hparse⟩)
    | some n => exact .inl ⟨w, _, cs', hsplit.symm, hlt, .number hnumeral hparse⟩
  rw [Bool.not_eq_true] at hnumber
  by_cases hword : startsWord std c
  · have hident := isIdentifierChar_of_startsWord hword
    have hnumeric : std.isNumeric c = false := by
      rw [startsNumber, Bool.or_eq_false_iff] at hnumber
      exact hnumber.1
    have hw : IsIdentifier std ((c :: cs).takeWhile (isIdentifierChar std)) :=
      ⟨⟨c, by rw [List.takeWhile_cons_of_pos hident]; rfl, hword, hnumeric⟩,
        fun _ => List.mem_takeWhile_imp⟩
    have hstop : StopsAt (isIdentifierChar std) ((c :: cs).dropWhile (isIdentifierChar std)) := by
      intro d hd
      have := List.head?_dropWhile_not (isIdentifierChar std) (c :: cs)
      rwa [Option.mem_def.mp hd] at this
    have hlt := readWhile_length_lt (t := ⟨c :: cs, ⟨0, 0, 0, false⟩⟩) rfl hident
    exact .inl ⟨_, _, _, List.takeWhile_append_dropWhile.symm, hlt, .word hw hstop⟩
  · rw [Bool.not_eq_true] at hword
    exact .inr (.inr ⟨hstructural, hnumber, hword⟩)

/-- A line has tokens or is not read. -/
theorem line_or_fails (cs : List Char) (hplain : Plain cs) :
    (∃ kinds, Line std cs kinds) ∨ ∀ rest, Fails std false (cs ++ '\n' :: rest) := by
  induction hlen : cs.length using Nat.strong_induction_on generalizing cs with
  | _ n ih =>
    subst hlen
    cases cs with
    | nil => exact .inl ⟨_, .nil⟩
    | cons c cs =>
      rcases @line_cases std c cs (hplain c List.mem_cons_self) with
        rfl | ⟨w, kind, cs', hsplit, hlt, hw⟩ | ⟨w, cs', hsplit, hw, hparse⟩ | hother
      · rcases ih _ (Nat.lt_succ_self _) cs (List.forall_mem_cons.mp hplain).2 rfl with ⟨kinds, h⟩ | h
        · exact .inl ⟨_, h.space⟩
        · exact .inr fun rest => (h rest).space
      · rw [hsplit] at hplain ⊢
        rcases ih _ hlt cs' (List.forall_mem_append.mp hplain).2 rfl with ⟨kinds, h⟩ | h
        · exact .inl ⟨_, h.token hw⟩
        · refine .inr fun rest => ?_
          obtain ⟨hkind, hlex⟩ := hw.lexes rest
          exact .lexes hkind hlex (h rest)
      · rw [hsplit]
        exact .inr (hw.fails hparse)
      · by_cases htrim : trim (c :: cs) = []
        · refine .inr fun rest => .of_error fun cur hcur => ?_
          rw [nextToken_other hother hplain rest hcur, if_pos htrim]
          exact ⟨_, rfl⟩
        · exact .inl ⟨_, .other hother htrim⟩

end Ubl.Logline
