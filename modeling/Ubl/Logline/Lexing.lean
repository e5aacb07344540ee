import Ubl.Lib.ExceptLemmas
import Ubl.Lib.Fueled
import Ubl.Logline.Numerals
import Ubl.Logline.Serializer
import Ubl.Logline.Tokenizer

/-!
# Which tokens a text is read as

`Lexes std fresh cs kind fresh' cs'`: a tokenizer in front of `cs` reads one token and stands in
front of `cs'`, wherever in the text that is; `fresh` says whether a line begins.  `Reads` is a
run of such tokens.  There is one rule for each way in which the serializer writes something.
-/

namespace Ubl.Logline

open ExceptLemmas Fueled Numeral
open Knock (isWhitespace)

/-- The next token, and the text behind it. -/
def Lexes (std : RustStd) (fresh : Bool) (cs : List Char) (kind : TokenKind) (fresh' : Bool)
    (cs' : List Char) : Prop :=
  ∀ cur : Cursor, cur.atLineStart = fresh → ∃ span cur',
    nextToken std ⟨cs, cur⟩ = .ok (⟨kind, span⟩, ⟨cs', cur'⟩) ∧ cur'.atLineStart = fresh'

/-- The tokens of the text up to `cs'`. -/
inductive Reads (std : RustStd) : Bool → List Char → List TokenKind → Bool → List Char → Prop
  | nil (fresh : Bool) (cs : List Char) : Reads std fresh cs [] fresh cs
  | cons {fresh fresh' fresh'' : Bool} {cs cs' cs'' : List Char} {kind : TokenKind}
      {kinds : List TokenKind} (hkind : kind ≠ .eof) (h : Lexes std fresh cs kind fresh' cs')
      (hs : Reads std fresh' cs' kinds fresh'' cs'') : Reads std fresh cs (kind :: kinds) fresh'' cs''

variable {std : RustStd}

theorem Reads.append {fresh fresh' fresh'' : Bool} {cs cs' cs'' : List Char}
    {kinds kinds' : List TokenKind} (h : Reads std fresh cs kinds fresh' cs')
    (h' : Reads std fresh' cs' kinds' fresh'' cs'') :
    Reads std fresh cs (kinds ++ kinds') fresh'' cs'' := by
  induction h with
  | nil => exact h'
  | cons hkind hlex _ ih => exact .cons hkind hlex (ih h')

theorem Reads.one {fresh fresh' : Bool} {cs cs' : List Char} {kind : TokenKind}
    (hkind : kind ≠ .eof) (h : Lexes std fresh cs kind fresh' cs') :
    Reads std fresh cs [kind] fresh' cs' := .cons hkind h (.nil _ _)

/-- A text that is read to its end. -/
theorem Reads.tokenize {fresh fresh' : Bool} {cs cs' cs'' : List Char} {kinds : List TokenKind}
    {last : Bool} (h : Reads std fresh cs kinds fresh' cs') (hend : Lexes std fresh' cs' .eof last cs'')
    (cur : Cursor) (hcur : cur.atLineStart = fresh) :
    ∃ tokens, Settles (fun fuel => tokenize std fuel ⟨cs, cur⟩) (.ok tokens) ∧
      tokens.map Token.kind = kinds ++ [.eof] := by
  induction h generalizing cur with
  | nil fresh cs =>
    obtain ⟨span, cur', hnext, -⟩ := hend cur hcur
    refine ⟨[⟨.eof, span⟩], (Settles.const _).succ fun fuel => ?_, rfl⟩
    rw [Logline.tokenize, hnext]
    rfl
  | @cons _ _ _ _ _ _ kind _ hkind hlex _ ih =>
    obtain ⟨span, cur', hnext, hfresh⟩ := hlex cur hcur
    obtain ⟨tokens, htokens, hkinds⟩ := ih hend cur' hfresh
    have hcons := htokens.bind (F := fun _ tokens => .ok (⟨kind, span⟩ :: tokens)) (.const _)
    refine ⟨⟨kind, span⟩ :: tokens, hcons.succ fun fuel => ?_, congrArg (kind :: ·) hkinds⟩
    rw [Logline.tokenize, hnext, bind_ok]
    simp only [if_neg hkind]

/-! ## Cursors -/

theorem advance_atLineStart {cur : Cursor} {ch : Char} (hcur : cur.atLineStart = false)
    (hch : ch ≠ '\n') : (cur.advance ch).atLineStart = false := by
  rw [Cursor.advance, if_neg hch, hcur]
  rfl

theorem advanceAll_atLineStart {cur : Cursor} {cs : List Char} (hcur : cur.atLineStart = false)
    (hcs : '\n' ∉ cs) : (cur.advanceAll cs).atLineStart = false := by
  induction cs generalizing cur with
  | nil => exact hcur
  | cons ch cs ih =>
    rw [List.mem_cons, not_or] at hcs
    exact ih (advance_atLineStart hcur (Ne.symm hcs.1)) hcs.2

theorem advanceAll_position (cur : Cursor) (cs : List Char) :
    (cur.advanceAll cs).position = cur.position + cs.length := by
  induction cs generalizing cur with
  | nil => rfl
  | cons ch cs ih =>
    have hcons : cur.advanceAll (ch :: cs) = (cur.advance ch).advanceAll cs := rfl
    have hone : (cur.advance ch).position = cur.position + 1 := by
      unfold Cursor.advance
      split_ifs <;> rfl
    rw [hcons, ih, hone, List.length_cons]
    omega

theorem trim_eq_nil {cs : List Char} : trim cs = [] ↔ ∀ c ∈ cs, isWhitespace c := by
  have hdrop : ∀ l : List Char, l.dropWhile isWhitespace = [] ↔ ∀ c ∈ l, isWhitespace c :=
    fun l => List.dropWhile_eq_nil_iff
  rw [trim, List.reverse_eq_nil_iff, hdrop]
  constructor
  · intro h
    by_contra hne
    have hcons := mt (hdrop cs).mp hne
    have hhead := List.head_dropWhile_not isWhitespace hcons
    rw [h _ (List.mem_reverse.mpr (List.head_mem hcons))] at hhead
    cases hhead
  · intro h c hc
    rw [(hdrop cs).mpr h] at hc
    cases hc

/-! ## Within a line -/

/-- Space, tab or carriage return, which are passed over between tokens. -/
def isSkipped (ch : Char) : Bool := ch = ' ' || ch = '\t' || ch = '\r'

theorem nextToken_inLine {t : Tokenizer} (h : t.cursor.atLineStart = false) :
    nextToken std t = nextInLine std t := by
  rw [nextToken, if_neg (by simp [h])]

/-- Where no blank stands, none is skipped. -/
theorem nextInLine_eq_readToken {ch : Char} (hch : isSkipped ch = false) (rest : List Char)
    (cur : Cursor) : nextInLine std ⟨ch :: rest, cur⟩ = readToken std ⟨ch :: rest, cur⟩ := by
  have hskip : Tokenizer.skipWhitespaceExceptNewline ⟨ch :: rest, cur⟩ = ⟨ch :: rest, cur⟩ := by
    change Tokenizer.mk ((ch :: rest).dropWhile isSkipped)
      (cur.advanceAll ((ch :: rest).takeWhile isSkipped)) = _
    rw [List.dropWhile_cons_of_neg (by simp [hch]), List.takeWhile_cons_of_neg (by simp [hch])]
    rfl
  rw [nextInLine, hskip]

/-- A token that is read where it stands. -/
theorem Lexes.of_readToken {ch : Char} {rest cs' : List Char} {kind : TokenKind} {fresh' : Bool}
    (hch : isSkipped ch = false)
    (h : ∀ cur : Cursor, cur.atLineStart = false → ∃ span cur',
      readToken std ⟨ch :: rest, cur⟩ = .ok (⟨kind, span⟩, ⟨cs', cur'⟩) ∧
        cur'.atLineStart = fresh') : Lexes std false (ch :: rest) kind fresh' cs' := by
  intro cur hcur
  rw [nextToken_inLine hcur, nextInLine_eq_readToken hch]
  exact h cur hcur

/-- A space changes nothing about the token behind it. -/
theorem Lexes.space {cs cs' : List Char} {kind : TokenKind} {fresh' : Bool}
    (h : Lexes std false cs kind fresh' cs') : Lexes std false (' ' :: cs) kind fresh' cs' := by
  intro cur hcur
  have hcur' : (cur.advance ' ').atLineStart = false := advance_atLineStart hcur (by decide)
  obtain ⟨span, cur', hnext, hfresh⟩ := h (cur.advance ' ') hcur'
  refine ⟨span, cur', ?_, hfresh⟩
  rw [nextToken_inLine hcur'] at hnext
  rw [nextToken_inLine hcur, ← hnext]
  rfl

theorem Reads.space {cs cs' : List Char} {kinds : List TokenKind} {fresh' : Bool}
    (h : Reads std false cs kinds fresh' cs') (hne : kinds ≠ []) :
    Reads std false (' ' :: cs) kinds fresh' cs' := by
  cases h with
  | nil => exact absurd rfl hne
  | cons hkind hlex hs => exact .cons hkind hlex.space hs

theorem lexes_eof : Lexes std false [] .eof false [] := by
  intro cur hcur
  exact ⟨_, cur, by rw [nextToken_inLine hcur]; rfl, hcur⟩

theorem lexes_punctuation {ch : Char} {kind : TokenKind} (h : punctuation ch = some kind)
    (cs : List Char) : Lexes std false (ch :: cs) kind (ch = '\n') cs := by
  have hskip : isSkipped ch = false := by
    by_contra hne
    simp only [isSkipped, Bool.not_eq_false, Bool.or_eq_true, decide_eq_true_eq] at hne
    rcases hne with (rfl | rfl) | rfl <;> cases h
  refine .of_readToken hskip fun cur hcur =>
    ⟨⟨cur.here, (cur.advance ch).here⟩, cur.advance ch, ?_, ?_⟩
  · simp only [readToken, h]
  · rw [Cursor.advance]
    split_ifs with hnl <;> simp [hcur, hnl]

/-- The characters that have a meaning of their own wherever a token begins. -/
def isStructural (ch : Char) : Bool := (punctuation ch).isSome || ch = '"' || isSkipped ch

theorem isStructural_eq_false {ch : Char} :
    isStructural ch = false ↔ punctuation ch = none ∧ ch ≠ '"' ∧ isSkipped ch = false := by
  simp [isStructural, and_assoc]

theorem mem_of_isStructural {ch : Char} (h : isStructural ch) :
    ch ∈ ['\n', ':', '{', '}', '[', ']', ',', '"', ' ', '\t', '\r'] := by
  by_contra hne
  simp only [List.mem_cons, not_or, List.not_mem_nil, not_false_eq_true] at hne
  have hpunct : punctuation ch = none := by
    unfold punctuation
    split <;> simp_all
  simp [isStructural, isSkipped, hpunct, hne] at h

/-- No character of an identifier is structural. -/
theorem isStructural_of_identifierChar {ch : Char} (h : isIdentifierChar std ch) :
    isStructural ch = false := by
  by_contra hne
  have hmem := mem_of_isStructural (Bool.not_eq_false _ ▸ hne)
  simp only [List.mem_cons, List.not_mem_nil, or_false] at hmem
  rcases hmem with rfl | rfl | rfl | rfl | rfl | rfl | rfl | rfl | rfl | rfl | rfl <;>
    simp [isIdentifierChar, RustStd.isAlphanumeric, std.isAlphabetic_ascii,
      std.isNumeric_ascii] at h

theorem isIdentifierChar_of_startsNumber {ch : Char} {rest : List Char}
    (h : startsNumber std (ch :: rest)) : isIdentifierChar std ch := by
  simp only [startsNumber, Bool.or_eq_true, Bool.and_eq_true, decide_eq_true_eq] at h
  rcases h with h | ⟨rfl, -⟩ <;> simp [isIdentifierChar, RustStd.isAlphanumeric, *]

theorem isIdentifierChar_of_startsWord {ch : Char} (h : startsWord std ch) :
    isIdentifierChar std ch := by
  simp only [startsWord, Bool.or_eq_true, decide_eq_true_eq] at h
  rcases h with h | h <;> simp [isIdentifierChar, RustStd.isAlphanumeric, h]

/-! ## Which reader is called -/

section Dispatch

variable {ch : Char} {rest : List Char} {cur : Cursor}

theorem readToken_quote : readToken std ⟨'"' :: rest, cur⟩ =
    readString cur.here ⟨'"' :: rest, cur⟩ >>= fun p =>
      .ok (⟨.string (String.ofList p.1), cur.here, p.2.cursor.here⟩, p.2) := rfl

theorem readToken_number (hch : isStructural ch = false) (hnumber : startsNumber std (ch :: rest)) :
    readToken std ⟨ch :: rest, cur⟩ = readNumber std cur.here ⟨ch :: rest, cur⟩ >>= fun p =>
      .ok (⟨.number p.1, cur.here, p.2.cursor.here⟩, p.2) := by
  obtain ⟨hpunct, hquote, -⟩ := isStructural_eq_false.mp hch
  simp only [readToken, hpunct, if_neg hquote, if_pos hnumber]

theorem readToken_word (hnumber : startsNumber std (ch :: rest) = false)
    (hword : startsWord std ch) :
    readToken std ⟨ch :: rest, cur⟩ =
      let (ident, t) := Tokenizer.readWhile (isIdentifierChar std) ⟨ch :: rest, cur⟩
      .ok (⟨wordKind std (String.ofList ident), cur.here, t.cursor.here⟩, t) := by
  have hident := isIdentifierChar_of_startsWord hword
  obtain ⟨hpunct, hquote, -⟩ := isStructural_eq_false.mp (isStructural_of_identifierChar hident)
  simp only [readToken, hpunct, if_neg hquote, hnumber, Bool.false_eq_true, if_false, if_pos hword]

theorem readToken_other (hch : isStructural ch = false)
    (hnumber : startsNumber std (ch :: rest) = false) (hword : startsWord std ch = false)
    {value : List Char} {t : Tokenizer} (hread : readUnquotedValue ⟨ch :: rest, cur⟩ = (value, t)) :
    readToken std ⟨ch :: rest, cur⟩ =
      if value = [] then .error (.error (.invalidCharacter (t.rest.head?.getD '\x00') cur.here))
      else .ok (⟨.string (String.ofList value), cur.here, t.cursor.here⟩, t) := by
  obtain ⟨hpunct, hquote, -⟩ := isStructural_eq_false.mp hch
  simp only [readToken, hpunct, if_neg hquote, hnumber, hword, Bool.false_eq_true, if_false, hread]
  cases value <;> rfl

end Dispatch

/-! ## Strings -/

theorem readStringBody_escapeString (start : Position) (s cs : List Char) (cur : Cursor)
    (hcur : cur.atLineStart = false) :
    ∃ cur', readStringBody start (escapeString s ++ '"' :: cs) cur = .ok (s, ⟨cs, cur'⟩) ∧
      cur'.atLineStart = false := by
  induction s generalizing cur with
  | nil => exact ⟨cur.advance '"', rfl, advance_atLineStart hcur (by decide)⟩
  | cons c s ih =>
    have hcons : escapeString (c :: s) ++ '"' :: cs =
        escapeChar c ++ (escapeString s ++ '"' :: cs) := by simp [escapeString]
    rw [hcons]
    -- how `escapeChar` writes the first character
    by_cases hesc : escapeChar c = [c]
    · have hplain : c ≠ '"' ∧ c ≠ '\\' ∧ c ≠ '\n' := by
        refine ⟨?_, ?_, ?_⟩ <;> rintro rfl <;> cases hesc
      obtain ⟨hquote, hslash, hnl⟩ := hplain
      obtain ⟨cur', hbody, hfresh⟩ := ih (cur.advance c) (advance_atLineStart hcur hnl)
      refine ⟨cur', ?_, hfresh⟩
      rw [hesc, List.singleton_append, readStringBody, hbody]
      · rfl
      all_goals simp_all
    · obtain ⟨esc, hesc', hback, hnl⟩ :
          ∃ esc, escapeChar c = ['\\', esc] ∧ unescape esc = some c ∧ esc ≠ '\n' := by
        unfold escapeChar at hesc ⊢
        split at hesc
        · exact ⟨'"', rfl, rfl, by decide⟩
        · exact ⟨'\\', rfl, rfl, by decide⟩
        · exact ⟨'n', rfl, rfl, by decide⟩
        · exact ⟨'r', rfl, rfl, by decide⟩
        · exact ⟨'t', rfl, rfl, by decide⟩
        · exact absurd rfl hesc
      obtain ⟨cur', hbody, hfresh⟩ := ih ((cur.advance '\\').advance esc)
        (advance_atLineStart (advance_atLineStart hcur (by decide)) hnl)
      refine ⟨cur', ?_, hfresh⟩
      rw [hesc']
      simp only [List.cons_append, List.nil_append, readStringBody, hback, hbody, bind_ok]

/-- A string in quotes. -/
theorem lexes_string (s cs : List Char) :
    Lexes std false ('"' :: escapeString s ++ '"' :: cs) (.string (String.ofList s)) false cs := by
  refine .of_readToken (by decide) fun cur hcur => ?_
  have hcur' := @advance_atLineStart _ '"' hcur (by decide)
  obtain ⟨cur', hbody, hfresh⟩ := readStringBody_escapeString cur.here s cs (cur.advance '"') hcur'
  have hread : readString cur.here ⟨'"' :: (escapeString s).append ('"' :: cs), cur⟩ =
      .ok (s, ⟨cs, cur'⟩) := hbody
  exact ⟨⟨cur.here, cur'.here⟩, cur', by rw [readToken_quote, hread]; rfl, hfresh⟩

/-! ## Words and numbers -/

/-- What stands in front of `cs` does not go on there. -/
def StopsAt (p : Char → Bool) (cs : List Char) : Prop := ∀ c ∈ cs.head?, p c = false

theorem stopsAt_structural {c : Char} (h : isStructural c) (cs : List Char) :
    StopsAt (isIdentifierChar std) (c :: cs) := by
  intro d hd
  obtain rfl := Option.some.inj hd
  by_contra hne
  rw [isStructural_of_identifierChar (Bool.not_eq_false _ ▸ hne)] at h
  cases h

theorem takeWhile_of_stopsAt {p : Char → Bool} {w cs : List Char} (hw : ∀ c ∈ w, p c)
    (hcs : StopsAt p cs) : (w ++ cs).takeWhile p = w ∧ (w ++ cs).dropWhile p = cs := by
  rw [List.takeWhile_append_of_pos hw, List.dropWhile_append_of_pos hw]
  cases cs with
  | nil => exact ⟨List.append_nil w, rfl⟩
  | cons c cs =>
    have hc : ¬ p c = true := by simp [hcs c rfl]
    rw [List.takeWhile_cons_of_neg hc, List.dropWhile_cons_of_neg hc]
    exact ⟨List.append_nil w, rfl⟩

/-- A word as the tokenizer reads it. -/
structure IsIdentifier (std : RustStd) (w : List Char) : Prop where
  starts : ∃ c ∈ w.head?, startsWord std c ∧ std.isNumeric c = false
  chars : ∀ c ∈ w, isIdentifierChar std c

theorem startsWord_ne_minus {c : Char} (h : startsWord std c) : c ≠ '-' := by
  rintro rfl
  simp [startsWord, std.isAlphabetic_ascii] at h

theorem not_mem_newline {w : List Char} (h : ∀ c ∈ w, isIdentifierChar std c) : '\n' ∉ w := by
  intro hmem
  cases isStructural_of_identifierChar (h _ hmem)

theorem lexes_word {w cs : List Char} (hw : IsIdentifier std w)
    (hcs : StopsAt (isIdentifierChar std) cs) :
    Lexes std false (w ++ cs) (wordKind std (String.ofList w)) false cs := by
  obtain ⟨⟨c, hc, hword, hnumeric⟩, hchars⟩ := hw
  cases w with
  | nil => cases hc
  | cons ch rest =>
    obtain rfl : ch = c := Option.some.inj hc
    obtain ⟨htake, hdrop⟩ := takeWhile_of_stopsAt hchars hcs
    have hstructural := isStructural_of_identifierChar (hchars ch List.mem_cons_self)
    have hnumber : startsNumber std (ch :: (rest ++ cs)) = false := by
      simp [startsNumber, hnumeric, startsWord_ne_minus hword]
    rw [List.cons_append] at htake hdrop ⊢
    refine .of_readToken (isStructural_eq_false.mp hstructural).2.2 fun cur hcur => ?_
    refine ⟨⟨cur.here, (cur.advanceAll (ch :: rest)).here⟩, cur.advanceAll (ch :: rest), ?_,
      advanceAll_atLineStart hcur (not_mem_newline hchars)⟩
    rw [readToken_word hnumber hword]
    simp only [Tokenizer.readWhile, htake, hdrop]

theorem numberTail_digits {hasDot : Bool} {ds : List Char} (hds : ∀ c ∈ ds, std.isNumeric c)
    (cs : List Char) : numberTail std hasDot (ds ++ cs) =
      (ds ++ (numberTail std hasDot cs).1, (numberTail std hasDot cs).2) := by
  induction ds with
  | nil => rfl
  | cons c ds ih =>
    rw [List.cons_append, numberTail, if_pos (hds c List.mem_cons_self),
      ih fun c hc => hds c (List.mem_cons_of_mem _ hc)]
    rfl

theorem isNumeric_of_digits {ds : List Char} (h : Digits ds) : ∀ c ∈ ds, std.isNumeric c := by
  intro c hc
  have hdigit := h.2 c hc
  have hascii : c.toNat < 128 := by
    simp only [Char.isDigit, Bool.and_eq_true, decide_eq_true_eq] at hdigit
    exact lt_of_le_of_lt hdigit.2 (by decide)
  rw [std.isNumeric_ascii c hascii, hdigit]

theorem numberTail_chars {hasDot : Bool} {cs : List Char} {c : Char}
    (h : c ∈ (numberTail std hasDot cs).1) : std.isNumeric c ∨ c = '.' := by
  induction cs generalizing hasDot with
  | nil => cases h
  | cons ch cs ih =>
    rw [numberTail] at h
    split_ifs at h with hnumeric hdot
    · rcases List.mem_cons.mp h with rfl | h
      · exact .inl hnumeric
      · exact ih h
    · rcases List.mem_cons.mp h with rfl | h
      · simp only [Bool.and_eq_true, decide_eq_true_eq] at hdot
        exact .inr hdot.1.1
      · exact ih h
    · cases h

theorem numberChars_no_newline (cs : List Char) : '\n' ∉ (numberChars std cs).1 := by
  have htail : ∀ cs, '\n' ∉ (numberTail std false cs).1 := by
    intro cs h
    rcases numberTail_chars h with h | h
    · simp [std.isNumeric_ascii] at h
    · cases h
  unfold numberChars
  split
  · exact fun h => (List.mem_cons.mp h).elim (by decide) (htail _)
  · exact htail _

/-- A number, up to where it stops. -/
theorem lexes_number {w cs : List Char} {n : F64} (hstarts : startsNumber std (w ++ cs))
    (hchars : numberChars std (w ++ cs) = (w, cs)) (hparse : std.parseF64 (String.ofList w) = some n) :
    Lexes std false (w ++ cs) (.number n) false cs := by
  have hnl : '\n' ∉ w := by
    have := @numberChars_no_newline std (w ++ cs)
    rwa [hchars] at this
  cases hcons : w ++ cs with
  | nil => rw [hcons] at hstarts; cases hstarts
  | cons ch rest =>
    rw [hcons] at hstarts hchars
    have hstructural := isStructural_of_identifierChar (isIdentifierChar_of_startsNumber hstarts)
    refine .of_readToken (isStructural_eq_false.mp hstructural).2.2 fun cur hcur => ?_
    refine ⟨⟨cur.here, (cur.advanceAll w).here⟩, cur.advanceAll w, ?_,
      advanceAll_atLineStart hcur hnl⟩
    rw [readToken_number hstructural hstarts, readNumber]
    simp only [hchars, hparse]
    rfl

/-- A numeral stops in front of what is neither a digit nor a point. -/
theorem lexes_int {i : Int} {n : F64} {cs : List Char}
    (hparse : std.parseF64 (toString i) = some n)
    (hcs : StopsAt (fun c => std.isNumeric c || c = '.') cs) :
    Lexes std false ((toString i).toList ++ cs) (.number n) false cs := by
  have hdigits := @isNumeric_of_digits std _ (digits_toDigits i.natAbs)
  have hstop : numberTail std false cs = ([], cs) := by
    cases cs with
    | nil => rfl
    | cons c cs =>
      have hc := hcs c rfl
      simp only [Bool.or_eq_false_iff, decide_eq_false_iff_not] at hc
      simp [numberTail, hc.1, hc.2]
  have htail := @numberTail_digits _ false _ hdigits cs
  rw [hstop, List.append_nil] at htail
  have hform := toList_toString_int i
  cases hds : Nat.toDigits 10 i.natAbs with
  | nil => exact absurd hds (digits_toDigits i.natAbs).1
  | cons d ds =>
    rw [hds] at hdigits htail hform
    have hd : std.isNumeric d := hdigits d List.mem_cons_self
    have hminus : d ≠ '-' := by
      rintro rfl
      simp [std.isNumeric_ascii] at hd
    refine lexes_number ?_ ?_ (by rwa [String.ofList_toList]) <;> rw [hform] <;> split_ifs
    · simp [startsNumber, hd]
    · simp [startsNumber, hd]
    · rw [← htail]
      exact numberChars_cons std hminus _
    · rw [List.cons_append, numberChars, htail]

/-! ## At the start of a line -/

theorem countIndent_spaces (n : Nat) {c : Char} (hc : c ≠ ' ' ∧ c ≠ '\t') (cs : List Char)
    (cur : Cursor) :
    Tokenizer.countIndent ⟨List.replicate n ' ' ++ c :: cs, cur⟩ =
      (n, ⟨c :: cs, cur.advanceAll (List.replicate n ' ')⟩) := by
  have hstop : StopsAt (fun ch => ch = ' ' || ch = '\t') (c :: cs) := by
    intro d hd
    obtain rfl := Option.some.inj hd
    simp [hc]
  have hblanks : ∀ ch ∈ List.replicate n ' ', (ch = ' ' || ch = '\t' : Bool) := by
    intro ch hch
    simp [List.eq_of_mem_replicate hch]
  obtain ⟨htake, hdrop⟩ := takeWhile_of_stopsAt hblanks hstop
  simp [Tokenizer.countIndent, Tokenizer.readWhile, htake, hdrop]

/-- The indentation of a line that is not empty. -/
theorem lexes_indent {n : Nat} (hn : 0 < n) {c : Char} (hc : c ≠ ' ' ∧ c ≠ '\t' ∧ c ≠ '\n')
    (cs : List Char) :
    Lexes std true (List.replicate n ' ' ++ c :: cs) (.indent n) false (c :: cs) := by
  intro cur hcur
  have hfit : n ≤ (cur.advanceAll (List.replicate n ' ')).position := by
    rw [advanceAll_position, List.length_replicate]
    exact Nat.le_add_left _ _
  rw [nextToken, if_pos hcur, countIndent_spaces n ⟨hc.1, hc.2.1⟩]
  simp only [if_neg hc.2.2, if_pos hn, usizeSub, if_pos hfit, bind_ok]
  exact ⟨_, _, rfl, rfl⟩

/-- A line that is not indented begins like any other text. -/
theorem Lexes.fresh {c : Char} {cs cs' : List Char} {kind : TokenKind} {fresh' : Bool}
    (h : Lexes std false (c :: cs) kind fresh' cs') (hc : c ≠ ' ' ∧ c ≠ '\t' ∧ c ≠ '\n') :
    Lexes std true (c :: cs) kind fresh' cs' := by
  intro cur hcur
  obtain ⟨span, cur', hnext, hfresh⟩ := h { cur with atLineStart := false } rfl
  refine ⟨span, cur', ?_, hfresh⟩
  have hcount := countIndent_spaces 0 ⟨hc.1, hc.2.1⟩ cs cur
  rw [List.replicate_zero, List.nil_append] at hcount
  rw [nextToken_inLine rfl] at hnext
  rw [nextToken, if_pos hcur, hcount, ← hnext]
  simp only [if_neg hc.2.2, lt_irrefl, if_false]
  rfl

end Ubl.Logline
