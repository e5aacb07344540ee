import Ubl.Logline.Lines

/-!
# The strings that come back without quotes

The parser puts the tokens behind a word together with single spaces between them.  So a value
comes back when it was spaced like that in the first place, it begins with a word, and every
part of it is written as it is displayed; or when the tokenizer takes it as a whole.
`serialize_parse_default_iff`: a document written with the default options is read back exactly
when each of its strings is written in quotes or is of this form.
-/

namespace Ubl.Logline

open ExceptLemmas Fueled
open Knock (isWhitespace)

variable {std : RustStd}

/-! ## The form of such strings -/

section Form

variable (std : RustStd)

/-- A word that is not one of the three. -/
def IsWord (w : List Char) : Prop :=
  IsIdentifier std w ∧ std.strToUppercase (String.ofList w) ∉ ["END", "TRUE", "FALSE"]

/-- A number that is written as it is displayed. -/
def IsDisplayed (w : List Char) : Prop :=
  IsNumeral std w [] ∧ ∃ n, std.parseF64 (String.ofList w) = some n ∧ (std.displayF64 n).toList = w

/-- Text that is one token to the end of the line. -/
def IsRest (cs : List Char) : Prop := StartsOther std cs ∧ trim cs = cs

/-- What may stand between the spaces behind a word. -/
def IsPart (w : List Char) : Prop :=
  IsWord std w ∨ IsDisplayed std w ∨ (∃ b, w = (displayBool b).toList) ∨ w = [':']

/-- What may stand behind a word and a space. -/
inductive Phrase : List Char → Prop
  | part {w : List Char} (h : IsPart std w) : Phrase w
  | rest {cs : List Char} (h : IsRest std cs) : Phrase cs
  | cons {w cs : List Char} (h : IsPart std w) (hs : Phrase cs) : Phrase (w ++ ' ' :: cs)

/-- A value that comes back. -/
inductive Bare : List Char → Prop
  | word {w : List Char} (h : IsWord std w) : Bare w
  | rest {cs : List Char} (h : IsRest std cs) : Bare cs
  | phrase {w cs : List Char} (h : IsWord std w) (hs : Phrase std cs) : Bare (w ++ ' ' :: cs)

/-- Nothing, or a space and more. -/
def Spaced (cs : List Char) : Prop := cs = [] ∨ ∃ cs', cs = ' ' :: cs' ∧ Phrase std cs'

/-! ## The first part of a text -/

/-- A colon, a number or a word, and what is left. -/
def firstPart : List Char → List Char × List Char
  | [] => ([], [])
  | c :: cs =>
    if c = ':' then ([':'], cs)
    else if startsNumber std (c :: cs) then numberChars std (c :: cs)
    else ((c :: cs).takeWhile (isIdentifierChar std), (c :: cs).dropWhile (isIdentifierChar std))

end Form

/-- No word is a number. -/
theorem startsNumber_identifier {w : List Char} (h : IsIdentifier std w) (cs : List Char) :
    startsNumber std (w ++ cs) = false := by
  obtain ⟨⟨c, hc, hword, hnumeric⟩, -⟩ := h
  cases w with
  | nil => cases hc
  | cons d w =>
    obtain rfl := Option.some.inj hc
    simp [startsNumber, hnumeric, startsWord_ne_minus hword]

theorem IsIdentifier.not_isNumeral {w cs : List Char} (h : IsIdentifier std w) :
    ¬ IsNumeral std w cs := by
  rintro ⟨hstarts, -⟩
  rw [startsNumber_identifier h] at hstarts
  cases hstarts

theorem firstPart_word {w cs : List Char} (hw : IsIdentifier std w)
    (hcs : StopsAt (isIdentifierChar std) cs) :
    firstPart std (w ++ cs) = (w, cs) ∧ ¬ StartsOther std (w ++ cs) := by
  obtain ⟨htake, hdrop⟩ := takeWhile_of_stopsAt hw.chars hcs
  have hw' := hw
  obtain ⟨⟨c, hc, hword, -⟩, hchars⟩ := hw
  cases w with
  | nil => cases hc
  | cons d w =>
    obtain rfl := Option.some.inj hc
    have hcolon : d ≠ ':' := by
      rintro rfl
      cases isStructural_of_identifierChar (hchars _ List.mem_cons_self)
    have hnumber : startsNumber std (d :: (w ++ cs)) = false := startsNumber_identifier hw' cs
    rw [List.cons_append] at htake hdrop ⊢
    refine ⟨?_, fun hother => ?_⟩
    · rw [firstPart, if_neg hcolon, if_neg (by simp [hnumber]), htake, hdrop]
    · exact absurd hword (by simp [hother.2.2])

theorem firstPart_numeral {w cs : List Char} (h : IsNumeral std w cs) :
    firstPart std (w ++ cs) = (w, cs) ∧ ¬ StartsOther std (w ++ cs) := by
  obtain ⟨hstarts, hchars⟩ := h
  generalize w ++ cs = text at hstarts hchars
  cases text with
  | nil => cases hstarts
  | cons c text =>
    have hcolon : c ≠ ':' := by
      rintro rfl
      cases isStructural_of_identifierChar (isIdentifierChar_of_startsNumber hstarts)
    refine ⟨?_, fun hother => ?_⟩
    · rw [firstPart, if_neg hcolon, if_pos hstarts, hchars]
    · exact absurd hstarts (by simp [hother.2.1])

theorem firstPart_colon (cs : List Char) :
    firstPart std (':' :: cs) = ([':'], cs) ∧ ¬ StartsOther std (':' :: cs) :=
  ⟨rfl, fun h => by cases h.1⟩

/-- Text behind a part: none, or a space. -/
def StopsPart (cs : List Char) : Prop := ∀ c ∈ cs.head?, c = ' '

theorem StopsPart.identifier {cs : List Char} (h : StopsPart cs) :
    StopsAt (isIdentifierChar std) cs := by
  cases cs with
  | nil => intro c hc; cases hc
  | cons c cs =>
    obtain rfl := h c rfl
    exact stopsAt_structural rfl cs

theorem StopsPart.number {cs : List Char} (h : StopsPart cs) : StopsNumber std cs := by
  cases cs with
  | nil => intro c hc; cases hc
  | cons c cs => exact .cons (.inr (h c rfl)) cs

theorem firstPart_part {w cs : List Char} (hw : IsPart std w) (hcs : StopsPart cs) :
    firstPart std (w ++ cs) = (w, cs) ∧ ¬ StartsOther std (w ++ cs) := by
  rcases hw with hw | ⟨hw, -⟩ | ⟨b, rfl⟩ | rfl
  · exact firstPart_word hw.1 hcs.identifier
  · exact firstPart_numeral (hw.append hcs.number)
  · exact firstPart_word (isIdentifier_bool b) hcs.identifier
  · exact firstPart_colon cs

section FirstPart

variable {w cs : List Char} (hfirst : firstPart std (w ++ cs) = (w, cs))
  (hother : ¬ StartsOther std (w ++ cs))

include hfirst hother

/-- A text falls into the parts that a phrase has. -/
theorem phrase_iff : Phrase std (w ++ cs) ↔ IsPart std w ∧ Spaced std cs := by
  constructor
  · intro h
    generalize htext : w ++ cs = text at h hfirst hother
    cases h with
    | part h =>
      have hpart := (@firstPart_part std _ [] h (by simp [StopsPart])).1
      rw [List.append_nil, hfirst] at hpart
      obtain ⟨rfl, rfl⟩ := Prod.mk.inj hpart
      exact ⟨h, .inl rfl⟩
    | rest h => exact absurd h.1 hother
    | @cons w' cs' h hs =>
      have hpart := (@firstPart_part std _ (' ' :: cs') h (by simp [StopsPart])).1
      rw [hfirst] at hpart
      obtain ⟨rfl, rfl⟩ := Prod.mk.inj hpart
      exact ⟨h, .inr ⟨_, rfl, hs⟩⟩
  · rintro ⟨h, rfl | ⟨cs', rfl, hs⟩⟩
    · rw [List.append_nil]
      exact .part h
    · exact .cons h hs

theorem bare_iff : Bare std (w ++ cs) ↔ IsWord std w ∧ Spaced std cs := by
  constructor
  · intro h
    generalize htext : w ++ cs = text at h hfirst hother
    cases h with
    | word h =>
      have hpart := (@firstPart_part std _ [] (.inl h) (by simp [StopsPart])).1
      rw [List.append_nil, hfirst] at hpart
      obtain ⟨rfl, rfl⟩ := Prod.mk.inj hpart
      exact ⟨h, .inl rfl⟩
    | rest h => exact absurd h.1 hother
    | @phrase w' cs' h hs =>
      have hpart := (@firstPart_part std _ (' ' :: cs') (.inl h) (by simp [StopsPart])).1
      rw [hfirst] at hpart
      obtain ⟨rfl, rfl⟩ := Prod.mk.inj hpart
      exact ⟨h, .inr ⟨_, rfl, hs⟩⟩
  · rintro ⟨h, rfl | ⟨cs', rfl, hs⟩⟩
    · rw [List.append_nil]
      exact .word h
    · exact .phrase h hs

end FirstPart

/-! ## What the parser puts together -/

/-- The parts of the tokens, each behind a space, up to the first token that has none. -/
def tailText (std : RustStd) : List TokenKind → List Char
  | [] => []
  | kind :: kinds =>
    match textPart std kind with
    | none => []
    | some parts => parts.flatMap (' ' :: ·.toList) ++ tailText std kinds

/-- A word is one of the three or itself. -/
theorem wordKind_cases (w : List Char) :
    (std.strToUppercase (String.ofList w) = "END" ∧ wordKind std (String.ofList w) = .endMarker) ∨
      (∃ b, std.strToUppercase (String.ofList w) = (if b then "TRUE" else "FALSE") ∧
        wordKind std (String.ofList w) = .boolean b) ∨
      std.strToUppercase (String.ofList w) ∉ ["END", "TRUE", "FALSE"] ∧
        wordKind std (String.ofList w) = .identifier (String.ofList w) := by
  unfold wordKind
  split
  · next heq => exact .inl ⟨heq, rfl⟩
  · next heq => exact .inr (.inl ⟨true, heq, rfl⟩)
  · next heq => exact .inr (.inl ⟨false, heq, rfl⟩)
  · next hend htrue hfalse => exact .inr (.inr ⟨by simp only [List.mem_cons, List.not_mem_nil, or_false, not_or]; exact ⟨hend, htrue, hfalse⟩, rfl⟩)

theorem IsToken.firstPart {w cs : List Char} {kind : TokenKind} (h : IsToken std w kind cs) :
    firstPart std (w ++ cs) = (w, cs) ∧ ¬ StartsOther std (w ++ cs) := by
  cases h with
  | colon => exact firstPart_colon cs
  | word hw hcs => exact firstPart_word hw hcs
  | number hw hparse => exact firstPart_numeral hw

/-- The text begins with something other than a space. -/
def Starts (cs : List Char) : Prop := ∃ c ∈ cs.head?, c ≠ ' '

theorem Starts.append {w : List Char} (h : Starts w) (cs : List Char) : Starts (w ++ cs) := by
  obtain ⟨c, hc, hne⟩ := h
  cases w with
  | nil => cases hc
  | cons d w => exact ⟨c, hc, hne⟩

theorem Starts.ne_space {cs : List Char} (h : Starts cs) (t : List Char) : cs ≠ ' ' :: t := by
  rintro rfl
  obtain ⟨c, hc, hne⟩ := h
  exact hne (Option.some.inj hc).symm

theorem not_starts_nil : ¬ Starts [] := by
  rintro ⟨c, hc, -⟩
  cases hc

/-! ## How a number is displayed -/

theorem numberTail_stop {hasDot : Bool} {t : List Char} (ht : StopsNumber std t) :
    numberTail std hasDot t = ([], t) := numberTail_stops ht []

theorem numberTail_decimal {ds : List Char} (h : Decimal ds) {t : List Char}
    (ht : StopsNumber std t) : numberTail std false (ds ++ t) = (ds, t) := by
  rcases h with h | ⟨whole, frac, hwhole, hfrac, rfl⟩
  · rw [numberTail_digits (isNumeric_of_digits h), numberTail_stop ht, List.append_nil]
  · have hpoint : numberTail std false ('.' :: (frac ++ t)) = ('.' :: frac, t) := by
      have hne := hfrac.1
      have hdigits := @isNumeric_of_digits std _ hfrac
      have hhead : (frac ++ t).head?.any std.isNumeric := by
        cases frac with
        | nil => exact absurd rfl hne
        | cons d frac => exact hdigits d List.mem_cons_self
      rw [numberTail, if_neg (by simp [std.isNumeric_ascii]), if_pos (by simpa using hhead),
        numberTail_digits hdigits, numberTail_stop ht, List.append_nil]
    rw [List.append_assoc, List.cons_append, numberTail_digits (isNumeric_of_digits hwhole), hpoint]

/-- A decimal begins with a digit. -/
theorem Decimal.eq_cons {ds : List Char} (h : Decimal ds) : ∃ d ds', ds = d :: ds' ∧ d.isDigit := by
  have hdigits : ∀ {ds : List Char}, Digits ds → ∃ d ds', ds = d :: ds' ∧ d.isDigit := by
    rintro ds ⟨hne, hds⟩
    cases ds with
    | nil => exact absurd rfl hne
    | cons d ds => exact ⟨d, ds, rfl, hds d List.mem_cons_self⟩
  rcases h with h | ⟨whole, frac, hwhole, -, rfl⟩
  · exact hdigits h
  · obtain ⟨d, ds', rfl, hd⟩ := hdigits hwhole
    exact ⟨d, _, rfl, hd⟩

theorem displayF64_starts (n : F64) : Starts (std.displayF64 n).toList := by
  rcases std.displayF64_form n with h | h | ⟨cs, h, -⟩
  · simp only [List.mem_cons, List.not_mem_nil, or_false] at h
    rcases h with h | h | h <;> simp [h, Starts]
  · obtain ⟨d, ds, hds, hd⟩ := h.eq_cons
    rw [hds]
    refine ⟨d, rfl, ?_⟩
    rintro rfl
    cases hd
  · rw [h]
    exact ⟨'-', rfl, by decide⟩

/-- Where a number is displayed, that number is read. -/
theorem numberChars_displayF64 (n : F64) {t : List Char} (ht : StopsNumber std t)
    (hstarts : startsNumber std ((std.displayF64 n).toList ++ t)) :
    numberChars std ((std.displayF64 n).toList ++ t) = ((std.displayF64 n).toList, t) := by
  rcases std.displayF64_form n with h | h | ⟨cs, h, hcs⟩
  · simp only [List.mem_cons, List.not_mem_nil, or_false] at h
    rcases h with h | h | h <;> simp [h, startsNumber, std.isNumeric_ascii] at hstarts
  · have htail := numberTail_decimal h ht
    obtain ⟨d, ds, hds, hd⟩ := h.eq_cons
    rw [hds] at htail ⊢
    rw [List.cons_append] at htail ⊢
    rw [numberChars_cons std (by rintro rfl; cases hd), htail]
  · rw [h, List.cons_append, numberChars, numberTail_decimal hcs ht]

/-- A token is displayed as `d` where it is part of a text. -/
structure Shows (std : RustStd) (w cs d : List Char) : Prop where
  starts : Starts d
  isPart : d = w ↔ IsPart std w
  ends : ∀ t, StopsPart t → d ++ t = w ++ cs → d = w

/-- A word is no number and no colon; in upper case it is one of the three or not. -/
theorem isPart_identifier {w : List Char} (hw : IsIdentifier std w) :
    IsPart std w ↔ std.strToUppercase (String.ofList w) ∉ ["END", "TRUE", "FALSE"] ∨
      ∃ b, w = (displayBool b).toList := by
  constructor
  · rintro (h | h | h | rfl)
    · exact .inl h.2
    · exact absurd h.1 hw.not_isNumeral
    · exact .inr h
    · cases isStructural_of_identifierChar (hw.chars ':' List.mem_cons_self)
  · rintro (h | h)
    · exact .inl ⟨hw, h⟩
    · exact .inr (.inr (.inl h))

theorem strToUppercase_displayBool (b : Bool) :
    std.strToUppercase (displayBool b) = if b then "TRUE" else "FALSE" := by
  have hkind := @wordKind_bool std b
  rcases @wordKind_cases std (displayBool b).toList with h | ⟨b', h⟩ | h <;>
    rw [String.ofList_toList, hkind] at h
  · cases h.2
  · obtain ⟨hupper, heq⟩ := h
    cases heq
    exact hupper
  · cases h.2

/-- `true` and `false` end where the word ends. -/
theorem displayBool_ends {b : Bool} {w cs : List Char} (hw : IsIdentifier std w)
    (hcs : StopsAt (isIdentifierChar std) cs) (t : List Char) (ht : StopsPart t)
    (heq : (displayBool b).toList ++ t = w ++ cs) : (displayBool b).toList = w := by
  have htake := (takeWhile_of_stopsAt (@isIdentifier_bool std b).chars ht.identifier).1
  rw [heq, (takeWhile_of_stopsAt hw.chars hcs).1] at htake
  exact htake.symm

theorem IsIdentifier.starts_ne_space {w : List Char} (h : IsIdentifier std w) : Starts w := by
  obtain ⟨⟨c, hc, -⟩, hchars⟩ := h
  refine ⟨c, hc, ?_⟩
  rintro rfl
  cases isStructural_of_identifierChar (hchars _ (List.mem_of_mem_head? hc))

/-- A digit that stands first is part of the numeral. -/
theorem numberTail_head {hasDot : Bool} {w cs : List Char}
    (h : numberTail std hasDot (w ++ cs) = (w, cs))
    (hhead : (w ++ cs).head?.any std.isNumeric) : w.head?.any std.isNumeric := by
  cases w with
  | cons d w => exact hhead
  | nil =>
    cases cs with
    | nil => exact hhead
    | cons d cs =>
      have hd : std.isNumeric d := by simpa using hhead
      rw [List.nil_append, numberTail, if_pos hd] at h
      cases (Prod.mk.inj h).1

/-- A numeral ends where it is read to. -/
theorem numberTail_closed {hasDot : Bool} {w cs : List Char}
    (h : numberTail std hasDot (w ++ cs) = (w, cs)) : numberTail std hasDot w = (w, []) := by
  induction w generalizing hasDot with
  | nil => rfl
  | cons c w ih =>
    rw [List.cons_append, numberTail] at h
    rw [numberTail]
    split_ifs at h with hnumeric hdot
    · obtain ⟨hw, hcs⟩ := Prod.mk.inj h
      rw [if_pos hnumeric, ih (Prod.ext (List.cons.inj hw).2 hcs)]
    · obtain ⟨hw, hcs⟩ := Prod.mk.inj h
      have htail : numberTail std true (w ++ cs) = (w, cs) := Prod.ext (List.cons.inj hw).2 hcs
      rw [Bool.and_eq_true] at hdot
      have hhead := numberTail_head htail hdot.2
      rw [if_neg hnumeric, if_pos (by rw [hdot.1, hhead]; rfl), ih htail]
    · cases (Prod.mk.inj h).1

theorem IsNumeral.closed {w cs : List Char} (h : IsNumeral std w cs) : IsNumeral std w [] := by
  obtain ⟨hstarts, hchars⟩ := h
  have hne : w ≠ [] := by
    have := numberChars_ne_nil hstarts
    rwa [hchars] at this
  unfold IsNumeral
  rw [List.append_nil]
  cases w with
  | nil => exact absurd rfl hne
  | cons c w =>
    rw [List.cons_append] at hstarts hchars
    by_cases hc : c = '-'
    · subst hc
      have htail : numberTail std false (w ++ cs) = (w, cs) := by
        obtain ⟨hw, hcs⟩ := Prod.mk.inj hchars
        exact Prod.ext (List.cons.inj hw).2 hcs
      have hminus : std.isNumeric '-' = false := std.isNumeric_ascii '-' (by decide)
      rw [startsNumber, hminus, Bool.false_or] at hstarts ⊢
      rw [numberChars, numberTail_closed htail]
      exact ⟨numberTail_head htail hstarts, rfl⟩
    · rw [numberChars_cons std hc] at hchars ⊢
      refine ⟨?_, numberTail_closed hchars⟩
      simpa [startsNumber, hc] using hstarts

theorem IsToken.shows {w cs : List Char} {kind : TokenKind} (h : IsToken std w kind cs) :
    (textPart std kind = none ∧ ¬ IsPart std w) ∨
      ∃ s, textPart std kind = some [s] ∧ Shows std w cs s.toList := by
  cases h with
  | colon =>
    exact .inr ⟨":", rfl, ⟨':', rfl, by decide⟩,
      iff_of_true rfl (.inr (.inr (.inr rfl))), fun _ _ _ => rfl⟩
  | word hw hcs =>
    have hpart := isPart_identifier hw
    rcases @wordKind_cases std w with ⟨hupper, hkind⟩ | ⟨b, hupper, hkind⟩ | ⟨hupper, hkind⟩ <;>
      rw [hkind]
    · refine .inl ⟨rfl, fun h => ?_⟩
      rcases hpart.mp h with h | ⟨b, rfl⟩
      · exact h (by simp [hupper])
      · rw [String.ofList_toList, strToUppercase_displayBool] at hupper
        cases b <;> simp at hupper
    · refine .inr ⟨_, rfl, (@isIdentifier_bool std b).starts_ne_space, ?_,
        fun t ht => displayBool_ends hw hcs t ht⟩
      rw [hpart]
      refine ⟨fun h => .inr ⟨b, h.symm⟩, ?_⟩
      rintro (h | ⟨b', rfl⟩)
      · exact absurd (by cases b <;> simp [hupper]) h
      · rw [String.ofList_toList, strToUppercase_displayBool] at hupper
        cases b <;> cases b' <;> first | rfl | simp at hupper
    · refine .inr ⟨_, rfl, ?_⟩
      rw [String.toList_ofList]
      exact ⟨hw.starts_ne_space, iff_of_true rfl (hpart.mpr (.inl hupper)), fun _ _ _ => rfl⟩
  | @number _ _ n hw hparse =>
    refine .inr ⟨_, rfl, displayF64_starts n, ⟨fun h => ?_, ?_⟩, fun t ht heq => ?_⟩
    · exact .inr (.inl ⟨hw.closed, n, hparse, h⟩)
    · rintro (h | ⟨-, n', hparse', h⟩ | ⟨b, rfl⟩ | rfl)
      · exact absurd hw h.1.not_isNumeral
      · obtain rfl := Option.some.inj (hparse.symm.trans hparse')
        exact h
      · exact absurd hw (isIdentifier_bool b).not_isNumeral
      · have hstarts := hw.closed.1
        simp [startsNumber, std.isNumeric_ascii] at hstarts
    · obtain ⟨hstarts, hchars⟩ := hw
      rw [← heq] at hstarts hchars
      rw [numberChars_displayF64 n ht.number hstarts] at hchars
      exact (Prod.mk.inj hchars).1

/-! ## When that is the text itself -/

theorem Starts.not_spaced {cs : List Char} (h : Starts cs) : ¬ Spaced std cs := by
  rintro (rfl | ⟨cs', rfl, -⟩)
  · exact not_starts_nil h
  · exact h.ne_space cs' rfl

theorem IsNumeral.starts {w cs : List Char} (h : IsNumeral std w cs) : Starts w := by
  obtain ⟨hstarts, -⟩ := h.closed
  rw [List.append_nil] at hstarts
  cases w with
  | nil => cases hstarts
  | cons c w =>
    refine ⟨c, rfl, ?_⟩
    rintro rfl
    cases isStructural_of_identifierChar (isIdentifierChar_of_startsNumber hstarts)

theorem StartsOther.starts {cs : List Char} (h : StartsOther std cs) : Starts cs := by
  cases cs with
  | nil => exact h.elim
  | cons c cs =>
    refine ⟨c, rfl, ?_⟩
    rintro rfl
    cases h.1

theorem IsPart.starts {w : List Char} (h : IsPart std w) : Starts w := by
  rcases h with h | h | ⟨b, rfl⟩ | rfl
  · exact h.1.starts_ne_space
  · exact h.1.starts
  · exact (@isIdentifier_bool std b).starts_ne_space
  · exact ⟨':', rfl, by decide⟩

theorem Phrase.starts {cs : List Char} (h : Phrase std cs) : Starts cs := by
  cases h with
  | part h => exact h.starts
  | rest h => exact h.1.starts
  | cons h _ => exact h.starts.append _

theorem IsToken.starts {w cs : List Char} {kind : TokenKind} (h : IsToken std w kind cs) :
    Starts w := by
  cases h with
  | colon => exact ⟨':', rfl, by decide⟩
  | word hw _ => exact hw.starts_ne_space
  | number hw _ => exact hw.starts

theorem starts_trim {cs : List Char} (h : trim cs ≠ []) : Starts (trim cs) := by
  have hprefix : trim cs <+: cs.dropWhile isWhitespace := List.rdropWhile_prefix isWhitespace _
  obtain ⟨t, ht⟩ := hprefix
  cases htrim : trim cs with
  | nil => exact absurd htrim h
  | cons c cs' =>
    have hhead := List.head?_dropWhile_not isWhitespace cs
    rw [← ht, htrim] at hhead
    refine ⟨c, rfl, ?_⟩
    rintro rfl
    cases hhead

/-- Text that is taken as a whole is no phrase of more than one part. -/
theorem StartsOther.phrase_iff {cs : List Char} (h : StartsOther std cs) :
    Phrase std cs ↔ trim cs = cs := by
  refine ⟨fun hphrase => ?_, fun htrim => .rest ⟨h, htrim⟩⟩
  cases hphrase with
  | part hpart =>
    have := (@firstPart_part std _ [] hpart (by simp [StopsPart])).2
    rw [List.append_nil] at this
    exact absurd h this
  | rest h => exact h.2
  | cons hpart _ => exact absurd h (firstPart_part hpart (by simp [StopsPart])).2

theorem tailText_some {kind : TokenKind} {s : String} (h : textPart std kind = some [s])
    (kinds : List TokenKind) :
    tailText std (kind :: kinds) = ' ' :: (s.toList ++ tailText std kinds) := by
  simp [tailText, h]

theorem tailText_none {kind : TokenKind} (h : textPart std kind = none) (kinds : List TokenKind) :
    tailText std (kind :: kinds) = [] := by
  simp [tailText, h]

/-- It is nothing, or a single space and more. -/
theorem tailText_cases {cs : List Char} {kinds : List TokenKind} (h : Line std cs kinds) :
    tailText std kinds = [] ∨ ∃ t, tailText std kinds = ' ' :: t ∧ Starts t := by
  induction h with
  | nil => exact .inl rfl
  | space _ ih => exact ih
  | token hw _ _ =>
    rcases hw.shows with ⟨hnone, -⟩ | ⟨s, hsome, hshows⟩
    · exact .inl (tailText_none hnone _)
    · exact .inr ⟨_, tailText_some hsome _, Starts.append hshows.starts _⟩
  | @other cs hcs htrim =>
    refine .inr ⟨_, tailText_some rfl [], ?_⟩
    rw [String.toList_ofList]
    exact Starts.append (starts_trim htrim) _

theorem tailText_stops {cs : List Char} {kinds : List TokenKind} (h : Line std cs kinds) :
    StopsPart (tailText std kinds) := by
  rcases tailText_cases h with hnil | ⟨t, hcons, -⟩
  · rw [hnil]; intro c hc; cases hc
  · rw [hcons]; intro c hc; exact (Option.some.inj hc).symm

/-- The text comes back behind a word, with its space or in front of it. -/
theorem tailText_iff {cs : List Char} {kinds : List TokenKind} (h : Line std cs kinds) :
    (tailText std kinds = cs ↔ Spaced std cs) ∧
      (tailText std kinds = ' ' :: cs ↔ Phrase std cs) := by
  induction h with
  | nil =>
    refine ⟨iff_of_true rfl (.inl rfl), iff_of_false (by simp [tailText]) fun h => ?_⟩
    exact not_starts_nil h.starts
  | @space cs kinds h ih =>
    refine ⟨ih.2.trans ⟨fun h => .inr ⟨cs, rfl, h⟩, ?_⟩, iff_of_false ?_ ?_⟩
    · rintro (hnil | ⟨cs', heq, h⟩)
      · cases hnil
      · obtain rfl := (List.cons.inj heq).2
        exact h
    · intro heq
      rcases tailText_cases h with hnil | ⟨t, hcons, hstarts⟩
      · rw [hnil] at heq
        cases heq
      · rw [hcons] at heq
        exact hstarts.ne_space _ (List.cons.inj heq).2
    · exact fun hphrase => hphrase.starts.ne_space cs rfl
  | @token w cs kind kinds hw h ih =>
    have hstarts := hw.starts.append cs
    refine ⟨iff_of_false ?_ hstarts.not_spaced, ?_⟩
    · intro heq
      rcases tailText_cases (h.token hw) with hnil | ⟨t, hcons, -⟩
      · exact not_starts_nil (hnil ▸ heq ▸ hstarts)
      · exact hstarts.ne_space t (heq.symm.trans hcons)
    · obtain ⟨hfirst, hother⟩ := hw.firstPart
      rw [phrase_iff hfirst hother]
      rcases hw.shows with ⟨hnone, hpart⟩ | ⟨s, hsome, hshows⟩
      · rw [tailText_none hnone]
        exact iff_of_false (by simp) fun h => hpart h.1
      · rw [tailText_some hsome, List.cons_inj_right, ← hshows.isPart, ← ih.1]
        constructor
        · intro heq
          have hd := hshows.ends _ (tailText_stops h) heq
          rw [hd] at heq
          exact ⟨hd, List.append_cancel_left heq⟩
        · rintro ⟨hd, htail⟩
          rw [hd, htail]
  | @other cs hcs htrim =>
    rw [tailText_some rfl, String.toList_ofList, hcs.phrase_iff]
    refine ⟨iff_of_false (fun heq => ?_) hcs.starts.not_spaced, ?_⟩
    · exact hcs.starts.ne_space _ heq.symm
    · rw [List.cons_inj_right, tailText, List.append_nil]

/-! ## The parser over a line -/

theorem toList_intercalate_cons (w : String) (parts : List String) :
    (" ".intercalate (w :: parts)).toList = w.toList ++ parts.flatMap (' ' :: ·.toList) := by
  induction parts generalizing w with
  | nil => simp
  | cons part parts ih =>
    rw [String.intercalate_cons_cons, String.toList_append, String.toList_append, ih]
    simp

section Parts

variable {newline : Span} {rest : List Token}

theorem textParts_tail (tokens : List Token) :
    (textParts std (tokens ++ ⟨.newline, newline⟩ :: rest)).1.flatMap (' ' :: ·.toList) =
      tailText std (tokens.map Token.kind) := by
  induction tokens with
  | nil => rfl
  | cons token tokens ih =>
    rw [List.cons_append, textParts, List.map_cons, tailText]
    cases textPart std token.kind with
    | none => rfl
    | some part => simp only [List.flatMap_append, ih]

/-- The parts go on to the end of the line. -/
theorem textParts_rest {tokens : List Token}
    (h : ∀ kind ∈ tokens.map Token.kind, textPart std kind ≠ none) :
    (textParts std (tokens ++ ⟨.newline, newline⟩ :: rest)).2 = ⟨.newline, newline⟩ :: rest := by
  induction tokens with
  | nil => rfl
  | cons token tokens ih =>
    obtain ⟨hpart, hparts⟩ := List.forall_mem_cons.mp h
    rw [List.cons_append, textParts]
    cases hkind : textPart std token.kind with
    | none => exact absurd hkind hpart
    | some part => exact ih hparts

theorem line_parts {cs : List Char} {kinds : List TokenKind} (h : Line std cs kinds)
    (hcs : Spaced std cs ∨ Phrase std cs) : ∀ kind ∈ kinds, textPart std kind ≠ none := by
  induction h with
  | nil => exact List.forall_mem_nil _
  | space _ ih =>
    rcases hcs with (hnil | ⟨cs', heq, hphrase⟩) | hphrase
    · cases hnil
    · obtain rfl := (List.cons.inj heq).2
      exact ih (.inr hphrase)
    · exact absurd rfl (hphrase.starts.ne_space _)
  | token hw _ ih =>
    have hphrase := hcs.resolve_left (hw.starts.append _).not_spaced
    obtain ⟨hpart, hspaced⟩ := (phrase_iff hw.firstPart.1 hw.firstPart.2).mp hphrase
    refine List.forall_mem_cons.mpr ⟨?_, ih (.inl hspaced)⟩
    rcases hw.shows with ⟨-, hnot⟩ | ⟨s, hsome, -⟩
    · exact absurd hpart hnot
    · simp [hsome]
  | other => exact List.forall_mem_singleton.mpr (by simp [textPart])

/-- A word goes on with the parts behind it; nothing else gives a text that is not empty. -/
theorem parsePlain_token {w cs : List Char} {kind : TokenKind} (hw : IsToken std w kind cs)
    {span : Span} (tokens : List Token) :
    (IsWord std w ∧ parsePlain std (⟨kind, span⟩ :: (tokens ++ ⟨.newline, newline⟩ :: rest)) =
        (.str (String.ofList (w ++ tailText std (tokens.map Token.kind))),
          (textParts std (tokens ++ ⟨.newline, newline⟩ :: rest)).2)) ∨
      ¬ IsWord std w ∧ ∀ t, (parsePlain std
        (⟨kind, span⟩ :: (tokens ++ ⟨.newline, newline⟩ :: rest))).1 = .str t → t = "" := by
  cases hw with
  | colon =>
    refine .inr ⟨fun h => ?_, fun t ht => (LogLineValue.str.inj ht).symm⟩
    cases isStructural_of_identifierChar (h.1.chars ':' List.mem_cons_self)
  | number hw _ =>
    exact .inr ⟨fun h => h.1.not_isNumeral hw, fun t ht => by cases ht⟩
  | word hw _ =>
    rcases @wordKind_cases std w with ⟨hupper, hkind⟩ | ⟨b, hupper, hkind⟩ | ⟨hupper, hkind⟩ <;>
      rw [hkind]
    · exact .inr ⟨fun h => h.2 (by simp [hupper]), fun t ht => (LogLineValue.str.inj ht).symm⟩
    · exact .inr ⟨fun h => h.2 (by cases b <;> simp [hupper]), fun t ht => by cases ht⟩
    · refine .inl ⟨⟨hw, hupper⟩, ?_⟩
      change (LogLineValue.str (" ".intercalate (String.ofList w ::
        (textParts std (tokens ++ ⟨.newline, newline⟩ :: rest)).1)), _) = _
      rw [← String.ofList_toList (s := " ".intercalate _), toList_intercalate_cons, textParts_tail,
        String.toList_ofList]

theorem Bare.starts {cs : List Char} (h : Bare std cs) : Starts cs := by
  cases h with
  | word h => exact h.1.starts_ne_space
  | rest h => exact h.1.starts
  | phrase h _ => exact Starts.append h.1.starts_ne_space _

/-- No value begins with a space. -/
theorem parsePlain_starts {cs : List Char} {kinds : List TokenKind} (h : Line std cs kinds)
    {tokens : List Token} (htokens : OfKinds tokens kinds) {t : String}
    (ht : (parsePlain std (tokens ++ ⟨.newline, newline⟩ :: rest)).1 = .str t) :
    t = "" ∨ Starts t.toList := by
  induction h with
  | nil =>
    obtain rfl := List.map_eq_nil_iff.mp htokens
    exact .inl (LogLineValue.str.inj ht).symm
  | space _ ih => exact ih htokens
  | @token w cs kind kinds hw h =>
    obtain ⟨span, tokens, rfl, -⟩ := htokens.cons
    rcases @parsePlain_token std newline rest _ _ _ hw _ tokens with ⟨-, heq⟩ | ⟨-, hempty⟩
    · rw [List.cons_append, heq] at ht
      obtain rfl := LogLineValue.str.inj ht
      rw [String.toList_ofList]
      exact .inr (hw.starts.append _)
    · exact .inl (hempty t ht)
  | @other cs hcs htrim =>
    obtain ⟨span, tokens, rfl, -⟩ := htokens.cons
    obtain rfl := LogLineValue.str.inj ht
    rw [String.toList_ofList]
    exact .inr (starts_trim htrim)

/-- A value comes back exactly if it is of the form, and then its line is used up. -/
theorem parsePlain_line {cs : List Char} {kinds : List TokenKind} (h : Line std cs kinds)
    (hne : cs ≠ []) {tokens : List Token} (htokens : OfKinds tokens kinds) :
    ((parsePlain std (tokens ++ ⟨.newline, newline⟩ :: rest)).1 = .str (String.ofList cs) ↔
        Bare std cs) ∧
      (Bare std cs → (parsePlain std (tokens ++ ⟨.newline, newline⟩ :: rest)).2 =
        ⟨.newline, newline⟩ :: rest) := by
  cases h with
  | nil => exact absurd rfl hne
  | @space cs _ h =>
    have hnot : ¬ Bare std (' ' :: cs) := fun hbare => hbare.starts.ne_space cs rfl
    refine ⟨iff_of_false (fun heq => ?_) hnot, fun hbare => absurd hbare hnot⟩
    rcases parsePlain_starts h htokens heq with hempty | hstarts
    · rw [← String.toList_inj, String.toList_ofList] at hempty
      cases hempty
    · rw [String.toList_ofList] at hstarts
      exact hstarts.ne_space cs rfl
  | @token w cs kind kinds hw h =>
    obtain ⟨span, tokens, rfl, hkinds⟩ := htokens.cons
    obtain ⟨hfirst, hother⟩ := hw.firstPart
    rw [bare_iff hfirst hother, ← (tailText_iff h).1]
    rcases @parsePlain_token std newline rest _ _ _ hw span tokens with
      ⟨hword, heq⟩ | ⟨hword, hempty⟩
    · rw [List.cons_append, heq, hkinds]
      constructor
      · constructor
        · intro hvalue
          have htext := congrArg String.toList (LogLineValue.str.inj hvalue)
          rw [String.toList_ofList, String.toList_ofList] at htext
          exact ⟨hword, List.append_cancel_left htext⟩
        · rintro ⟨-, htail⟩
          rw [htail]
      · rintro ⟨-, htail⟩
        have hparts := line_parts h (.inl ((tailText_iff h).1.mp htail))
        exact textParts_rest (hkinds ▸ hparts)
    · refine ⟨iff_of_false (fun hvalue => ?_) fun hbare => hword hbare.1,
        fun hbare => absurd hbare.1 hword⟩
      have htext : w ++ cs = [] := by simpa using congrArg String.toList (hempty _ hvalue)
      have hstarts := hw.starts.append cs
      rw [htext] at hstarts
      exact not_starts_nil hstarts
  | @other cs hcs htrim =>
    obtain ⟨span, tokens, rfl, hnil⟩ := htokens.cons
    obtain rfl := List.map_eq_nil_iff.mp hnil
    refine ⟨⟨fun hvalue => ?_, fun hbare => ?_⟩, fun _ => rfl⟩
    · have htext := congrArg String.toList (LogLineValue.str.inj hvalue)
      rw [String.toList_ofList, String.toList_ofList] at htext
      exact .rest ⟨hcs, htext⟩
    · have htext : trim cs = cs := by
        cases hbare with
        | word hword => exact hcs.phrase_iff.mp (.part (.inl hword))
        | rest h => exact h.2
        | phrase hword hs => exact hcs.phrase_iff.mp (.cons (.inl hword) hs)
      exact congrArg (fun cs => LogLineValue.str (String.ofList cs)) htext

end Parts

end Ubl.Logline
