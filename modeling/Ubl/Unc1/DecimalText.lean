import Ubl.Unc1.Exact

/-!
# The import of decimal text

`from_decimal_str` takes a leading minus off, splits the rest at its dots and puts the pieces
together, without a look at their characters.  Decimal numerals come out as the decimals they denote
while the length of the fraction fits a scale; of the other texts only those without a character
other than dots and minuses, or with two dots, are refused (`importsText_iff`).
-/

namespace Ubl.Unc1

open ExceptLemmas

/-! ## Pieces between dots -/

theorem splitDots_cons {c : Char} {cs part : List Char} {parts : List (List Char)}
    (h : splitDots cs = part :: parts) : splitDots (c :: cs) =
      if c = '.' then [] :: part :: parts else (c :: part) :: parts := by
  rw [splitDots, h]

theorem length_splitDots (cs : List Char) : (splitDots cs).length = cs.count '.' + 1 := by
  induction cs with
  | nil => rfl
  | cons c cs ih =>
    cases hsplit : splitDots cs with
    | nil =>
      rw [hsplit] at ih
      cases ih
    | cons part parts =>
      rw [hsplit] at ih
      rw [splitDots_cons hsplit]
      by_cases hdot : c = '.'
      · rw [if_pos hdot, hdot, List.count_cons_self, List.length_cons, ih]
      · rw [if_neg hdot, List.count_cons_of_ne hdot, ← ih]
        rfl

theorem splitDots_append {w f : List Char} (hw : '.' ∉ w) :
    splitDots (w ++ '.' :: f) = w :: splitDots f := by
  induction w with
  | nil =>
    cases hsplit : splitDots f with
    | nil =>
      have hlength := length_splitDots f
      rw [hsplit] at hlength
      cases hlength
    | cons part parts => rw [List.nil_append, splitDots_cons hsplit, if_pos rfl]
  | cons c w ih =>
    rw [List.mem_cons, not_or] at hw
    rw [List.cons_append, splitDots_cons (ih hw.2), if_neg (Ne.symm hw.1)]

theorem splitDots_of_not_mem {w : List Char} (hw : '.' ∉ w) : splitDots w = [w] := by
  induction w with
  | nil => rfl
  | cons c w ih =>
    rw [List.mem_cons, not_or] at hw
    rw [splitDots_cons (ih hw.2), if_neg (Ne.symm hw.1)]

/-! ## Decimal numerals -/

/-- Digits, with a minus before them and a fraction after them where there is one; the digits are
somewhere. -/
@[ext]
structure DecimalText where
  neg : Bool
  whole : List Char
  fraction : Option (List Char)
  digits : ∀ c ∈ whole ++ fraction.getD [], c.isDigit
  nonempty : whole ++ fraction.getD [] ≠ []

namespace DecimalText

variable (d : DecimalText)

def fractionDigits : List Char := d.fraction.getD []

def unsigned : List Char :=
  match d.fraction with
  | none => d.whole
  | some f => d.whole ++ '.' :: f

def chars : List Char := if d.neg then '-' :: d.unsigned else d.unsigned

/-- The number that the numeral denotes. -/
def value : ℚ :=
  (if d.neg then -1 else 1) * (Nat.ofDigitChars 10 d.whole 0 +
    Nat.ofDigitChars 10 d.fractionDigits 0 / 10 ^ d.fractionDigits.length)

/-- The number that the digits make without the dot. -/
def mantissa : ℤ :=
  let m : ℤ := Nat.ofDigitChars 10 (d.whole ++ d.fractionDigits) 0
  if d.neg then -m else m

theorem value_eq : d.value = d.mantissa / 10 ^ d.fractionDigits.length := by
  have hscale : (10 : ℚ) ^ d.fractionDigits.length ≠ 0 := by positivity
  have hdigits : (Nat.ofDigitChars 10 (d.whole ++ d.fractionDigits) 0 : ℚ) =
      10 ^ d.fractionDigits.length * Nat.ofDigitChars 10 d.whole 0 +
        Nat.ofDigitChars 10 d.fractionDigits 0 := by
    rw [Nat.ofDigitChars_append, Nat.ofDigitChars_eq_ofDigitChars_zero]
    push_cast
    rfl
  have hmantissa : (d.mantissa : ℚ) = (if d.neg then -1 else 1) *
      Nat.ofDigitChars 10 (d.whole ++ d.fractionDigits) 0 := by
    unfold mantissa
    split_ifs <;> simp
  rw [hmantissa, hdigits, value, mul_div_assoc, add_div, mul_div_cancel_left₀ _ hscale]

theorem isDigit_ne {c : Char} (h : c.isDigit) : c ≠ '.' ∧ c ≠ '-' := by
  constructor <;> rintro rfl <;> exact absurd h (by decide)

theorem dot_not_mem : '.' ∉ d.whole ∧ '.' ∉ d.fractionDigits := by
  constructor
  · exact fun h => (isDigit_ne (d.digits '.' (List.mem_append_left _ h))).1 rfl
  · exact fun h => (isDigit_ne (d.digits '.' (List.mem_append_right _ h))).1 rfl

theorem splitDots_unsigned : splitDots d.unsigned = d.whole :: d.fraction.toList := by
  obtain ⟨hwhole, hfraction⟩ := d.dot_not_mem
  unfold unsigned
  unfold fractionDigits at hfraction
  cases hf : d.fraction with
  | none => exact splitDots_of_not_mem hwhole
  | some f =>
    rw [hf, Option.getD_some] at hfraction
    rw [splitDots_append hwhole, splitDots_of_not_mem hfraction]
    rfl

theorem mem_unsigned {c : Char} (h : c ∈ d.whole ++ d.fractionDigits) : c ∈ d.unsigned := by
  unfold unsigned
  unfold fractionDigits at h
  cases hf : d.fraction with
  | none => simpa [hf] using h
  | some f =>
    simp only [hf, Option.getD_some, List.mem_append] at h
    simp only [List.mem_append, List.mem_cons]
    tauto

/-- Without the minus a numeral does not start with one. -/
theorem head_unsigned : d.unsigned.head? ≠ some '-' := by
  intro h
  have hhead (cs : List Char) (hcs : ∀ c ∈ cs, c.isDigit) : cs.head? ≠ some '-' := by
    cases cs with
    | nil => simp
    | cons c cs => simpa using (isDigit_ne (hcs c List.mem_cons_self)).2
  have hwhole := hhead d.whole fun c hc => d.digits c (List.mem_append_left _ hc)
  unfold unsigned at h
  cases hf : d.fraction with
  | none =>
    rw [hf] at h
    exact hwhole h
  | some f =>
    simp only [hf, List.head?_append, List.head?_cons] at h
    cases hw : d.whole.head? with
    | none =>
      rw [hw] at h
      exact absurd h (by decide)
    | some c =>
      rw [hw] at h hwhole
      exact hwhole h

end DecimalText

/-! ## What is accepted -/

/-- The text after a leading minus. -/
def unsignedChars (s : String) : List Char :=
  if s.toList.head? == some '-' then s.toList.drop 1 else s.toList

def signText (s : String) : String := if s.toList.head? == some '-' then "-" else ""

/-- Without digits or letters, or with more than one dot. -/
def Refused (s : String) : Prop :=
  (unsignedChars s).all (fun c => c == '.' || c == '-') = true ∨ 2 ≤ (unsignedChars s).count '.'

section Import

variable {s : String}

theorem fromDecimalStr_eq : fromDecimalStr s =
    if (unsignedChars s).all (fun c => c == '.' || c == '-') = true then .error "invalid_decimal"
    else
      match splitDots (unsignedChars s) with
      | [whole] => .ok (.dec (signText s ++ String.ofList whole) 0 none)
      | [whole, frac] =>
        .ok (.dec (signText s ++ String.ofList (whole ++ frac))
          (UInt32.ofNat (String.ofList frac).utf8ByteSize) none)
      | _ => .error "invalid_decimal" := by
  have hguard : ((unsignedChars s).isEmpty ||
      (unsignedChars s).all fun c => c == '.' || c == '-') =
        (unsignedChars s).all fun c => c == '.' || c == '-' := by
    cases unsignedChars s <;> rfl
  rw [← hguard]
  rfl

theorem isOk_fromDecimalStr : (fromDecimalStr s).isOk = true ↔ ¬ Refused s := by
  have hlength := length_splitDots (unsignedChars s)
  have hok (n : Num) : (Except.ok n : Except String Num).isOk = true := rfl
  have herror (e : String) : ¬ (Except.error e : Except String Num).isOk = true := nofun
  rw [fromDecimalStr_eq, Refused]
  split_ifs with hall
  · exact iff_of_false (herror _) (fun h => h (.inl hall))
  rw [or_iff_right hall]
  match hsplit : splitDots (unsignedChars s) with
  | [] =>
    rw [hsplit] at hlength
    cases hlength
  | [whole] =>
    rw [hsplit, List.length_singleton] at hlength
    exact iff_of_true (hok _) (by omega)
  | [whole, frac] =>
    rw [hsplit, List.length_cons, List.length_singleton] at hlength
    exact iff_of_true (hok _) (by omega)
  | whole :: frac :: piece :: pieces =>
    rw [hsplit, List.length_cons, List.length_cons, List.length_cons] at hlength
    exact iff_of_false (herror _) (by omega)

/-- The length of digits in bytes. -/
theorem utf8ByteSize_digits {ds : List Char} (h : ∀ c ∈ ds, c.isDigit) :
    (String.ofList ds).utf8ByteSize = ds.length := by
  rw [String.utf8ByteSize_ofList]
  induction ds with
  | nil => rfl
  | cons c ds ih =>
    have hc : c.isDigit := h c List.mem_cons_self
    have hsize : c.utf8Size = 1 :=
      if_pos (UInt32.le_iff_toNat_le.mpr ((Numeral.isDigit_bounds hc).2.trans (by decide)))
    rw [String.utf8Len, ih fun c hc => h c (List.mem_cons_of_mem _ hc), hsize, List.length_cons]

variable {d : DecimalText}

theorem unsignedChars_text (h : d.chars = s.toList) :
    unsignedChars s = d.unsigned ∧ signText s = if d.neg then "-" else "" := by
  unfold unsignedChars signText
  rw [← h, DecimalText.chars]
  cases d.neg
  · have hhead : ¬ (d.unsigned.head? == some '-') = true := by
      simpa using d.head_unsigned
    simp [hhead]
  · simp

/-- A text is a numeral in one way only. -/
theorem chars_injective {d' : DecimalText} (h : d.chars = s.toList) (h' : d'.chars = s.toList) :
    d = d' := by
  obtain ⟨hunsigned, hsign⟩ := unsignedChars_text h
  obtain ⟨hunsigned', hsign'⟩ := unsignedChars_text h'
  have hsplit := d.splitDots_unsigned
  rw [← hunsigned, hunsigned', d'.splitDots_unsigned, List.cons.injEq] at hsplit
  have hneg : d.neg = d'.neg := by
    rw [hsign] at hsign'
    cases hd : d.neg <;> cases hd' : d'.neg <;> simp_all
  have hfraction : d.fraction = d'.fraction := by
    have htoList := hsplit.2
    cases hd : d.fraction <;> cases hd' : d'.fraction <;> simp_all
  exact DecimalText.ext hneg hsplit.1.symm hfraction

/-- A numeral is taken to its digits, with the length of the fraction as the scale. -/
theorem fromDecimalStr_text (h : d.chars = s.toList) : fromDecimalStr s =
    .ok (.dec ((if d.neg then "-" else "") ++ String.ofList (d.whole ++ d.fractionDigits))
      (UInt32.ofNat d.fractionDigits.length) none) := by
  obtain ⟨hunsigned, hsign⟩ := unsignedChars_text h
  have hall : ¬ d.unsigned.all (fun c => c == '.' || c == '-') = true := by
    obtain ⟨c, hc⟩ := List.exists_mem_of_ne_nil _ d.nonempty
    have hne := DecimalText.isDigit_ne (d.digits c hc)
    intro hall
    have hor := List.all_eq_true.mp hall c (d.mem_unsigned hc)
    simp [hne.1, hne.2] at hor
  have hdigits : ∀ c ∈ d.fractionDigits, c.isDigit :=
    fun c hc => d.digits c (List.mem_append_right _ hc)
  rw [fromDecimalStr_eq, hunsigned, hsign, if_neg hall, d.splitDots_unsigned]
  unfold DecimalText.fractionDigits at hdigits ⊢
  cases hf : d.fraction with
  | none => simp
  | some f =>
    rw [hf, Option.getD_some] at hdigits
    simp only [Option.toList_some, Option.getD_some]
    rw [utf8ByteSize_digits hdigits]

end Import

/-! ## The values -/

/-- Digits after an optional minus are read as the integer they denote. -/
def ReadsDigits (parse : String → Except String Int) : Prop :=
  ∀ (neg : Bool) (ds : List Char), ds ≠ [] → (∀ c ∈ ds, c.isDigit) →
    parse ((if neg then "-" else "") ++ String.ofList ds) =
      .ok (if neg then -(Nat.ofDigitChars 10 ds 0 : ℤ) else Nat.ofDigitChars 10 ds 0)

/-- The decimal numerals are accepted and nothing else, and a numeral has the number it denotes as
its value. -/
def ImportsText (parse : String → Except String Int) (s : String) : Prop :=
  ((fromDecimalStr s).isOk = true ↔ ∃ d : DecimalText, d.chars = s.toList) ∧
  ∀ d : DecimalText, d.chars = s.toList → ∃ m scale, fromDecimalStr s = .ok (.dec m scale none) ∧
    toRational parse (.dec m scale none) = .ok d.value

section Values

variable {parse : String → Except String Int} (hparse : ReadsDigits parse)

include hparse

/-- The value is right if the scale is, and where there is nothing to scale. -/
theorem value_text (d : DecimalText) : toRational parse
    (.dec ((if d.neg then "-" else "") ++ String.ofList (d.whole ++ d.fractionDigits))
      (UInt32.ofNat d.fractionDigits.length) none) = .ok d.value ↔
        d.fractionDigits.length < 2 ^ 32 ∨ d.value = 0 := by
  have hscale : (10 : ℚ) ^ d.fractionDigits.length ≠ 0 := by positivity
  have hread : toRational parse
      (.dec ((if d.neg then "-" else "") ++ String.ofList (d.whole ++ d.fractionDigits))
        (UInt32.ofNat d.fractionDigits.length) none) =
          .ok ((d.mantissa : ℚ) / 10 ^ (d.fractionDigits.length % 2 ^ 32)) := by
    have hmantissa : parse ((if d.neg then "-" else "") ++
        String.ofList (d.whole ++ d.fractionDigits)) = .ok d.mantissa :=
      hparse d.neg _ d.nonempty d.digits
    rw [toRational, parseBigint, hmantissa, UInt32.toNat_ofNat']
    simp only [bind_ok]
    rw [mkRat_pow]
    rfl
  rw [hread, d.value_eq, Except.ok.injEq, div_eq_zero_iff, or_iff_left hscale]
  by_cases hzero : (d.mantissa : ℚ) = 0
  · simp [hzero]
  · rw [or_iff_left hzero, div_eq_mul_inv, div_eq_mul_inv, mul_right_inj' hzero, inv_inj]
    constructor
    · intro h
      have hpow : (10 : ℕ) ^ (d.fractionDigits.length % 2 ^ 32) = 10 ^ d.fractionDigits.length := by
        exact_mod_cast h
      have hmod := Nat.pow_right_injective (le_refl 2 |>.trans (by decide)) hpow
      omega
    · intro h
      rw [Nat.mod_eq_of_lt h]

end Values

/-- Text is imported as it should be where it is a numeral whose fraction fits the scale, or has the
value zero, and where it is refused. -/
theorem importsText_iff (parse : String → Except String Int) (hparse : ReadsDigits parse)
    (s : String) : ImportsText parse s ↔
      (∃ d : DecimalText, d.chars = s.toList ∧
        (d.fractionDigits.length < 2 ^ 32 ∨ d.value = 0)) ∨ Refused s := by
  by_cases hnumeral : ∃ d : DecimalText, d.chars = s.toList
  · obtain ⟨d, hd⟩ := hnumeral
    have hok := fromDecimalStr_text hd
    have hisOk : (fromDecimalStr s).isOk = true := by
      rw [hok]
      rfl
    have hrefused : ¬ Refused s := isOk_fromDecimalStr.mp hisOk
    constructor
    · rintro ⟨-, hvalue⟩
      obtain ⟨m, scale, h, hread⟩ := hvalue d hd
      obtain ⟨rfl, rfl, -⟩ := Num.dec.inj (Except.ok.inj (hok.symm.trans h))
      exact .inl ⟨d, hd, (value_text hparse d).mp hread⟩
    · rintro (⟨d', hd', hscale⟩ | h)
      · obtain rfl := chars_injective hd hd'
        refine ⟨iff_of_true hisOk ⟨d, hd⟩, fun d' hd' => ?_⟩
        obtain rfl := chars_injective hd hd'
        exact ⟨_, _, hok, (value_text hparse d).mpr hscale⟩
      · exact absurd h hrefused
  · have hiff : ImportsText parse s ↔ ¬ (fromDecimalStr s).isOk = true := by
      constructor
      · exact fun h hisOk => hnumeral (h.1.mp hisOk)
      · exact fun h => ⟨⟨fun hisOk => absurd hisOk h, fun hd => absurd hd hnumeral⟩,
          fun d hd => absurd ⟨d, hd⟩ hnumeral⟩
    rw [hiff, isOk_fromDecimalStr, not_not]
    constructor
    · exact .inr
    · rintro (⟨d, hd, -⟩ | h)
      · exact absurd ⟨d, hd⟩ hnumeral
      · exact h

theorem parseNumeral_readsDigits : ReadsDigits parseNumeral := by
  intro neg ds hne hdigits
  have hall : ds.all Char.isDigit := List.all_eq_true.mpr hdigits
  cases neg with
  | true =>
    have hlist : ("-" ++ String.ofList ds).toList = '-' :: ds := by simp
    rw [if_pos rfl, parseNumeral, hlist, Numeral.readInt_minus hall]
    rfl
  | false =>
    have hlist : ("" ++ String.ofList ds).toList = ds := by simp
    rw [if_neg (by decide), parseNumeral, hlist, Numeral.readInt_digits hall]
    rfl

/-- A negative amount with cents. -/
theorem importsText_sample : ImportsText parseNumeral "-12.50" := by
  refine (importsText_iff parseNumeral parseNumeral_readsDigits "-12.50").mpr
    (.inl ⟨⟨true, ['1', '2'], some ['5', '0'], by simp, by simp⟩, rfl, .inl ?_⟩)
  norm_num [DecimalText.fractionDigits]

/-- Letters are accepted as the mantissa of a decimal, which cannot be read. -/
theorem letters_imported : fromDecimalStr "abc" = .ok (.dec "abc" 0 none) ∧
    (∀ d : DecimalText, d.chars ≠ "abc".toList) ∧ ¬ ImportsText parseNumeral "abc" := by
  have hok : fromDecimalStr "abc" = .ok (.dec "abc" 0 none) := by decide +kernel
  have hnone (d : DecimalText) : d.chars ≠ "abc".toList := by
    intro h
    have hsplit := d.splitDots_unsigned
    have hpieces : splitDots (unsignedChars "abc") = [['a', 'b', 'c']] := by decide +kernel
    rw [← (unsignedChars_text h).1, hpieces, List.cons.injEq] at hsplit
    have hmem : 'a' ∈ d.whole := by
      rw [← hsplit.1]
      decide
    exact absurd (d.digits 'a' (List.mem_append_left _ hmem)) (by decide)
  refine ⟨hok, hnone, fun h => ?_⟩
  obtain ⟨d, hd⟩ := h.1.mp (by rw [hok]; rfl)
  exact hnone d hd

end Ubl.Unc1
