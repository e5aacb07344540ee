import Mathlib.Algebra.Order.Field.Basic
import Mathlib.Data.Prod.Lex
import Mathlib.Data.Rat.Defs
import Mathlib.Tactic.Linarith
import Mathlib.Tactic.Positivity
import Ubl.Lib.Calendar
import Ubl.Lib.KeyTree
import Ubl.Lib.Numeral

/-!
# Timestamps of RFC 3339

A timestamp is a date and a time of day, written with a separator, some digits of a fraction and a
zone: its `Format`.  Its instant is the minute in UTC, and then the second with the fraction, as a leap
second does not reach the next minute.

Texts and instants of two formats stand in one order just when the formats agree in separator and
offset, and the fractions line up:

    (∀ (a : Stamp f) (b : Stamp g), a.text < b.text ↔ a.instant < b.instant) ↔ f.Sorted g  (agree_iff)
-/

namespace Rfc3339

open Calendar Numeral KeyTree

/-! ## Formats -/

inductive Separator where
  | upper
  | lower
  | space
  deriving DecidableEq

def Separator.char : Separator → Char
  | .upper => 'T'
  | .lower => 't'
  | .space => ' '

inductive Zone where
  | utc (lower : Bool)
  | numeric (negative : Bool) (hours : Fin 24) (minutes : Fin 60)
  deriving DecidableEq

namespace Zone

def text : Zone → List Char
  | .utc lower => [if lower then 'z' else 'Z']
  | .numeric negative hours minutes =>
    (if negative then '-' else '+') :: (pad 2 hours ++ ':' :: pad 2 minutes)

/-- The minutes ahead of UTC. -/
def offset : Zone → ℤ
  | .utc _ => 0
  | .numeric negative hours minutes =>
    if negative then -(hours * 60 + minutes : ℤ) else (hours * 60 + minutes : ℤ)

def signed : Zone → Bool
  | .utc _ => false
  | .numeric .. => true

end Zone

structure Format where
  separator : Separator
  digits : ℕ
  zone : Zone

/-- One separator and one offset; a text of `f` does not end before one of `g` that goes on. -/
def Format.Sorted (f g : Format) : Prop :=
  f.separator = g.separator ∧ f.zone.offset = g.zone.offset ∧
    (f.digits = g.digits ∧ ¬ f.zone.text < g.zone.text ∨ g.digits < f.digits ∧ g.zone.signed)

/-! ## Stamps -/

structure Stamp (f : Format) where
  date : Date
  hour : ℕ
  minute : ℕ
  second : ℕ
  fraction : ℕ
  year_lt : date.year < 10 ^ 4
  hour_lt : hour < 24
  minute_lt : minute < 60
  second_le : second ≤ 60
  fraction_lt : fraction < 10 ^ f.digits

namespace Stamp

variable {f g : Format} (a : Stamp f) (b : Stamp g)

def dateText : List Char :=
  pad 4 a.date.year ++ '-' :: (pad 2 a.date.month ++ '-' :: pad 2 a.date.day)

def timeText : List Char :=
  pad 2 a.hour ++ ':' :: (pad 2 a.minute ++ ':' :: pad 2 a.second)

/-- The fraction and the zone. -/
def tail : List Char :=
  (if f.digits = 0 then [] else '.' :: pad f.digits a.fraction) ++ f.zone.text

def text : String :=
  String.ofList (a.dateText ++ f.separator.char :: (a.timeText ++ a.tail))

def minuteOfDay : ℕ := a.hour * 60 + a.minute

def utcMinute : ℤ := a.date.dayNumber * 1440 + a.minuteOfDay - f.zone.offset

/-- The part of a second. -/
def part : ℚ := a.fraction / 10 ^ f.digits

def instant : ℤ ×ₗ ℚ := toLex (a.utcMinute, a.second + a.part)

end Stamp

def Agree (f g : Format) : Prop :=
  ∀ (a : Stamp f) (b : Stamp g), a.text < b.text ↔ a.instant < b.instant

/-! ## The order of texts -/

theorem pad_append_lt_iff {width m n : ℕ} {xs ys : List Char} (hwidth : 0 < width)
    (hm : m < 10 ^ width) (hn : n < 10 ^ width) :
    pad width m ++ xs < pad width n ++ ys ↔ m < n ∨ m = n ∧ xs < ys := by
  have hlength := (length_pad hwidth hm).trans (length_pad hwidth hn).symm
  have hdigits := isDigit_pad width m
  have hdigits' := isDigit_pad width n
  have heq : pad width m = pad width n ↔ m = n := by
    refine ⟨fun h => ?_, fun h => h ▸ rfl⟩
    rw [← ofDigitChars_pad width m, h, ofDigitChars_pad]
  rw [append_lt_append_iff hlength, chars_lt_iff hdigits hdigits' hlength, ofDigitChars_pad,
    ofDigitChars_pad, heq]

theorem cons_lt_cons_iff_of_eq {c : Char} {xs ys : List Char} : c :: xs < c :: ys ↔ xs < ys := by
  rw [List.cons_lt_cons_iff]
  simp

variable {f g : Format} {a : Stamp f} {b : Stamp g} {xs ys : List Char}

theorem dateText_append_lt_iff : a.dateText ++ xs < b.dateText ++ ys ↔
    a.date.dayNumber < b.date.dayNumber ∨ a.date.dayNumber = b.date.dayNumber ∧ xs < ys := by
  have hmonth (d : Date) : d.month < 10 ^ 2 := by have := d.month_le; omega
  have hday (d : Date) : d.day < 10 ^ 2 := by
    have := d.day_le.trans (daysInMonth_le (isLeap d.year) d.month)
    omega
  simp only [Stamp.dateText, List.append_assoc, List.cons_append]
  rw [pad_append_lt_iff (by decide) a.year_lt b.year_lt, cons_lt_cons_iff_of_eq,
    pad_append_lt_iff (by decide) (hmonth _) (hmonth _), cons_lt_cons_iff_of_eq,
    pad_append_lt_iff (by decide) (hday _) (hday _), Date.dayNumber_lt_iff, Date.dayNumber_eq_iff]
  tauto

theorem timeText_append_lt_iff : a.timeText ++ xs < b.timeText ++ ys ↔
    a.minuteOfDay < b.minuteOfDay ∨ a.minuteOfDay = b.minuteOfDay ∧
      (a.second < b.second ∨ a.second = b.second ∧ xs < ys) := by
  have hhour {f : Format} (a : Stamp f) : a.hour < 10 ^ 2 := by have := a.hour_lt; omega
  have hminute {f : Format} (a : Stamp f) : a.minute < 10 ^ 2 := by have := a.minute_lt; omega
  have hsecond {f : Format} (a : Stamp f) : a.second < 10 ^ 2 := by have := a.second_le; omega
  simp only [Stamp.timeText, List.append_assoc, List.cons_append]
  rw [pad_append_lt_iff (by decide) (hhour a) (hhour b), cons_lt_cons_iff_of_eq,
    pad_append_lt_iff (by decide) (hminute a) (hminute b), cons_lt_cons_iff_of_eq,
    pad_append_lt_iff (by decide) (hsecond a) (hsecond b)]
  have ha := a.minute_lt
  have hb := b.minute_lt
  have hlt : a.minuteOfDay < b.minuteOfDay ↔
      a.hour < b.hour ∨ a.hour = b.hour ∧ a.minute < b.minute := by
    unfold Stamp.minuteOfDay
    omega
  have heq : a.minuteOfDay = b.minuteOfDay ↔ a.hour = b.hour ∧ a.minute = b.minute := by
    unfold Stamp.minuteOfDay
    omega
  rw [hlt, heq]
  tauto

theorem text_lt_iff : a.text < b.text ↔
    a.date.dayNumber < b.date.dayNumber ∨ a.date.dayNumber = b.date.dayNumber ∧
      (f.separator.char < g.separator.char ∨ f.separator = g.separator ∧
        (a.minuteOfDay < b.minuteOfDay ∨ a.minuteOfDay = b.minuteOfDay ∧
          (a.second < b.second ∨ a.second = b.second ∧ a.tail < b.tail))) := by
  have hchar : f.separator.char = g.separator.char ↔ f.separator = g.separator := by
    cases f.separator <;> cases g.separator <;> decide
  rw [String.lt_iff, Stamp.text, Stamp.text, String.toList_ofList, String.toList_ofList,
    dateText_append_lt_iff, List.cons_lt_cons_iff, hchar, timeText_append_lt_iff]

/-! ## The order of fractions -/

/-- The first digits of a fraction, and the others. -/
theorem pad_add {k d n : ℕ} (hk : 0 < k) (hd : 0 < d) (hn : n < 10 ^ (k + d)) :
    pad (k + d) n = pad k (n / 10 ^ d) ++ pad d (n % 10 ^ d) := by
  have hhigh : n / 10 ^ d < 10 ^ k := Nat.div_lt_of_lt_mul (by rwa [← Nat.pow_add, Nat.add_comm])
  have hlow : n % 10 ^ d < 10 ^ d := Nat.mod_lt _ (by positivity)
  refine chars_inj (isDigit_pad ..) ?_ ?_ ?_
  · rw [List.all_append, isDigit_pad, isDigit_pad]
    rfl
  · rw [List.length_append, length_pad (Nat.add_pos_left hk d) hn, length_pad hk hhigh,
      length_pad hd hlow]
  · rw [Nat.ofDigitChars_append, ofDigitChars_pad, ofDigitChars_pad,
      Nat.ofDigitChars_eq_ofDigitChars_zero, ofDigitChars_pad, length_pad hd hlow]
    exact (Nat.div_add_mod n (10 ^ d)).symm

theorem part_lt_iff :
    a.part < b.part ↔ a.fraction * 10 ^ g.digits < b.fraction * 10 ^ f.digits := by
  rw [Stamp.part, Stamp.part, div_lt_div_iff₀ (by positivity) (by positivity)]
  exact_mod_cast Iff.rfl

theorem signed_text {zone : Zone} (h : zone.signed) :
    ∃ c cs, zone.text = c :: cs ∧ c < '.' := by
  cases zone with
  | utc => cases h
  | numeric negative hours minutes =>
    refine ⟨_, _, rfl, ?_⟩
    cases negative <;> decide

theorem dot_lt_digit {c : Char} (h : c.isDigit) : '.' < c := by
  rw [Char.lt_def, UInt32.lt_iff_toNat_lt]
  exact lt_of_lt_of_le (by decide) (isDigit_bounds h).1

theorem digit_lt_zed {c : Char} (h : c.isDigit) : c < 'Z' := by
  rw [Char.lt_def, UInt32.lt_iff_toNat_lt]
  exact lt_of_le_of_lt (isDigit_bounds h).2 (by decide)

/-- A signed zone is less than what goes on with a digit or a point. -/
theorem not_lt_signed {c : Char} {cs : List Char} {zone : Zone} (h : zone.signed) (hc : '.' ≤ c) :
    ¬ c :: cs < zone.text := by
  obtain ⟨s, rest, htext, hs⟩ := signed_text h
  rw [htext, List.cons_lt_cons_iff]
  rintro (hlt | ⟨rfl, -⟩)
  · exact absurd (hc.trans_lt hlt) hs.asymm
  · exact hs.not_ge hc

theorem exists_pad_cons {width : ℕ} (hwidth : 0 < width) {n : ℕ} (hn : n < 10 ^ width) :
    ∃ c cs, pad width n = c :: cs ∧ '.' ≤ c ∧ c < 'Z' := by
  obtain ⟨c, cs, hpad⟩ := List.exists_cons_of_length_pos ((length_pad hwidth hn).symm ▸ hwidth)
  have hdigit := List.all_eq_true.mp (isDigit_pad width n) c (hpad ▸ List.mem_cons_self)
  exact ⟨c, cs, hpad, (dot_lt_digit hdigit).le, digit_lt_zed hdigit⟩

/-- As many digits on both sides. -/
theorem tail_lt_iff_of_eq (hdigits : f.digits = g.digits) (hzone : ¬ f.zone.text < g.zone.text) :
    a.tail < b.tail ↔ a.part < b.part := by
  have ha := a.fraction_lt
  have hb := b.fraction_lt
  rw [part_lt_iff, Stamp.tail, Stamp.tail, hdigits, Nat.mul_lt_mul_right (by positivity)]
  rw [hdigits] at ha
  split_ifs with hzero
  · rw [hzero, Nat.pow_zero, Nat.lt_one_iff] at ha hb
    rw [ha, hb]
    exact iff_of_false hzone (Nat.lt_irrefl 0)
  · rw [List.cons_append, List.cons_append, cons_lt_cons_iff_of_eq,
      pad_append_lt_iff (Nat.pos_of_ne_zero hzero) ha hb]
    exact or_iff_left fun h => hzone h.2

/-- More digits before a signed zone. -/
theorem tail_lt_iff_of_lt (hdigits : g.digits < f.digits) (hsigned : g.zone.signed) :
    a.tail < b.tail ↔ a.part < b.part := by
  obtain ⟨d, hd, heq⟩ : ∃ d, 0 < d ∧ f.digits = g.digits + d :=
    ⟨f.digits - g.digits, by omega, by omega⟩
  have ha := a.fraction_lt
  have hb := b.fraction_lt
  rw [part_lt_iff, Stamp.tail, Stamp.tail, if_neg (Nat.ne_zero_of_lt hdigits), List.cons_append]
  split_ifs with hzero
  · rw [hzero, Nat.pow_zero, Nat.lt_one_iff] at hb
    rw [hb, Nat.zero_mul, List.nil_append]
    exact iff_of_false (not_lt_signed hsigned le_rfl) (Nat.not_lt_zero _)
  · rw [heq] at ha
    have hlow : a.fraction % 10 ^ d < 10 ^ d := Nat.mod_lt _ (by positivity)
    have hhigh : a.fraction / 10 ^ d < 10 ^ g.digits :=
      Nat.div_lt_of_lt_mul (by rwa [← Nat.pow_add, Nat.add_comm])
    obtain ⟨c, cs, hpad, hc, -⟩ := exists_pad_cons hd hlow
    -- where the first digits are those of the other, a digit stands before the sign
    rw [heq, pad_add (Nat.pos_of_ne_zero hzero) hd ha, List.cons_append, cons_lt_cons_iff_of_eq,
      List.append_assoc, pad_append_lt_iff (Nat.pos_of_ne_zero hzero) hhigh hb, hpad,
      List.cons_append, or_iff_left fun h => not_lt_signed hsigned hc h.2, Nat.pow_add,
      Nat.mul_comm (10 ^ g.digits), ← Nat.mul_assoc, Nat.mul_lt_mul_right (by positivity)]
    exact Nat.div_lt_iff_lt_mul (by positivity)

/-! ## The order of instants -/

theorem part_nonneg (a : Stamp f) : 0 ≤ a.part := by
  unfold Stamp.part
  positivity

theorem part_lt_one (a : Stamp f) : a.part < 1 := by
  unfold Stamp.part
  rw [div_lt_one (by positivity)]
  exact_mod_cast a.fraction_lt

theorem instant_lt_iff : a.instant < b.instant ↔ a.utcMinute < b.utcMinute ∨
    a.utcMinute = b.utcMinute ∧ (a.second < b.second ∨ a.second = b.second ∧ a.part < b.part) := by
  have hsecond : (a.second + a.part < b.second + b.part) ↔
      (a.second < b.second ∨ a.second = b.second ∧ a.part < b.part) := by
    have ha := part_nonneg a
    have ha' := part_lt_one a
    have hb := part_nonneg b
    have hb' := part_lt_one b
    rcases Nat.lt_trichotomy a.second b.second with h | h | h
    · have hcast : (a.second + 1 : ℚ) ≤ b.second := by exact_mod_cast h
      exact iff_of_true (by linarith) (.inl h)
    · rw [h, add_lt_add_iff_left]
      simp
    · have hcast : (b.second + 1 : ℚ) ≤ a.second := by exact_mod_cast h
      exact iff_of_false (by linarith) (by omega)
  rw [Stamp.instant, Stamp.instant, Prod.Lex.toLex_lt_toLex, hsecond]

theorem minuteOfDay_lt (a : Stamp f) : a.minuteOfDay < 1440 := by
  have hhour := a.hour_lt
  have hminute := a.minute_lt
  unfold Stamp.minuteOfDay
  omega

theorem text_lt_iff_instant_lt (h : f.Sorted g) (a : Stamp f) (b : Stamp g) :
    a.text < b.text ↔ a.instant < b.instant := by
  obtain ⟨hseparator, hoffset, htail⟩ := h
  have htail' : a.tail < b.tail ↔ a.part < b.part := by
    rcases htail with ⟨hdigits, hzone⟩ | ⟨hdigits, hsigned⟩
    · exact tail_lt_iff_of_eq hdigits hzone
    · exact tail_lt_iff_of_lt hdigits hsigned
  have ha := minuteOfDay_lt a
  have hb := minuteOfDay_lt b
  have hlt : a.utcMinute < b.utcMinute ↔ a.date.dayNumber < b.date.dayNumber ∨
      a.date.dayNumber = b.date.dayNumber ∧ a.minuteOfDay < b.minuteOfDay := by
    unfold Stamp.utcMinute
    omega
  have heq : a.utcMinute = b.utcMinute ↔ a.date.dayNumber = b.date.dayNumber ∧
      a.minuteOfDay = b.minuteOfDay := by
    unfold Stamp.utcMinute
    omega
  rw [text_lt_iff, instant_lt_iff, hseparator, htail', hlt, heq, or_iff_right (lt_irrefl _),
    and_iff_right rfl, and_or_left, or_assoc, and_assoc]

/-! ## Formats whose texts are not sorted -/

def newYear : Date := ⟨2026, 1, 1, by decide, by decide, by decide, by decide⟩

def nextDay : Date := ⟨2026, 1, 2, by decide, by decide, by decide, by decide⟩

/-- A time on one of the two days. -/
def stampAt (f : Format) (next : Bool) (hour minute second fraction : ℕ)
    (htime : hour < 24 ∧ minute < 60 ∧ second ≤ 60) (hfraction : fraction < 10 ^ f.digits) :
    Stamp f where
  date := if next then nextDay else newYear
  hour := hour
  minute := minute
  second := second
  fraction := fraction
  year_lt := by cases next <;> decide
  hour_lt := htime.1
  minute_lt := htime.2.1
  second_le := htime.2.2
  fraction_lt := hfraction

theorem dayNumber_stampAt (f : Format) (next : Bool) (hour minute second fraction : ℕ)
    (htime : hour < 24 ∧ minute < 60 ∧ second ≤ 60) (hfraction : fraction < 10 ^ f.digits) :
    (stampAt f next hour minute second fraction htime hfraction).date.dayNumber =
      newYear.dayNumber + next.toNat := by
  cases next <;> rfl

theorem utcMinute_stampAt (f : Format) (next : Bool) (hour minute second fraction : ℕ)
    (htime : hour < 24 ∧ minute < 60 ∧ second ≤ 60) (hfraction : fraction < 10 ^ f.digits) :
    (stampAt f next hour minute second fraction htime hfraction).utcMinute =
      (newYear.dayNumber + next.toNat) * 1440 + (hour * 60 + minute) - f.zone.offset := by
  cases next <;> rfl

/-- Around midnight the dates are in order, and the instants in that of the offsets. -/
theorem Agree.offset_eq (h : Agree f g) : f.zone.offset = g.zone.offset := by
  by_contra hne
  rcases Int.lt_or_gt_of_ne hne with hlt | hgt
  · have hinstant := (h (stampAt f false 23 59 1 0 (by decide) (by positivity))
      (stampAt g true 0 0 0 0 (by decide) (by positivity))).mp
        (text_lt_iff.mpr (.inl (by rw [dayNumber_stampAt, dayNumber_stampAt]; decide)))
    rcases instant_lt_iff.mp hinstant with hminute | ⟨-, hsecond | ⟨hsecond, -⟩⟩
    · rw [utcMinute_stampAt, utcMinute_stampAt, Bool.toNat_false, Bool.toNat_true] at hminute
      omega
    · cases hsecond
    · cases hsecond
  · have htext : ¬ (stampAt f true 0 0 0 0 (by decide) (by positivity)).text <
        (stampAt g false 23 59 1 0 (by decide) (by positivity)).text := by
      rw [text_lt_iff, dayNumber_stampAt, dayNumber_stampAt]
      rintro (hdate | ⟨hdate, -⟩)
      · exact absurd hdate (by decide)
      · exact absurd hdate (by decide)
    refine htext ((h _ _).mpr (instant_lt_iff.mpr ?_))
    rw [utcMinute_stampAt, utcMinute_stampAt, Bool.toNat_false, Bool.toNat_true]
    rcases Int.lt_or_eq_of_le (Int.add_one_le_of_lt hgt) with hlt | heq
    · exact .inl (by omega)
    · exact .inr ⟨by omega, .inl Nat.zero_lt_one⟩

/-- On one day the separators decide. -/
theorem Agree.separator_eq (h : Agree f g) : f.separator = g.separator := by
  have hoffset := h.offset_eq
  by_contra hne
  have hchar : f.separator.char < g.separator.char ∨ g.separator.char < f.separator.char := by
    revert hne
    cases f.separator <;> cases g.separator <;> decide
  rcases hchar with hlt | hgt
  · have hinstant := (h (stampAt f false 12 0 0 0 (by decide) (by positivity))
      (stampAt g false 0 0 0 0 (by decide) (by positivity))).mp
        (text_lt_iff.mpr (.inr ⟨rfl, .inl hlt⟩))
    rcases instant_lt_iff.mp hinstant with hminute | ⟨hminute, -⟩
    · rw [utcMinute_stampAt, utcMinute_stampAt] at hminute
      omega
    · rw [utcMinute_stampAt, utcMinute_stampAt] at hminute
      omega
  · have htext := (h (stampAt f false 0 0 0 0 (by decide) (by positivity))
      (stampAt g false 12 0 0 0 (by decide) (by positivity))).mpr
        (instant_lt_iff.mpr (.inl (by rw [utcMinute_stampAt, utcMinute_stampAt]; omega)))
    rcases text_lt_iff.mp htext with hdate | ⟨-, hlt | ⟨heq, -⟩⟩
    · exact absurd hdate (Nat.lt_irrefl _)
    · exact hlt.asymm hgt
    · exact hne heq

/-- At one second the fractions and the zones decide. -/
theorem Agree.tail_iff (h : Agree f g) (hday : a.date.dayNumber = b.date.dayNumber)
    (hminute : a.minuteOfDay = b.minuteOfDay) (hsecond : a.second = b.second) :
    a.tail < b.tail ↔ a.part < b.part := by
  have hiff := h a b
  rw [text_lt_iff, instant_lt_iff, Stamp.utcMinute, Stamp.utcMinute, h.offset_eq,
    h.separator_eq, hday, hminute, hsecond] at hiff
  simpa only [lt_irrefl, false_or, true_and] using hiff

/-- Where the first digits agree, what comes next stands before the zone of the shorter text. -/
theorem exists_tail_eq (hdigits : g.digits < f.digits)
    (h : a.fraction / 10 ^ (f.digits - g.digits) = b.fraction) :
    ∃ p c cs, '.' ≤ c ∧ c < 'Z' ∧ a.tail = p ++ c :: cs ∧ b.tail = p ++ g.zone.text := by
  obtain ⟨d, hd, heq⟩ : ∃ d, 0 < d ∧ f.digits = g.digits + d :=
    ⟨f.digits - g.digits, by omega, by omega⟩
  have ha := a.fraction_lt
  rw [heq] at ha
  rw [heq, Nat.add_sub_cancel_left] at h
  unfold Stamp.tail
  rw [if_neg (Nat.ne_zero_of_lt hdigits), List.cons_append]
  split_ifs with hzero
  · exact ⟨[], '.', _, le_rfl, by decide, rfl, rfl⟩
  · have hlow : a.fraction % 10 ^ d < 10 ^ d := Nat.mod_lt _ (by positivity)
    obtain ⟨c, cs, hpad, hc, hc'⟩ := exists_pad_cons hd hlow
    refine ⟨'.' :: pad g.digits b.fraction, c, cs ++ f.zone.text, hc, hc', ?_, rfl⟩
    rw [heq, pad_add (Nat.pos_of_ne_zero hzero) hd ha, h, hpad, List.append_assoc,
      List.cons_append, List.cons_append]

theorem signed_lt {zone : Zone} (h : zone.signed) {c : Char} {cs : List Char} (hc : '.' ≤ c) :
    zone.text < c :: cs := by
  obtain ⟨s, rest, htext, hs⟩ := signed_text h
  rw [htext, List.cons_lt_cons_iff]
  exact .inl (hs.trans_le hc)

theorem lt_unsigned {zone : Zone} (h : ¬ zone.signed) {c : Char} {cs : List Char} (hc : c < 'Z') :
    c :: cs < zone.text := by
  cases zone with
  | utc lower =>
    rw [Zone.text, List.cons_lt_cons_iff]
    refine .inl (hc.trans_le ?_)
    cases lower <;> decide
  | numeric => exact absurd rfl h

def midnight (f : Format) (fraction : ℕ) (h : fraction < 10 ^ f.digits) : Stamp f :=
  stampAt f false 0 0 0 fraction (by decide) h

theorem Agree.digits (h : Agree f g) :
    f.digits = g.digits ∧ ¬ f.zone.text < g.zone.text ∨ g.digits < f.digits ∧ g.zone.signed := by
  have hf : 0 < 10 ^ f.digits := by positivity
  have hg : 0 < 10 ^ g.digits := by positivity
  have htail {n : ℕ} (hn : n < 10 ^ g.digits) :
      (midnight f 0 hf).tail < (midnight g n hn).tail ↔ 0 < n * 10 ^ f.digits := by
    rw [h.tail_iff (a := midnight f 0 hf) (b := midnight g n hn) rfl rfl rfl, part_lt_iff]
    change 0 * 10 ^ g.digits < n * 10 ^ f.digits ↔ 0 < n * 10 ^ f.digits
    rw [Nat.zero_mul]
  have hzero : ¬ (midnight f 0 hf).tail < (midnight g 0 hg).tail := by
    rw [htail, Nat.zero_mul]
    exact Nat.lt_irrefl 0
  rcases Nat.lt_trichotomy f.digits g.digits with hlt | heq | hgt
  · exfalso
    by_cases hsigned : f.zone.signed
    · obtain ⟨p, c, cs, hc, -, hb, ha⟩ := exists_tail_eq (a := midnight g 0 hg)
        (b := midnight f 0 hf) hlt (Nat.zero_div _)
      rw [ha, hb, append_lt_append_left_iff] at hzero
      exact hzero (signed_lt hsigned hc)
    · -- the last digit of the longer fraction is not seen
      have hone : 1 < 10 ^ g.digits := Nat.one_lt_pow (Nat.ne_zero_of_lt hlt) (by decide)
      have hquot : 1 / 10 ^ (g.digits - f.digits) = 0 :=
        Nat.div_eq_of_lt (Nat.one_lt_pow (Nat.sub_ne_zero_of_lt hlt) (by decide))
      obtain ⟨p, c, cs, -, hc, hb, ha⟩ := exists_tail_eq (a := midnight g 1 hone)
        (b := midnight f 0 hf) hlt hquot
      have hless := (htail hone).mpr (Nat.mul_pos Nat.one_pos hf)
      rw [ha, hb, append_lt_append_left_iff] at hless
      exact hless.asymm (lt_unsigned hsigned hc)
  · refine .inl ⟨heq, fun hzone => hzero ?_⟩
    change (if f.digits = 0 then [] else '.' :: pad f.digits 0) ++ f.zone.text <
      (if g.digits = 0 then [] else '.' :: pad g.digits 0) ++ g.zone.text
    rw [heq]
    exact append_lt_append_left_iff.mpr hzone
  · refine .inr ⟨hgt, by_contra fun hsigned => hzero ?_⟩
    obtain ⟨p, c, cs, -, hc, ha, hb⟩ := exists_tail_eq (a := midnight f 0 hf)
      (b := midnight g 0 hg) hgt (Nat.zero_div _)
    rw [ha, hb, append_lt_append_left_iff]
    exact lt_unsigned hsigned hc

/-- Texts stand in the order of their instants just for the sorted formats. -/
theorem agree_iff : Agree f g ↔ f.Sorted g :=
  ⟨fun h => ⟨h.separator_eq, h.offset_eq, h.digits⟩, text_lt_iff_instant_lt⟩

end Rfc3339
