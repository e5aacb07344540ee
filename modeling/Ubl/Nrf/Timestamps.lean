import Ubl.Lib.Numeral
import Ubl.Nrf.Normalize

/-!
# `nrf.rs`: what becomes of a normalised timestamp

`normalizeTimestamp` prints what `chrono` has read.  A printed time reads as itself, with one
exception: the nanoseconds of a leap second have ten digits, all ten are printed as the fraction,
and of these `chrono` reads nine.  So the fraction of a leap second changes with every
normalisation, until it is all ones (`stableText_printed_iff`).
-/

namespace Ubl.Nrf

open Numeral

/-! ## Printing -/

theorem toList_padded (width n : Nat) : (padded width n).toList = pad width n := by
  have hn : (toString n).toList = Nat.toDigits 10 n := Nat.toList_repr
  rw [padded, String.toList_append, String.toList_ofList, ← String.length_toList, hn, pad,
    List.leftpad]

/-- The normal text of a time. -/
def UtcTime.printed (ts : UtcTime) : String :=
  if ts.nanos = 0 then ts.base ++ "Z"
  else ts.base ++ "." ++ String.ofList (trimZeros (pad 9 ts.nanos)) ++ "Z"

theorem normalizeTimestamp_eq (chrono : String → Option UtcTime) (s : String) :
    normalizeTimestamp chrono s = (chrono s).map UtcTime.printed := by
  unfold normalizeTimestamp UtcTime.printed trimZeros
  simp only [toList_padded]

/-- Nanoseconds from the digits of a fraction; those beyond the ninth are skipped. -/
def fracNanos (frac : List Char) : Nat :=
  Nat.ofDigitChars 10 ((frac ++ List.replicate 9 '0').take 9) 0

/-- What `chrono` reads, it reads again from the printed date and time, whatever the fraction.  A
year that is not of four digits is printed with a sign, and that is not RFC 3339. -/
structure ChronoReads (chrono : String → Option UtcTime) : Prop where
  nanos_lt : ∀ s ts, chrono s = some ts → ts.nanos < 2000000000
  whole : ∀ s ts, chrono s = some ts → 0 ≤ ts.year ∧ ts.year ≤ 9999 →
    chrono (ts.base ++ "Z") = some { ts with nanos := ts.nanos / 1000000000 * 1000000000 }
  fraction : ∀ s ts, chrono s = some ts → 0 ≤ ts.year ∧ ts.year ≤ 9999 →
    ∀ frac : List Char, frac ≠ [] → frac.all Char.isDigit →
      chrono (ts.base ++ "." ++ String.ofList frac ++ "Z") =
        some { ts with nanos := ts.nanos / 1000000000 * 1000000000 + fracNanos frac }
  signed : ∀ s ts, chrono s = some ts → ¬ (0 ≤ ts.year ∧ ts.year ≤ 9999) →
    ∀ rest, chrono (ts.base ++ rest) = none

/-! ## Fractions -/

theorem fracNanos_trimZeros {ds : List Char} (h : 9 ≤ ds.length) :
    fracNanos (trimZeros ds) = Nat.ofDigitChars 10 (ds.take 9) 0 := by
  rw [fracNanos, take_trimZeros h]

theorem fracNanos_of_lt {n : Nat} (h : n < 1000000000) : fracNanos (trimZeros (pad 9 n)) = n := by
  have hlength : (pad 9 n).length = 9 := length_pad (by decide) h
  rw [fracNanos_trimZeros hlength.ge, List.take_of_length_le hlength.le, ofDigitChars_pad]

/-- Ten digits are printed and the last of them is not read. -/
theorem fracNanos_of_leap {n : Nat} (h : 1000000000 ≤ n) (h' : n < 2000000000) :
    fracNanos (trimZeros (pad 9 n)) = n / 10 := by
  have hten : (Nat.toDigits 10 (n / 10)).length = 9 := by
    have hle := (Nat.length_toDigits_le_iff (b := 10) (n := n / 10) (k := 9) (by decide)
      (by decide)).mpr (by omega)
    have hge := (Nat.length_toDigits_le_iff (b := 10) (n := n / 10) (k := 8) (by decide)
      (by decide)).not.mpr (by omega)
    omega
  have hpad : pad 9 n = Nat.toDigits 10 (n / 10) ++ [Nat.digitChar (n % 10)] := by
    have hdigits := Nat.toDigits_of_base_le (b := 10) (n := n) (by decide) (by omega)
    rw [pad, List.leftpad, hdigits, List.length_append, hten]
    rfl
  have hnine : 9 ≤ (pad 9 n).length := by
    rw [hpad, List.length_append, hten]
    exact Nat.le_add_right 9 _
  rw [fracNanos_trimZeros hnine, hpad, List.take_left' hten, Nat.ofDigitChars_ten_toDigits]

theorem trimZeros_pad_ne_nil {n : Nat} (h : n ≠ 0) : trimZeros (pad 9 n) ≠ [] := by
  intro hnil
  have hzeros := trimZeros_append (pad 9 n)
  rw [hnil, List.nil_append] at hzeros
  have hvalue := ofDigitChars_pad 9 n
  rw [← hzeros, Nat.ofDigitChars_replicate_zero, Nat.mul_zero] at hvalue
  exact h hvalue.symm

theorem isDigit_trimZeros_pad (width n : Nat) : (trimZeros (pad width n)).all Char.isDigit := by
  rw [List.all_eq_true]
  intro c hc
  exact List.all_eq_true.mp (isDigit_pad width n) c ((List.rdropWhile_prefix _ _).subset hc)

namespace UtcTime

/-! ## Reading again -/

/-- The time that is read where `ts` is printed. -/
def reread (ts : UtcTime) : UtcTime :=
  { ts with nanos := if ts.nanos < 1000000000 then ts.nanos else 1000000000 + ts.nanos / 10 }

theorem reread_of_lt {ts : UtcTime} (h : ts.nanos < 1000000000) : ts.reread = ts := by
  rw [reread, if_pos h]

theorem reread_of_leap {ts : UtcTime} (h : ¬ ts.nanos < 1000000000) :
    ts.reread = { ts with nanos := 1000000000 + ts.nanos / 10 } := by
  rw [reread, if_neg h]

/-- No leap second, or one whose fraction is all ones, or of a year that is not read again. -/
def Settled (ts : UtcTime) : Prop :=
  ¬ (0 ≤ ts.year ∧ ts.year ≤ 9999) ∨ ts.nanos < 1000000000 ∨ ts.nanos = 1111111111

instance (ts : UtcTime) : Decidable ts.Settled :=
  inferInstanceAs (Decidable (_ ∨ _ ∨ _))

/-- The digits of two leap seconds tell them apart. -/
theorem printed_inj {ts : UtcTime} {m n : Nat} (hm : 1000000000 ≤ m) (hm' : m < 2000000000)
    (hn : 1000000000 ≤ n) (hn' : n < 2000000000)
    (h : printed { ts with nanos := m } = printed { ts with nanos := n }) : m = n := by
  have hbase : base { ts with nanos := m } = base { ts with nanos := n } := by
    simp only [base]
    rw [show m / 1000000000 = 1 by omega, show n / 1000000000 = 1 by omega]
  have hlength {k : Nat} (hk : 1000000000 ≤ k) (hk' : k < 2000000000) : (pad 9 k).length = 10 := by
    have hle := (Nat.length_toDigits_le_iff (b := 10) (n := k) (k := 10) (by decide)
      (by decide)).mpr (by omega)
    have hge := (Nat.length_toDigits_le_iff (b := 10) (n := k) (k := 9) (by decide)
      (by decide)).not.mpr (by omega)
    rw [pad, List.leftpad, List.length_append, List.length_replicate]
    omega
  rw [printed, printed, if_neg (by simpa using by omega), if_neg (by simpa using by omega), hbase,
    String.append_left_inj, String.append_right_inj, String.ofList_inj] at h
  have hpad := trimZeros_inj ((hlength hm hm').trans (hlength hn hn').symm) h
  rw [← ofDigitChars_pad 9 m, ← ofDigitChars_pad 9 n, hpad]

end UtcTime

/-- Normalising the text again leaves it as it is. -/
def StableText (chrono : String → Option UtcTime) (x : String) : Prop :=
  ∀ y, normalizeTimestamp chrono x = some y → y = x

section

variable {chrono : String → Option UtcTime} (hc : ChronoReads chrono) {s : String} {ts : UtcTime}
  (h : chrono s = some ts)

include hc h

theorem chrono_printed (hyear : 0 ≤ ts.year ∧ ts.year ≤ 9999) :
    chrono ts.printed = some ts.reread := by
  have hlt := hc.nanos_lt s ts h
  unfold UtcTime.printed UtcTime.reread
  split_ifs with hzero hsecond hsecond
  · rw [hc.whole s ts h hyear, hzero]
  · omega
  · rw [hc.fraction s ts h hyear _ (trimZeros_pad_ne_nil hzero) (isDigit_trimZeros_pad _ _),
      fracNanos_of_lt hsecond, show ts.nanos / 1000000000 = 0 by omega, Nat.zero_mul, Nat.zero_add]
  · rw [hc.fraction s ts h hyear _ (trimZeros_pad_ne_nil hzero) (isDigit_trimZeros_pad _ _),
      fracNanos_of_leap (by omega) hlt, show ts.nanos / 1000000000 = 1 by omega, Nat.one_mul]

theorem chrono_printed_signed (hyear : ¬ (0 ≤ ts.year ∧ ts.year ≤ 9999)) :
    chrono ts.printed = none := by
  unfold UtcTime.printed
  split_ifs
  · exact hc.signed s ts h hyear _
  · rw [String.append_assoc, String.append_assoc]
    exact hc.signed s ts h hyear _

theorem stableText_printed_iff : StableText chrono ts.printed ↔ ts.Settled := by
  have hlt := hc.nanos_lt s ts h
  unfold StableText UtcTime.Settled
  by_cases hyear : 0 ≤ ts.year ∧ ts.year ≤ 9999
  · have hnext : normalizeTimestamp chrono ts.printed = some ts.reread.printed := by
      rw [normalizeTimestamp_eq, chrono_printed hc h hyear, Option.map_some]
    simp only [hnext, Option.some.injEq, forall_eq', hyear, and_self, not_true_eq_false, false_or]
    by_cases hleap : ts.nanos < 1000000000
    · simp only [UtcTime.reread_of_lt hleap, hleap, true_or]
    · rw [UtcTime.reread_of_leap hleap]
      constructor
      · intro heq
        have hnanos := UtcTime.printed_inj (n := ts.nanos) (by omega) (by omega) (by omega) hlt heq
        omega
      · intro hones
        have hnanos : 1000000000 + ts.nanos / 10 = ts.nanos := by omega
        rw [hnanos]
  · rw [normalizeTimestamp_eq, chrono_printed_signed hc h hyear]
    simp [hyear]

end

/-- How far the text of a leap second is from one that stays. -/
def unrest (chrono : String → Option UtcTime) (x : String) : Nat :=
  match chrono x with
  | none => 0
  | some ts =>
    if ts.printed = x then 0
    else 1 + (ts.nanos - 1111111111) + (1111111111 - ts.nanos)

/-- The text is no time, or it is a time as it is printed. -/
def Written (chrono : String → Option UtcTime) (x : String) : Prop :=
  chrono x = none ∨ ∃ s ts, chrono s = some ts ∧ x = ts.printed

/-- A text that does not stay comes closer to one that does. -/
theorem unrest_lt {chrono : String → Option UtcTime} (hc : ChronoReads chrono) {x : String}
    (hx : Written chrono x) (hunstable : ¬ StableText chrono x) :
    ∃ y, normalizeTimestamp chrono x = some y ∧ unrest chrono y < unrest chrono x := by
  rcases hx with hnone | ⟨s, ts, h, rfl⟩
  · refine absurd (fun y hy => ?_) hunstable
    rw [normalizeTimestamp_eq, hnone] at hy
    cases hy
  · have hlt := hc.nanos_lt s ts h
    rw [stableText_printed_iff hc h, UtcTime.Settled] at hunstable
    have hyear : 0 ≤ ts.year ∧ ts.year ≤ 9999 := by tauto
    have hleap : ¬ ts.nanos < 1000000000 := by tauto
    have hread := chrono_printed hc h hyear
    have hread' := chrono_printed hc hread hyear
    rw [UtcTime.reread_of_leap hleap] at hread hread'
    refine ⟨_, by rw [normalizeTimestamp_eq, hread, Option.map_some], ?_⟩
    -- the second reading has a tenth of the distance that the first one has
    rw [unrest, unrest, hread, hread']
    have hchanged : UtcTime.printed { ts with nanos := 1000000000 + ts.nanos / 10 } ≠ ts.printed := by
      intro heq
      have hnanos := UtcTime.printed_inj (n := ts.nanos) (by omega) (by omega) (by omega) hlt heq
      omega
    have hagain : ¬ 1000000000 + ts.nanos / 10 < 1000000000 := by omega
    rw [UtcTime.reread_of_leap hagain]
    simp only [if_neg hchanged]
    split_ifs with hsame
    · omega
    · have hones : 1000000000 + ts.nanos / 10 ≠ 1111111111 := by
        intro hones
        exact hsame (by rw [hones])
      omega

/-- What comes out of the normalisation is written. -/
theorem written_getD (chrono : String → Option UtcTime) (r : String) :
    Written chrono ((normalizeTimestamp chrono r).getD r) := by
  rw [normalizeTimestamp_eq]
  cases h : chrono r with
  | none => exact .inl h
  | some ts => exact .inr ⟨r, ts, h, rfl⟩

end Ubl.Nrf
