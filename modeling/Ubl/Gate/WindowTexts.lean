import Ubl.Logline.Tokenizer
import Ubl.Pipeline.AuditChip

/-!
# Window texts

The gate reads the window of an advisor query as `audit_chip.rs` reads that of a report, but trims it
first and takes a bare number for milliseconds.  Both cut the text before its last byte, and both panic
on a text that ends in a character of more than one byte, and on no other (`windows_return_iff`).
-/

namespace Ubl.Gate

open Auth (CapLib Clock)
open Pipeline
open Chipstore (strField)
open Knock (isWhitespace)
open Logline (trim)

/-- How a call ends that does not return. -/
inductive Panic where
  | panic
deriving DecidableEq

/-- A `Duration` of whole milliseconds. -/
abbrev Millis := ℕ

/-- `saturating_mul` of `u64`. -/
def saturatingMul (a b : ℕ) : ℕ := min (a * b) (2 ^ 64 - 1)

def fromSecs (secs : ℕ) : Millis := secs * 1000

/-- `value` of a unit. -/
def durationOf (value : UInt64) : List Char → Option Millis
  | ['s'] | ['S'] => some (fromSecs value.toNat)
  | ['m'] | ['M'] => some (fromSecs (saturatingMul value.toNat 60))
  | ['h'] | ['H'] => some (fromSecs (saturatingMul value.toNat 3600))
  | _ => none

def parseWindowDuration (input : Option String) : Except Panic (Option Millis) :=
  match input with
  | none => .ok none
  | some input =>
    let raw := trim input.toList
    if raw = [] then .ok none
    else
      match parseU64 raw with
      | some ms => .ok (some ms.toNat)
      | none =>
        match ByteSplit.splitLast raw with
        | none => .error .panic
        | some (num, unit) =>
          match parseU64 num with
          | none => .ok none
          | some value => .ok (durationOf value unit)

theorem parseWindowDuration_panic_iff {input : Option String} :
    parseWindowDuration input = .error .panic ↔
      ∃ text, input = some text ∧ EndsWide (trim text.toList) := by
  cases input with
  | none => simp [parseWindowDuration]
  | some text =>
    simp only [Option.some_inj, exists_eq_left', parseWindowDuration]
    split_ifs with hempty
    · simp [hempty, EndsWide]
    · split
      · rename_i ms hms
        simpa using not_endsWide_of_parseU64 hms
      · rw [EndsWide, ← ByteSplit.splitLast_eq_none_iff]
        split
        · rename_i hnone
          simp [hnone]
        · rename_i hsome
          rw [hsome]
          split <;> simp

/-- The parsers return for every body and every query, and accept no other windows than these. -/
def WindowsReturn (lib : ChronoLib) (chipType : String) (body : Json) : Prop :=
  ((∃ req, parseRequest lib chipType body = .ok req) ∨
      ∃ e, parseRequest lib chipType body = .error (.error e)) ∧
    ∀ req window, parseRequest lib chipType body = .ok (.report req) →
      req.window = some window → IsWindow window

/-- The check of a request parses its body first, so it returns where the parser does. -/
theorem windows_return_iff (lib : ChronoLib) (chipType : String) (body : Json)
    (input : Option String) :
    (WindowsReturn lib chipType body ↔ ¬ WideWindow chipType body) ∧
      (∀ (capLib : CapLib) (clock : Clock) (world : String) (reader : Option AuditReader),
        Returns (validateRequestForCheck lib capLib clock chipType body world reader) ↔
          ¬ WideWindow chipType body) ∧
      ((∃ duration, parseWindowDuration input = .ok duration) ↔
        ¬ ∃ text, input = some text ∧ EndsWide (trim text.toList)) := by
  refine ⟨?_, fun _ _ _ _ => returns_validateRequestForCheck_iff, ?_⟩
  · rw [← @returns_parseRequest_iff lib]
    unfold WindowsReturn Returns
    constructor
    · rintro ⟨⟨req, hreq⟩ | ⟨e, he⟩, -⟩ <;> simp [*]
    · intro hreturns
      refine ⟨?_, fun req window => isWindow_of_parseRequest⟩
      cases hreq : parseRequest lib chipType body with
      | ok req => exact .inl ⟨req, rfl⟩
      | error stop =>
        cases stop with
        | error e => exact .inr ⟨e, rfl⟩
        | panic => exact absurd hreq hreturns
  · rw [← parseWindowDuration_panic_iff]
    cases hduration : parseWindowDuration input with
    | ok duration => simp
    | error p => simp

/-- A window whose unit is not of ASCII. -/
theorem wide_window_panics : ¬ ∀ (lib : ChronoLib) (chipType : String) (body : Json)
    (input : Option String), WindowsReturn lib chipType body ∧
      ∃ duration, parseWindowDuration input = .ok duration := by
  intro h
  obtain ⟨⟨hreturns, -⟩, -⟩ := h ⟨fun _ => .error "", fun _ => ""⟩ TYPE_AUDIT_REPORT_REQUEST_V1
    (.object [("window", .string "5µ")]) none
  have hpanic : parseRequest ⟨fun _ => .error "", fun _ => ""⟩ TYPE_AUDIT_REPORT_REQUEST_V1
      (.object [("window", .string "5µ")]) = .error .panic := by
    with_unfolding_all rfl
  rw [hpanic] at hreturns
  simp at hreturns

/-! ## The two parsers -/

theorem trim_eq_self {cs : List Char} (hhead : ∀ c ∈ cs.head?, isWhitespace c = false)
    (hlast : ∀ c ∈ cs.getLast?, isWhitespace c = false) : trim cs = cs := by
  have hdrop {cs : List Char} (h : ∀ c ∈ cs.head?, isWhitespace c = false) :
      cs.dropWhile isWhitespace = cs := by
    cases cs with
    | nil => rfl
    | cons c cs => rw [List.dropWhile_cons, h c rfl, if_neg Bool.false_ne_true]
  rw [trim, hdrop hhead, hdrop (by simpa using hlast), List.reverse_reverse]

theorem isWhitespace_of_isDigit {c : Char} (h : c.isDigit) : isWhitespace c = false := by
  have := Numeral.isDigit_bounds h
  simp only [isWhitespace, Bool.or_eq_false_iff, Bool.and_eq_false_iff, decide_eq_false_iff_not,
    beq_eq_false_iff_ne]
  omega

theorem durationOf_pos {value : UInt64} {unit : Char} (hvalue : 0 < value.toNat)
    (hunit : unit ∈ ['s', 'S', 'm', 'M', 'h', 'H']) :
    ∃ duration, durationOf value [unit] = some duration ∧ 0 < duration := by
  have hsaturating (n : ℕ) (hn : 0 < n) : 0 < fromSecs (saturatingMul value.toNat n) :=
    Nat.mul_pos (lt_min (Nat.mul_pos hvalue hn) (by decide)) (by decide)
  have hsecs : 0 < fromSecs value.toNat := Nat.mul_pos hvalue (by decide)
  fin_cases hunit
  · exact ⟨_, rfl, hsecs⟩
  · exact ⟨_, rfl, hsecs⟩
  · exact ⟨_, rfl, hsaturating 60 (by decide)⟩
  · exact ⟨_, rfl, hsaturating 60 (by decide)⟩
  · exact ⟨_, rfl, hsaturating 3600 (by decide)⟩
  · exact ⟨_, rfl, hsaturating 3600 (by decide)⟩

/-- A window that a report may have is a duration to the gate. -/
theorem parseWindowDuration_of_isWindow {text : String} (h : IsWindow text) :
    ∃ duration, parseWindowDuration (some text) = .ok (some duration) ∧ 0 < duration := by
  obtain ⟨sign, digits, unit, htext, hsign, hne, hdigits, hpos, hlt, hunit⟩ := h
  have hvalue := UInt64.toNat_ofNat_of_lt' hlt
  have hnum := parseU64_eq_some.mpr ⟨sign, digits, rfl, hsign, hne, hdigits, hvalue.symm⟩
  have hsize : unit.utf8Size = 1 := by
    fin_cases hunit <;> rfl
  have hwhite : isWhitespace unit = false := by
    fin_cases hunit <;> rfl
  have htrim : trim text.toList = text.toList := by
    refine trim_eq_self ?_ (by simp [htext, hwhite])
    obtain ⟨d, ds, rfl⟩ := List.exists_cons_of_ne_nil hne
    rcases hsign with rfl | rfl
    · simpa [htext] using isWhitespace_of_isDigit (hdigits d List.mem_cons_self)
    · simp [htext, show isWhitespace '+' = false from rfl]
  -- the unit is no digit
  have hbare : parseU64 text.toList = none := by
    refine Option.eq_none_iff_forall_ne_some.mpr fun value hsome => ?_
    obtain ⟨sign', digits', heq, -, hne', hdigits', -⟩ := parseU64_eq_some.mp hsome
    have hlast : digits'.getLast? = some unit := by
      rw [← List.getLast?_append_of_ne_nil sign' hne', ← heq, htext, List.getLast?_concat]
    have hdigit := hdigits' unit (List.mem_of_getLast? hlast)
    fin_cases hunit <;> cases hdigit
  have hsome : parseWindowDuration (some text) =
      .ok (durationOf (UInt64.ofNat (Nat.ofDigitChars 10 digits 0)) [unit]) := by
    have hlast : ByteSplit.splitLast text.toList = some (sign ++ digits, [unit]) := by
      rw [htext, ByteSplit.splitLast_append, if_pos hsize]
    simp only [parseWindowDuration, htrim, hbare, hlast, hnum]
    rw [if_neg (by simp [htext])]
  obtain ⟨duration, hduration, hpos⟩ := durationOf_pos (hvalue ▸ hpos) hunit
  exact ⟨duration, hduration ▸ hsome, hpos⟩

end Ubl.Gate
