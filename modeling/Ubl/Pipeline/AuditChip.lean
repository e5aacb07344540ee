import Ubl.Auth.Capability
import Ubl.Knock.Stage
import Ubl.Lib.ByteSplit
import Ubl.Lib.ExceptLemmas
import Ubl.Lib.Numeral

/-!
# `audit_chip.rs`: the bodies of audit requests

A report is asked for with a window such as `5m` or with a range of times, a snapshot and a
compaction with a range, an advisory with a subject.  The window is cut before its last byte, in front
of any check, and a text whose last character takes more than one byte cannot be cut there:

    Returns (parseRequest lib chipType body) ↔ ¬ WideWindow chipType body  (returns_parseRequest_iff)

Every other body is parsed or refused with an error.
-/

namespace Ubl.Pipeline

open Chipstore (strField StoredChip ChipStoreError)
open Knock (isBlank)
open Auth (CapLib Clock requireCap)
open ExceptLemmas

/-! ## Requests and errors -/

def TYPE_AUDIT_REPORT_REQUEST_V1 : String := "audit/report.request.v1"
def TYPE_AUDIT_LEDGER_SNAPSHOT_REQUEST_V1 : String := "audit/ledger.snapshot.request.v1"
def TYPE_LEDGER_SEGMENT_COMPACT_V1 : String := "ledger/segment.compact.v1"
def TYPE_AUDIT_ADVISORY_REQUEST_V1 : String := "audit/advisory.request.v1"

/-- A time as `DateTime<Utc>` orders them. -/
abbrev UtcTime := Int

/-- A range ends after it starts. -/
structure TimeRange where
  start : UtcTime
  stop : UtcTime
  lt : start < stop

structure ReportRequest where
  window : Option String
  range : Option TimeRange
  format : Option String

structure SnapshotRequest where
  range : TimeRange

structure SegmentSource where
  path : String
  sha256 : String
  lines : UInt64
deriving DecidableEq

structure CompactRequest where
  range : TimeRange
  snapshotRef : String
  sourceSegments : List SegmentSource
  mode : String

structure AdvisoryRequest where
  subjectKind : String
  subjectReceiptCid : String

inductive AuditRequest where
  | report (req : ReportRequest)
  | snapshot (req : SnapshotRequest)
  | compact (req : CompactRequest)
  | advisory (req : AdvisoryRequest)

inductive AuditError where
  | invalidField (text : String)
  | capability (text : String)
  | chipStore (text : String)
  | chipStoreRequired
  | snapshotOverlap (start stop : String)
  | snapshotRefNotFound (cid : String)
  | snapshotRefTypeMismatch (expected got : String)
  | snapshotDoesNotCoverRange
  | subjectReceiptNotFound (cid : String)
deriving DecidableEq

def AuditError.text : AuditError → String
  | .invalidField e => "invalid field: " ++ e
  | .capability e => "capability check failed: " ++ e
  | .chipStore e => "chipstore query failed: " ++ e
  | .chipStoreRequired => "chipstore required for audit validation"
  | .snapshotOverlap start stop =>
    "snapshot overlap detected for range " ++ start ++ ".." ++ stop
  | .snapshotRefNotFound cid => "snapshot reference not found: " ++ cid
  | .snapshotRefTypeMismatch expected got =>
    "snapshot reference type mismatch: expected " ++ expected ++ ", got " ++ got
  | .snapshotDoesNotCoverRange => "snapshot range does not cover compact range"
  | .subjectReceiptNotFound cid => "subject receipt not found: " ++ cid

/-- How a call ends that does not return `Ok`. -/
inductive AuditStop where
  | error (e : AuditError)
  | panic
deriving DecidableEq

/-- What `chrono` does. -/
structure ChronoLib where
  /-- `DateTime::parse_from_rfc3339`, in UTC. -/
  parseFromRfc3339 : String → Except String UtcTime
  toRfc3339 : UtcTime → String

def invalid {α : Type} (text : String) : Except AuditStop α := .error (.error (.invalidField text))

/-- `ok_or_else(|| AuditError::InvalidField(text))`. -/
def orInvalid {α : Type} (text : String) : Option α → Except AuditStop α
  | some a => .ok a
  | none => invalid text

/-! ## The parsers -/

/-- The digits behind a plus, or all of them. -/
def unsigned : List Char → List Char
  | '+' :: digits => digits
  | digits => digits

/-- `str::parse::<u64>`. -/
def parseU64 (cs : List Char) : Option UInt64 :=
  let digits := unsigned cs
  if digits ≠ [] ∧ digits.all Char.isDigit ∧ Nat.ofDigitChars 10 digits 0 < 2 ^ 64 then
    some (UInt64.ofNat (Nat.ofDigitChars 10 digits 0))
  else none

/-- The parts of a window. -/
def checkWindow (num unit : List Char) : Except AuditStop Unit :=
  match parseU64 num with
  | none => invalid "window must be like 30s|5m|1h"
  | some value =>
    if value = 0 then invalid "window must be greater than zero"
    else if unit ∉ [['s'], ['S'], ['m'], ['M'], ['h'], ['H']] then
      invalid "window unit must be s|m|h"
    else .ok ()

def parseWindow (window : String) : Except AuditStop Unit :=
  if window = "" then invalid "window cannot be empty"
  else
    match ByteSplit.splitLast window.toList with
    | none => .error .panic
    | some (num, unit) => checkWindow num unit

variable (lib : ChronoLib)

def parseRfc3339 (field text : String) : Except AuditStop UtcTime :=
  match lib.parseFromRfc3339 text with
  | .error e => invalid ("range." ++ field ++ " invalid RFC-3339: " ++ e)
  | .ok time => .ok time

def parseRange (value : Json) : Except AuditStop TimeRange := do
  let start ← orInvalid "range.start missing" (strField value "start")
  let stop ← orInvalid "range.end missing" (strField value "end")
  let start ← parseRfc3339 lib "start" start
  let stop ← parseRfc3339 lib "end" stop
  if h : start < stop then .ok ⟨start, stop, h⟩
  else invalid "range.end must be greater than range.start"

/-- The range of a report: under its name, or as `start` and `end` of the body. -/
def reportRange (body : Json) : Except AuditStop (Option TimeRange) :=
  match body.get "range" with
  | some value => (parseRange lib value).map some
  | none =>
    match body.get "start", body.get "end" with
    | some start, some stop =>
      (parseRange lib (.object [("start", start), ("end", stop)])).map some
    | _, _ => .ok none

def checkReportWindow : Option String → Except AuditStop Unit
  | none => .ok ()
  | some window => parseWindow window

def parseReportRequest (body : Json) : Except AuditStop ReportRequest := do
  let window := strField body "window"
  checkReportWindow window
  let range ← reportRange lib body
  if window.isNone && range.isNone then
    invalid "report request requires either window or range"
  else .ok ⟨window, range, strField body "format"⟩

def rangeOf (body : Json) : Except AuditStop TimeRange := do
  let value ← orInvalid "missing range" (body.get "range")
  parseRange lib value

def parseSnapshotRequest (body : Json) : Except AuditStop SnapshotRequest := do
  let range ← rangeOf lib body
  .ok ⟨range⟩

/-- `starts_with("b3:")`. -/
def isCidLike (s : String) : Bool := "b3:".toList.isPrefixOf s.toList

def isHexDigit (c : Char) : Bool :=
  c.isDigit || ('a' ≤ c && c ≤ 'f') || ('A' ≤ c && c ≤ 'F')

def segmentField (i : Nat) (field : String) : String :=
  "source_segments[" ++ toString i ++ "]." ++ field

def parseSegment (i : Nat) (segment : Json) : Except AuditStop SegmentSource := do
  let path ← orInvalid (segmentField i "path") (strField segment "path")
  let sha256 ← orInvalid (segmentField i "sha256") (strField segment "sha256")
  let lines ← orInvalid (segmentField i "lines") ((segment.get "lines").bind Json.asU64)
  .ok ⟨path, sha256, lines⟩

def parseSegments : Nat → List Json → Except AuditStop (List SegmentSource)
  | _, [] => .ok []
  | i, v :: vs => do
    let segment ← parseSegment i v
    let segments ← parseSegments (i + 1) vs
    .ok (segment :: segments)

def validateSegment (i : Nat) (segment : SegmentSource) : Except AuditStop Unit :=
  if isBlank segment.path then invalid (segmentField i "path" ++ " cannot be empty")
  else if segment.lines = 0 then invalid (segmentField i "lines" ++ " must be > 0")
  else if ¬ (ByteSplit.width segment.sha256.toList = 64 ∧ segment.sha256.toList.all isHexDigit) then
    invalid (segmentField i "sha256" ++ " must be 64 hex chars")
  else .ok ()

def validateSourceSegments : Nat → List SegmentSource → Except AuditStop Unit
  | _, [] => .ok ()
  | i, segment :: segments => do
    validateSegment i segment
    validateSourceSegments (i + 1) segments

def parseCompactRequest (body : Json) : Except AuditStop CompactRequest := do
  let range ← rangeOf lib body
  let snapshotRef ← orInvalid "missing snapshot_ref" (strField body "snapshot_ref")
  if isCidLike snapshotRef then do
    let mode ← orInvalid "missing mode" (strField body "mode")
    if mode = "archive_then_delete" ∨ mode = "delete_with_rollup" then do
      let segments ← orInvalid "missing source_segments"
        ((body.get "source_segments").bind Json.asArray)
      if segments.isEmpty then invalid "source_segments cannot be empty"
      else do
        let sourceSegments ← parseSegments 0 segments
        validateSourceSegments 0 sourceSegments
        .ok ⟨range, snapshotRef, sourceSegments, mode⟩
    else invalid "mode must be archive_then_delete|delete_with_rollup"
  else invalid "snapshot_ref must be CID-like (b3:...)"

def parseAdvisoryRequest (body : Json) : Except AuditStop AdvisoryRequest := do
  let subject ← orInvalid "missing subject" (body.get "subject")
  let subjectKind ← orInvalid "subject.kind" (strField subject "kind")
  if subjectKind = "report" ∨ subjectKind = "snapshot" then do
    let subjectReceiptCid ← orInvalid "subject.receipt_cid" (strField subject "receipt_cid")
    if isCidLike subjectReceiptCid then .ok ⟨subjectKind, subjectReceiptCid⟩
    else invalid "subject.receipt_cid must be CID-like (b3:...)"
  else invalid "subject.kind must be report|snapshot"

def parseRequest (chipType : String) (body : Json) : Except AuditStop AuditRequest :=
  if chipType = TYPE_AUDIT_REPORT_REQUEST_V1 then (parseReportRequest lib body).map .report
  else if chipType = TYPE_AUDIT_LEDGER_SNAPSHOT_REQUEST_V1 then
    (parseSnapshotRequest lib body).map .snapshot
  else if chipType = TYPE_LEDGER_SEGMENT_COMPACT_V1 then
    (parseCompactRequest lib body).map .compact
  else if chipType = TYPE_AUDIT_ADVISORY_REQUEST_V1 then
    (parseAdvisoryRequest body).map .advisory
  else invalid ("unsupported audit chip type '" ++ chipType ++ "'")

/-! ## No other panic -/

def Returns {α : Type} (x : Except AuditStop α) : Prop := x ≠ .error .panic

section Returns

variable {α β : Type}

@[simp] theorem returns_ok (a : α) : Returns (.ok a) := by simp [Returns]

@[simp] theorem returns_invalid (text : String) : Returns (invalid text : Except AuditStop α) := by
  simp [Returns, invalid]

@[simp] theorem returns_orInvalid (text : String) (value : Option α) :
    Returns (orInvalid text value) := by
  cases value <;> simp [orInvalid]

theorem Returns.bind {x : Except AuditStop α} {f : α → Except AuditStop β} (hx : Returns x)
    (hf : ∀ a, Returns (f a)) : Returns (x >>= f) := by
  cases x with
  | error e => exact fun h => hx (congrArg Except.error (Except.error.inj h))
  | ok a => exact hf a

theorem returns_bind_iff {x : Except AuditStop α} {f : α → Except AuditStop β}
    (hf : ∀ a, Returns (f a)) : Returns (x >>= f) ↔ Returns x := by
  refine ⟨fun h hx => h ?_, fun hx => hx.bind hf⟩
  rw [hx]
  rfl

theorem returns_map_iff {x : Except AuditStop α} {f : α → β} : Returns (x.map f) ↔ Returns x := by
  cases x <;> simp [Returns, Except.map]

end Returns

/-! ## Windows -/

/-- A positive numeral that fits 64 bits, as `u64::from_str` reads it, and the letter of a unit. -/
def IsWindow (window : String) : Prop :=
  ∃ sign digits unit, window.toList = sign ++ digits ++ [unit] ∧ (sign = [] ∨ sign = ['+']) ∧
    digits ≠ [] ∧ (∀ c ∈ digits, c.isDigit) ∧ 0 < Nat.ofDigitChars 10 digits 0 ∧
    Nat.ofDigitChars 10 digits 0 < 2 ^ 64 ∧ unit ∈ ['s', 'S', 'm', 'M', 'h', 'H']

/-- A text that ends in a character of more than one byte. -/
def EndsWide (cs : List Char) : Prop := ∃ c ∈ cs.getLast?, 127 < c.toNat

theorem unsigned_cases (cs : List Char) : cs = '+' :: unsigned cs ∨ cs = unsigned cs := by
  unfold unsigned
  split
  · exact .inl rfl
  · exact .inr rfl

theorem unsigned_digits {digits : List Char} (h : ∀ c ∈ digits, c.isDigit) :
    unsigned digits = digits := by
  unfold unsigned
  split
  · exact absurd (h '+' List.mem_cons_self) (by decide)
  · rfl

theorem parseU64_eq_some {cs : List Char} {value : UInt64} : parseU64 cs = some value ↔
    ∃ sign digits, cs = sign ++ digits ∧ (sign = [] ∨ sign = ['+']) ∧ digits ≠ [] ∧
      (∀ c ∈ digits, c.isDigit) ∧ Nat.ofDigitChars 10 digits 0 = value.toNat := by
  simp only [parseU64, Option.ite_none_right_eq_some, Option.some_inj]
  constructor
  · rintro ⟨⟨hne, hdigits, hlt⟩, rfl⟩
    have hvalue : Nat.ofDigitChars 10 (unsigned cs) 0 =
        (UInt64.ofNat (Nat.ofDigitChars 10 (unsigned cs) 0)).toNat :=
      (UInt64.toNat_ofNat_of_lt' hlt).symm
    rcases unsigned_cases cs with hsign | hsign
    · exact ⟨['+'], unsigned cs, hsign, .inr rfl, hne, List.all_eq_true.mp hdigits, hvalue⟩
    · exact ⟨[], unsigned cs, hsign, .inl rfl, hne, List.all_eq_true.mp hdigits, hvalue⟩
  · rintro ⟨sign, digits, rfl, hsign, hne, hdigits, hvalue⟩
    have hunsigned : unsigned (sign ++ digits) = digits := by
      rcases hsign with rfl | rfl
      · exact unsigned_digits hdigits
      · rfl
    rw [hunsigned, hvalue, UInt64.ofNat_toNat]
    exact ⟨⟨hne, List.all_eq_true.mpr hdigits, value.toNat_lt⟩, rfl⟩

theorem not_endsWide_of_parseU64 {cs : List Char} {value : UInt64}
    (h : parseU64 cs = some value) : ¬ EndsWide cs := by
  obtain ⟨sign, digits, rfl, -, hne, hdigits, -⟩ := parseU64_eq_some.mp h
  rintro ⟨c, hc, hwide⟩
  rw [Option.mem_def, List.getLast?_append_of_ne_nil _ hne] at hc
  have := Numeral.isDigit_bounds (hdigits c (List.mem_of_getLast? hc))
  omega

theorem returns_checkWindow (num unit : List Char) : Returns (checkWindow num unit) := by
  unfold checkWindow
  split
  · exact returns_invalid _
  · split_ifs <;> simp

theorem checkWindow_eq_ok {num unit : List Char} : checkWindow num unit = .ok () ↔
    ∃ value, parseU64 num = some value ∧ value ≠ 0 ∧
      unit ∈ [['s'], ['S'], ['m'], ['M'], ['h'], ['H']] := by
  unfold checkWindow invalid
  split
  · rename_i hnone
    simp [hnone]
  · rename_i value hvalue
    rw [ite_error_eq_ok, ite_error_eq_ok, not_not, hvalue]
    simp

theorem parseWindow_panic_iff {window : String} :
    parseWindow window = .error .panic ↔ EndsWide window.toList := by
  rw [EndsWide, ← ByteSplit.splitLast_eq_none_iff]
  unfold parseWindow
  by_cases hempty : window = ""
  · subst hempty
    simp [invalid]
  · rw [if_neg hempty]
    cases ByteSplit.splitLast window.toList with
    | none => simp
    | some parts => simpa [Returns] using returns_checkWindow parts.1 parts.2

theorem parseWindow_eq_ok {window : String} : parseWindow window = .ok () ↔ IsWindow window := by
  constructor
  · intro h
    rw [parseWindow, invalid, ite_error_eq_ok] at h
    obtain ⟨-, h⟩ := h
    split at h
    · cases h
    · rename_i num unit hparts
      obtain ⟨value, hvalue, hpos, hunit⟩ := checkWindow_eq_ok.mp h
      obtain ⟨sign, digits, rfl, hsign, hne, hdigits, heq⟩ := parseU64_eq_some.mp hvalue
      obtain ⟨htext, -⟩ := ByteSplit.splitAt_eq_some.mp hparts
      have hnum : 0 < Nat.ofDigitChars 10 digits 0 := by
        rw [heq]
        exact Nat.pos_of_ne_zero fun hzero => hpos (UInt64.toNat_inj.mp hzero)
      have hlt : Nat.ofDigitChars 10 digits 0 < 2 ^ 64 := heq ▸ value.toNat_lt
      have hletters : unit ∈ ['s', 'S', 'm', 'M', 'h', 'H'].map fun c => [c] := hunit
      obtain ⟨letter, hletter, rfl⟩ := List.mem_map.mp hletters
      exact ⟨sign, digits, letter, htext, hsign, hne, hdigits, hnum, hlt, hletter⟩
  · rintro ⟨sign, digits, unit, htext, hsign, hne, hdigits, hpos, hlt, hunit⟩
    have hempty : window ≠ "" := by
      rintro rfl
      simp at htext
    have hsize : unit.utf8Size = 1 := by
      fin_cases hunit <;> rfl
    unfold parseWindow
    rw [if_neg hempty, htext, ByteSplit.splitLast_append, if_pos hsize]
    have hvalue := UInt64.toNat_ofNat_of_lt' hlt
    refine checkWindow_eq_ok.mpr
      ⟨_, parseU64_eq_some.mpr ⟨sign, digits, rfl, hsign, hne, hdigits, hvalue.symm⟩, ?_, ?_⟩
    · intro hzero
      rw [hzero] at hvalue
      exact hpos.ne hvalue
    · simpa using hunit

/-! ## Requests -/

section Requests

variable {lib} {body : Json}

theorem returns_parseRfc3339 (field text : String) : Returns (parseRfc3339 lib field text) := by
  unfold parseRfc3339
  split <;> simp

theorem returns_parseRange (value : Json) : Returns (parseRange lib value) := by
  refine (returns_orInvalid _ _).bind fun start => (returns_orInvalid _ _).bind fun stop =>
    (returns_parseRfc3339 _ _).bind fun start => (returns_parseRfc3339 _ _).bind fun stop => ?_
  split_ifs <;> simp

theorem returns_reportRange (body : Json) : Returns (reportRange lib body) := by
  unfold reportRange
  split
  · exact returns_map_iff.mpr (returns_parseRange _)
  · split
    · exact returns_map_iff.mpr (returns_parseRange _)
    · exact returns_ok _

theorem returns_rangeOf (body : Json) : Returns (rangeOf lib body) :=
  (returns_orInvalid _ _).bind fun value => returns_parseRange value

theorem returns_parseSnapshotRequest (body : Json) : Returns (parseSnapshotRequest lib body) :=
  (returns_rangeOf body).bind fun _ => returns_ok _

theorem returns_parseSegment (i : Nat) (segment : Json) : Returns (parseSegment i segment) :=
  (returns_orInvalid _ _).bind fun _ => (returns_orInvalid _ _).bind fun _ =>
    (returns_orInvalid _ _).bind fun _ => returns_ok _

theorem returns_parseSegments (i : Nat) (segments : List Json) :
    Returns (parseSegments i segments) := by
  induction segments generalizing i with
  | nil => exact returns_ok _
  | cons v vs ih =>
    exact (returns_parseSegment i v).bind fun _ => (ih (i + 1)).bind fun _ => returns_ok _

theorem returns_validateSourceSegments (i : Nat) (segments : List SegmentSource) :
    Returns (validateSourceSegments i segments) := by
  induction segments generalizing i with
  | nil => exact returns_ok _
  | cons segment segments ih =>
    refine Returns.bind ?_ fun _ => ih (i + 1)
    unfold validateSegment
    split_ifs <;> simp

theorem returns_parseCompactRequest (body : Json) : Returns (parseCompactRequest lib body) := by
  refine (returns_rangeOf body).bind fun range => (returns_orInvalid _ _).bind fun snapshotRef => ?_
  split_ifs
  · refine (returns_orInvalid _ _).bind fun mode => ?_
    split_ifs
    · refine (returns_orInvalid _ _).bind fun segments => ?_
      split_ifs
      · exact returns_invalid _
      · exact (returns_parseSegments 0 segments).bind fun sourceSegments =>
          (returns_validateSourceSegments 0 sourceSegments).bind fun _ => returns_ok _
    · exact returns_invalid _
  · exact returns_invalid _

theorem returns_parseAdvisoryRequest (body : Json) : Returns (parseAdvisoryRequest body) := by
  refine (returns_orInvalid _ _).bind fun subject => (returns_orInvalid _ _).bind fun kind => ?_
  split_ifs
  · refine (returns_orInvalid _ _).bind fun cid => ?_
    split_ifs <;> simp
  · exact returns_invalid _

/-- A report whose window ends in a character of more than one byte. -/
def WideWindow (chipType : String) (body : Json) : Prop :=
  chipType = TYPE_AUDIT_REPORT_REQUEST_V1 ∧
    ∃ window, strField body "window" = some window ∧ EndsWide window.toList

/-- A report panics where its window does. -/
theorem returns_parseReportRequest_iff : Returns (parseReportRequest lib body) ↔
    ∀ window, strField body "window" = some window → ¬ EndsWide window.toList := by
  unfold parseReportRequest
  rw [returns_bind_iff fun _ => (returns_reportRange body).bind fun range => by
    split_ifs <;> simp]
  unfold checkReportWindow
  cases strField body "window" with
  | none => simp
  | some window => simp [Returns, parseWindow_panic_iff]

theorem isWindow_of_parseReportRequest {req : ReportRequest} {window : String}
    (h : parseReportRequest lib body = .ok req) (hwindow : req.window = some window) :
    IsWindow window := by
  obtain ⟨_, hcheck, h⟩ := bind_eq_ok.mp h
  obtain ⟨range, -, h⟩ := bind_eq_ok.mp h
  unfold invalid at h
  obtain ⟨-, h⟩ := ite_error_eq_ok.mp h
  obtain rfl := Except.ok.inj h
  rw [show strField body "window" = some window from hwindow] at hcheck
  exact parseWindow_eq_ok.mp hcheck

theorem returns_parseRequest_iff {chipType : String} :
    Returns (parseRequest lib chipType body) ↔ ¬ WideWindow chipType body := by
  unfold parseRequest WideWindow
  by_cases hreport : chipType = TYPE_AUDIT_REPORT_REQUEST_V1
  · rw [if_pos hreport, returns_map_iff, returns_parseReportRequest_iff]
    simp [hreport]
  · rw [if_neg hreport]
    refine iff_of_true ?_ fun h => hreport h.1
    split_ifs
    · exact returns_map_iff.mpr (returns_parseSnapshotRequest body)
    · exact returns_map_iff.mpr (returns_parseCompactRequest body)
    · exact returns_map_iff.mpr (returns_parseAdvisoryRequest body)
    · exact returns_invalid _

/-- A report that is accepted with a window. -/
theorem isWindow_of_parseRequest {chipType : String} {req : ReportRequest} {window : String}
    (h : parseRequest lib chipType body = .ok (.report req)) (hwindow : req.window = some window) :
    IsWindow window := by
  unfold parseRequest at h
  split_ifs at h
  · cases hreport : parseReportRequest lib body with
    | error e =>
      rw [hreport] at h
      cases h
    | ok req' =>
      rw [hreport] at h
      cases h
      exact isWindow_of_parseReportRequest hreport hwindow
  · cases hsnapshot : parseSnapshotRequest lib body <;> rw [hsnapshot] at h <;> cases h
  · cases hcompact : parseCompactRequest lib body <;> rw [hcompact] at h <;> cases h
  · cases hadvisory : parseAdvisoryRequest body <;> rw [hadvisory] at h <;> cases h
  · cases h

end Requests

/-! ## The check -/

/-- What the check reads of the chip store. -/
structure AuditReader where
  getChipsByType : String → Except ChipStoreError (List StoredChip)
  getChip : String → Except ChipStoreError (Option StoredChip)
  getChipByReceiptCid : String → Except ChipStoreError (Option StoredChip)

/-- `map_err(chipstore_err)`. -/
def chipstoreErr {α : Type} (answer : Except ChipStoreError α) : Except AuditStop α :=
  answer.mapError fun e => .error (.chipStore e.text)

def rangesOverlap (a b : TimeRange) : Bool := a.start ≤ b.stop && b.start ≤ a.stop

def rangeCovers (outer inner : TimeRange) : Bool :=
  outer.start ≤ inner.start && inner.stop ≤ outer.stop

/-- A snapshot of another world, or of the same `@id`, is passed over. -/
def isPassedOver (world : String) (body : Json) (chip : StoredChip) : Bool :=
  (strField chip.chipData "@world").any (· ≠ world) ||
    (strField body "@id").any fun id => strField chip.chipData "@id" = some id

/-- A stored snapshot that the requested one overlaps. -/
def isOverlapped (world : String) (range : TimeRange) (body : Json) (chip : StoredChip) : Bool :=
  !isPassedOver world body chip &&
    match parseSnapshotRequest lib chip.chipData with
    | .error _ => false
    | .ok existing => rangesOverlap range existing.range

def ensureNoSnapshotOverlap (reader : AuditReader) (world : String) (range : TimeRange)
    (body : Json) : Except AuditStop Unit := do
  let existing ← chipstoreErr (reader.getChipsByType TYPE_AUDIT_LEDGER_SNAPSHOT_REQUEST_V1)
  if existing.any (isOverlapped lib world range body) then
    .error (.error (.snapshotOverlap (lib.toRfc3339 range.start) (lib.toRfc3339 range.stop)))
  else .ok ()

def findSnapshotChipByRef (reader : AuditReader) (snapshotRef : String) :
    Except AuditStop (Option StoredChip) := do
  match ← chipstoreErr (reader.getChip snapshotRef) with
  | some chip => .ok (some chip)
  | none => chipstoreErr (reader.getChipByReceiptCid snapshotRef)

def ensureSnapshotReferenceCoversRange (reader : AuditReader) (snapshotRef : String)
    (range : TimeRange) : Except AuditStop Unit := do
  match ← findSnapshotChipByRef reader snapshotRef with
  | none => .error (.error (.snapshotRefNotFound snapshotRef))
  | some chip =>
    if chip.chipType ≠ TYPE_AUDIT_LEDGER_SNAPSHOT_REQUEST_V1 then
      .error (.error (.snapshotRefTypeMismatch TYPE_AUDIT_LEDGER_SNAPSHOT_REQUEST_V1 chip.chipType))
    else do
      let snapshot ← parseSnapshotRequest lib chip.chipData
      if rangeCovers snapshot.range range then .ok ()
      else .error (.error .snapshotDoesNotCoverRange)

def validateAdvisoryInputs (body : Json) : Except AuditStop Unit :=
  match body.get "inputs" with
  | none => .ok ()
  | some inputs => do
    let members ← orInvalid "inputs must be object" inputs.asObject
    match members.find? fun m => m.1 ∉ ["dataset_cid", "histograms_cid", "hll_cid"] with
    | some m => invalid ("inputs." ++ m.1 ++ " not allowed; only aggregate CIDs are accepted")
    | none => .ok ()

def checkFormat (format : String) : Except AuditStop Unit :=
  if format ∈ ["ndjson", "csv", "pdf"] then .ok ()
  else invalid ("format must be one of ndjson|csv|pdf, got '" ++ format ++ "'")

variable (capLib : CapLib) (clock : Clock)

def requireAuditCap (body : Json) (action world : String) : Except AuditStop Unit :=
  match requireCap capLib clock body action world with
  | .error e => .error (.error (.capability e.text))
  | .ok _ => .ok ()

def requireStore (reader : Option AuditReader) : Except AuditStop AuditReader :=
  match reader with
  | none => .error (.error .chipStoreRequired)
  | some reader => .ok reader

/-- The check of what was parsed. -/
def validateParsed (body : Json) (world : String) (reader : Option AuditReader) :
    AuditRequest → Except AuditStop Unit
  | .report req => do
    requireAuditCap capLib clock body "audit:report" world
    match req.format with
    | none => .ok ()
    | some format => checkFormat format
  | .snapshot req => do
    requireAuditCap capLib clock body "audit:snapshot" world
    let reader ← requireStore reader
    ensureNoSnapshotOverlap lib reader world req.range body
  | .compact req => do
    requireAuditCap capLib clock body "ledger:compact" world
    let reader ← requireStore reader
    ensureSnapshotReferenceCoversRange lib reader req.snapshotRef req.range
    validateSourceSegments 0 req.sourceSegments
  | .advisory req => do
    requireAuditCap capLib clock body "audit:advisory" world
    validateAdvisoryInputs body
    let reader ← requireStore reader
    match ← chipstoreErr (reader.getChipByReceiptCid req.subjectReceiptCid) with
    | none => .error (.error (.subjectReceiptNotFound req.subjectReceiptCid))
    | some _ => .ok ()

def validateRequestForCheck (chipType : String) (body : Json) (world : String)
    (reader : Option AuditReader) : Except AuditStop AuditRequest := do
  let parsed ← parseRequest lib chipType body
  validateParsed lib capLib clock body world reader parsed
  .ok parsed

section Check

variable {lib capLib clock} {body : Json} {world : String} {reader : Option AuditReader}

theorem returns_chipstoreErr {α : Type} (answer : Except ChipStoreError α) :
    Returns (chipstoreErr answer) := by
  cases answer <;> simp [Returns, chipstoreErr]

theorem returns_requireAuditCap (action : String) :
    Returns (requireAuditCap capLib clock body action world) := by
  unfold requireAuditCap
  split <;> simp [Returns]

theorem returns_requireStore : Returns (requireStore reader) := by
  cases reader <;> simp [Returns, requireStore]

theorem returns_ensureNoSnapshotOverlap (reader : AuditReader) (range : TimeRange) :
    Returns (ensureNoSnapshotOverlap lib reader world range body) := by
  refine (returns_chipstoreErr _).bind fun existing => ?_
  split_ifs <;> simp [Returns]

theorem returns_ensureSnapshotReferenceCoversRange (reader : AuditReader) (snapshotRef : String)
    (range : TimeRange) :
    Returns (ensureSnapshotReferenceCoversRange lib reader snapshotRef range) := by
  have hfind : Returns (findSnapshotChipByRef reader snapshotRef) := by
    refine (returns_chipstoreErr _).bind fun chip => ?_
    cases chip with
    | none => exact returns_chipstoreErr _
    | some chip => exact returns_ok _
  refine hfind.bind fun chip => ?_
  cases chip with
  | none => simp [Returns]
  | some chip =>
    dsimp only
    split_ifs
    · simp [Returns]
    · refine (returns_parseSnapshotRequest chip.chipData).bind fun snapshot => ?_
      split_ifs <;> simp [Returns]

theorem returns_validateAdvisoryInputs (body : Json) : Returns (validateAdvisoryInputs body) := by
  unfold validateAdvisoryInputs
  split
  · exact returns_ok _
  · refine (returns_orInvalid _ _).bind fun members => ?_
    split <;> simp

theorem returns_checkFormat (format : String) : Returns (checkFormat format) := by
  unfold checkFormat
  split_ifs <;> simp

theorem returns_validateParsed (req : AuditRequest) :
    Returns (validateParsed lib capLib clock body world reader req) := by
  cases req with
  | report req =>
    refine (returns_requireAuditCap _).bind fun _ => ?_
    cases req.format with
    | none => exact returns_ok _
    | some format => exact returns_checkFormat format
  | snapshot req =>
    exact (returns_requireAuditCap _).bind fun _ => returns_requireStore.bind fun reader =>
      returns_ensureNoSnapshotOverlap reader req.range
  | compact req =>
    exact (returns_requireAuditCap _).bind fun _ => returns_requireStore.bind fun reader =>
      (returns_ensureSnapshotReferenceCoversRange reader req.snapshotRef req.range).bind fun _ =>
        returns_validateSourceSegments 0 req.sourceSegments
  | advisory req =>
    refine (returns_requireAuditCap _).bind fun _ => (returns_validateAdvisoryInputs body).bind
      fun _ => returns_requireStore.bind fun reader => (returns_chipstoreErr _).bind fun subject => ?_
    cases subject <;> simp [Returns]

/-- The check panics where the parser does. -/
theorem returns_validateRequestForCheck_iff {chipType : String} :
    Returns (validateRequestForCheck lib capLib clock chipType body world reader) ↔
      ¬ WideWindow chipType body := by
  rw [← @returns_parseRequest_iff lib, validateRequestForCheck, returns_bind_iff]
  exact fun parsed => (returns_validateParsed parsed).bind fun _ => returns_ok _

end Check

end Ubl.Pipeline
