import Ubl.Auth.World
import Ubl.Eventstore.Queries
import Ubl.Receipt.Unified

/-!
# `events.rs`: the events of the bus as JSON

The bus carries a `ReceiptEvent` for every stage of the pipeline.  `toHubEvent` makes of it the event
that is stored and sent; a client that follows the bus has the filters applied to that
(`hubMatchesQuery`).  What passes there matches in the store too, and its indexes hold it under what
is asked for, but for an empty decision (`indexedFor_of_hubMatchesQuery`).
-/

namespace Ubl.Gate

open Eventstore AssocMap
open Ubl.Nrf (splitParts)
open Ubl.Auth (splitParts_eq_iff)
open Ubl.Receipt (optional stringOrNull strings)

/-! ## The events -/

/-- What the hub reads of an event of the bus. -/
structure ReceiptEvent where
  receiptCid : String
  receiptType : String
  decision : Option String
  durationMs : Option Int64
  timestamp : String
  pipelineStage : String
  fuelUsed : Option UInt64
  artifactCids : List String
  metadata : Json
  inputCid : Option String
  outputCid : Option String
  binaryHash : Option String
  buildMeta : Option Json
  world : Option String
  actor : Option String
  subjectDid : Option String
  knockCid : Option String
  latencyMs : Option Int64

def toAsciiLowercase (s : String) : String := String.ofList (s.toList.map Char.toLower)

def normalizeStage (stage : String) : String :=
  match toAsciiLowercase stage with
  | "knock" => "KNOCK"
  | "wa" | "write_ahead" => "WA"
  | "check" => "CHECK"
  | "tr" | "transition" => "TR"
  | "wf" | "write_finished" => "WF"
  | "registry" => "REGISTRY"
  | other => toAsciiUppercase other

def deterministicEventId (event : ReceiptEvent) (stage : String) : String :=
  "evt:" ++ event.receiptCid ++ ":" ++ stage ++ ":" ++ event.inputCid.getD "" ++ ":" ++
    event.outputCid.getD ""

def orNull : Option Json → Json
  | none => .null
  | some v => v

def toHubEvent (event : ReceiptEvent) : Json :=
  let stage := normalizeStage event.pipelineStage
  let code := strAt event.metadata ["code"]
  let cap := strAt event.metadata ["cap"]
  .object [
    ("@type", .string "ubl/event"),
    ("@ver", .string "1.0.0"),
    ("@id", .string (deterministicEventId event stage)),
    ("@world", .string (event.world.getD "a/system")),
    ("source", .string "pipeline"),
    ("stage", .string stage),
    ("when", .string event.timestamp),
    ("chip", .object [
      ("type", .string event.receiptType),
      ("id", .string ((strAt event.metadata ["@id"]).getD "")),
      ("ver", .string ((strAt event.metadata ["@ver"]).getD ""))]),
    ("receipt", .object (
      [("cid", .string event.receiptCid),
        ("decision", stringOrNull (event.decision.map toAsciiUppercase))] ++
      optional "code" (code.map .string) ++
      optional "knock_cid" (event.knockCid.map .string))),
    ("perf", .object [
      ("latency_ms", orNull ((event.latencyMs.or event.durationMs).map fun n => .number (.ofI64 n))),
      ("fuel", orNull (event.fuelUsed.map fun n => .number (.posInt n))),
      ("mem_kb", .null)]),
    ("actor", .object (
      [("kid", stringOrNull event.actor)] ++
      optional "did" (event.subjectDid.map .string) ++
      optional "cap" (cap.map .string))),
    ("artifacts", strings event.artifactCids),
    ("runtime", .object [
      ("binary_hash", stringOrNull event.binaryHash),
      ("build", orNull event.buildMeta)]),
    ("labels", .object [])]

/-- The filters of a client that follows the bus. -/
def hubMatchesQuery (event : Json) (query : EventQuery) : Bool :=
  query.world.all (fun world => strAt event ["@world"] = some world) &&
    query.stage.all (fun stage =>
      (strAt event ["stage"]).getD "" = stage ||
        eqIgnoreAsciiCase ((strAt event ["stage"]).getD "") stage) &&
    query.decision.all (fun decision =>
      (strAt event ["receipt", "decision"]).getD "" = decision ||
        eqIgnoreAsciiCase ((strAt event ["receipt", "decision"]).getD "") decision) &&
    query.code.all (fun code => strAt event ["receipt", "code"] = some code) &&
    query.chipType.all (fun chipType =>
      chipType = "*" || (strAt event ["chip", "type"]).getD "" = chipType) &&
    query.actor.all (fun actor => strAt event ["actor", "kid"] = some actor)

/-! ## The fields of a hub event -/

section Fields

variable (event : ReceiptEvent)

theorem eventStage_toHubEvent :
    eventStage (toHubEvent event) = some (normalizeStage event.pipelineStage) := rfl

theorem eventChipType_toHubEvent : eventChipType (toHubEvent event) = some event.receiptType := rfl

theorem strAt_decision : strAt (toHubEvent event) ["receipt", "decision"] =
    event.decision.map toAsciiUppercase := by
  show (stringOrNull (event.decision.map toAsciiUppercase)).asStr = _
  cases event.decision <;> rfl

theorem eventDecision_toHubEvent :
    eventDecision (toHubEvent event) = event.decision.map toAsciiUppercase := by
  have hdecision := strAt_decision event
  rw [eventDecision, firstStr, List.findSome?_cons, hdecision]
  cases event.decision <;> rfl

theorem strAt_code :
    strAt (toHubEvent event) ["receipt", "code"] = strAt event.metadata ["code"] := by
  show strAt (.object (_ ++ optional "code" ((strAt event.metadata ["code"]).map .string) ++
    optional "knock_cid" (event.knockCid.map .string))) ["code"] = _
  cases strAt event.metadata ["code"] <;> cases event.knockCid <;> rfl

theorem eventCode_toHubEvent :
    eventCode (toHubEvent event) = strAt event.metadata ["code"] := by
  have hcode := strAt_code event
  rw [eventCode, firstStr, List.findSome?_cons, hcode]
  cases strAt event.metadata ["code"] <;> rfl

theorem strAt_kid : strAt (toHubEvent event) ["actor", "kid"] = event.actor := by
  show (stringOrNull event.actor).asStr = _
  cases event.actor <;> rfl

theorem eventActor_toHubEvent : eventActor (toHubEvent event) = event.actor := by
  have hkid := strAt_kid event
  rw [eventActor, firstStr, List.findSome?_cons, hkid]
  cases event.actor <;> rfl

end Fields

/-! ## Normal form -/

/-- The id of a hub event. -/
def hubId (event : ReceiptEvent) : String :=
  deterministicEventId event (normalizeStage event.pipelineStage)

/-- A hub event is normal. -/
theorem normalizeEvent_toHubEvent {lib : EventLib} {event : ReceiptEvent} {ms : Int64}
    (htime : lib.rfc3339Millis event.timestamp = .ok ms) :
    normalizeEvent lib (toHubEvent event) = .ok ⟨hubId event, ms, toHubEvent event⟩ := by
  obtain ⟨members, hmembers⟩ : ∃ members, toHubEvent event = .object members := ⟨_, rfl⟩
  have hdefaults : withDefaults members = members := by
    cases hmembers
    rfl
  have hid : eventIdOf lib (.object members) = hubId event := by
    cases hmembers
    rfl
  have hback : insertBack "@id" (.string (hubId event)) members = members := by
    cases hmembers
    rfl
  refine normalizeEvent_eq_ok.mpr ⟨members, event.timestamp, ms, hmembers, ?_, htime, ?_⟩
  · rfl
  · rw [hdefaults, hid, hback, hmembers]

/-! ## Filters -/

theorem toAsciiUppercase_idem (s : String) :
    toAsciiUppercase (toAsciiUppercase s) = toAsciiUppercase s := by
  simp [toAsciiUppercase, Function.comp_def]

theorem toAsciiUppercase_normalizeStage (stage : String) :
    toAsciiUppercase (normalizeStage stage) = normalizeStage stage := by
  unfold normalizeStage
  split
  case h_10 => exact toAsciiUppercase_idem _
  all_goals decide +kernel

/-- Two texts in capitals that differ in case only are the same. -/
theorem eq_of_eqIgnoreAsciiCase {a b : String} (ha : a = toAsciiUppercase a)
    (hb : b = toAsciiUppercase b) (h : eqIgnoreAsciiCase a b = true) : a = b := by
  have hlower := congrArg (List.map Char.toUpper) (of_decide_eq_true h)
  simp only [List.map_map, Function.comp_def, Char.toUpper_toLower_eq_toUpper] at hlower
  rw [ha, hb, toAsciiUppercase, toAsciiUppercase, hlower]

/-- A pattern matches itself. -/
theorem matchesTypeGlob_self (s : String) : matchesTypeGlob s s = true := by
  unfold matchesTypeGlob
  split_ifs with hglob hstar
  · rfl
  · obtain ⟨hne, -, hjoin⟩ := splitParts_eq_iff.mp (rfl : splitParts '*' s = _)
    split
    · next before after hparts =>
      rw [hparts] at hjoin
      have hlist : s.toList = before.toList ++ '*' :: after.toList := by simpa using hjoin
      rw [hlist, Bool.and_eq_true, List.isPrefixOf_iff_prefix, List.isSuffixOf_iff_suffix]
      exact ⟨List.prefix_append _ _, List.suffix_append_of_suffix (List.suffix_cons _ _)⟩
    · next before rest _ hparts =>
      rw [hparts] at hjoin
      have hfront : before.toList <+: s.toList := by
        cases rest with
        | nil =>
          rw [hjoin]
          simp
        | cons after rest =>
          rw [hjoin, List.map_cons, List.map_cons, List.intercalate_cons_cons]
          simp
      exact List.any_eq_true.mpr
        ⟨s.toList, (List.mem_tails _ _).mpr (List.suffix_refl _), List.isPrefixOf_iff_prefix.mpr hfront⟩
    · next hparts => exact absurd hparts hne
  · exact decide_eq_true rfl

section Matches

variable {event : ReceiptEvent} {q : EventQuery}

/-- What passes the filters of a client matches in the store. -/
theorem matchesQuery_of_hubMatchesQuery (h : hubMatchesQuery (toHubEvent event) q = true) :
    matchesQuery (toHubEvent event) q = true := by
  simp only [hubMatchesQuery, Bool.and_eq_true, Option.all_eq_true, Bool.or_eq_true,
    decide_eq_true_eq, strAt_decision, strAt_code, strAt_kid] at h
  obtain ⟨⟨⟨⟨⟨hworld, hstage⟩, hdecision⟩, hcode⟩, htype⟩, hactor⟩ := h
  have hcase {a b : String} (h : a = b ∨ eqIgnoreAsciiCase a b = true) :
      eqIgnoreAsciiCase a b = true := by
    rcases h with rfl | h
    · exact eqIgnoreAsciiCase_self _
    · exact h
  simp only [matchesQuery, Bool.and_eq_true, Option.all_eq_true, decide_eq_true_eq,
    eventDecision_toHubEvent, eventCode_toHubEvent, eventActor_toHubEvent]
  refine ⟨⟨⟨⟨⟨hworld, fun s hs => hcase (hstage s hs)⟩, fun d hd => hcase (hdecision d hd)⟩, hcode⟩,
    hactor⟩, fun t ht => ?_⟩
  rw [eventChipType_toHubEvent, Option.getD_some]
  rcases htype t ht with rfl | rfl
  · rfl
  · exact matchesTypeGlob_self _

/-- The stages and the decisions of hub events are in capitals, so their indexes hold what passes
the filters; they do not hold an event without a decision. -/
theorem indexedFor_of_hubMatchesQuery (h : hubMatchesQuery (toHubEvent event) q = true)
    (hq : chooseBestIndex q ≠ some (.decision, "")) : IndexedFor q (toHubEvent event) := by
  simp only [hubMatchesQuery, Bool.and_eq_true, Option.all_eq_true, Bool.or_eq_true,
    decide_eq_true_eq, strAt_decision, strAt_code, strAt_kid] at h
  obtain ⟨⟨⟨⟨⟨hworld, hstage⟩, hdecision⟩, hcode⟩, htype⟩, hactor⟩ := h
  have hcapitals {a b : String} (ha : a = toAsciiUppercase a) (hb : b = toAsciiUppercase b)
      (h : a = b ∨ eqIgnoreAsciiCase a b = true) : a = b :=
    h.elim id (eq_of_eqIgnoreAsciiCase ha hb)
  intro tree value hbest
  have hempty : tree = .decision → value ≠ "" := by
    rintro rfl rfl
    exact hq hbest
  obtain ⟨world, stage, decision, code, chipType, actor, since, limit⟩ := q
  simp only [chooseBestIndex, Option.orElse_eq_orElse, Option.orElse_eq_or, Option.or_eq_some_iff,
    Option.map_eq_some_iff, Prod.mk.injEq, Option.filter_eq_some_iff] at hbest
  rcases hbest with ⟨_, ⟨rfl, hglob⟩, rfl, rfl⟩ | ⟨-, ⟨_, rfl, rfl, rfl⟩ | ⟨-, ⟨_, rfl, rfl, rfl⟩ |
    ⟨-, ⟨_, rfl, rfl, rfl⟩ | ⟨-, ⟨_, ⟨rfl, hupper⟩, rfl, rfl⟩ | ⟨-, _, ⟨rfl, hupper⟩, rfl, rfl⟩⟩⟩⟩⟩
  · show eventChipType (toHubEvent event) = _
    rw [eventChipType_toHubEvent]
    rcases htype _ rfl with rfl | rfl
    · exact absurd hglob (by decide)
    · rfl
  · exact hworld _ rfl
  · exact (eventActor_toHubEvent event).trans (hactor _ rfl)
  · exact (eventCode_toHubEvent event).trans (hcode _ rfl)
  · have hstage := hcapitals (toAsciiUppercase_normalizeStage event.pipelineStage).symm
      (of_decide_eq_true hupper) (hstage _ rfl)
    show eventStage (toHubEvent event) = _
    rw [eventStage_toHubEvent, hstage]
  · show eventDecision (toHubEvent event) = _
    rw [eventDecision_toHubEvent]
    have hdecision := hdecision _ rfl
    cases hevent : event.decision with
    | none =>
      rw [hevent] at hdecision
      exact absurd (hcapitals rfl (of_decide_eq_true hupper) hdecision).symm (hempty rfl)
    | some decision =>
      rw [hevent] at hdecision
      rw [Option.map_some, ← hcapitals (toAsciiUppercase_idem decision).symm
        (of_decide_eq_true hupper) hdecision]

/-- Filters look at strings only. -/
theorem matchesQuery_congr {e e' : Json} (h : SameStrings e e') :
    matchesQuery e' q = matchesQuery e q := by
  have hworld : eventWorld e' = eventWorld e := h.firstStr _
  have hstage : eventStage e' = eventStage e := h.firstStr _
  have hdecision : eventDecision e' = eventDecision e := h.firstStr _
  have hcode : eventCode e' = eventCode e := h.firstStr _
  have hactor : eventActor e' = eventActor e := h.firstStr _
  have htype : eventChipType e' = eventChipType e := h.firstStr _
  rw [matchesQuery, matchesQuery, hworld, hstage, hdecision, hcode, hactor, htype]

theorem indexedFor_congr {e e' : Json} (h : SameStrings e e') :
    IndexedFor q e' ↔ IndexedFor q e := by
  have hfield (tree : Tree) : field tree e' = field tree e := by
    cases tree with
    | time => rfl
    | _ => exact h.firstStr _
  simp only [IndexedFor, hfield]

end Matches

end Ubl.Gate
