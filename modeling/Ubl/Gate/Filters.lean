import Ubl.Eventstore.Globs
import Ubl.Gate.Stream

/-!
# The filters of the bus and those of the store

A client that streams is sent what the store finds for its filters, and then what of the bus passes
`hub_matches_query`.  Five of the six filters come to the same.  A type with a star in it is a
pattern to the store; the bus knows the star by itself only, and takes any other for a type.

    hubMatchesQuery (toHubEvent event) q = matchesQuery record.event q ↔
      no other pattern than the type covers it, or another filter rejects
                                                        (hubMatchesQuery_agrees_iff)
-/

namespace Ubl.Gate

open Eventstore
open Ubl.Nrf (splitParts)
open Ubl.Auth (splitParts_eq_iff)
open Hub (everything sampleHubLib sampleReceiptEvent)

/-! ## Patterns -/

/-- A pattern with a star, not a star by itself, covers a text: the text starts and ends as the
pattern does, and where there is a second star it holds what stands before the first. -/
def Covers (pattern text : String) : Prop :=
  pattern ≠ "*" ∧ ∃ before after, pattern.toList = before ++ '*' :: after ∧ '*' ∉ before ∧
    if '*' ∈ after then before <:+: text.toList
    else before <+: text.toList ∧ after <:+ text.toList

theorem matchesTypeGlob_iff_covers {pattern text : String} :
    matchesTypeGlob text pattern = true ↔ pattern = "*" ∨ text = pattern ∨ Covers pattern text := by
  by_cases hglob : pattern = "*"
  · simp [hglob, matchesTypeGlob]
  by_cases hself : text = pattern
  · simp [hself, matchesTypeGlob_self]
  by_cases hstar : '*' ∈ pattern.toList
  · obtain ⟨before, after, hpattern, hbefore⟩ := List.eq_append_cons_of_mem hstar
    rw [or_iff_right hglob, or_iff_right hself]
    constructor
    · intro h
      exact ⟨hglob, before, after, hpattern, hbefore,
        (matchesTypeGlob_iff hglob hpattern hbefore).mp h⟩
    · rintro ⟨-, before', after', hpattern', hbefore', h⟩
      exact (matchesTypeGlob_iff hglob hpattern' hbefore').mpr h
  · have hcovers : ¬ Covers pattern text := by
      rintro ⟨-, before, after, hpattern, -⟩
      exact hstar (by simp [hpattern])
    simp [matchesTypeGlob, hstar, hglob, hself, hcovers]

/-! ## Agreement -/

/-- An event passes the five filters that are not about the type. -/
structure OthersPass (event : ReceiptEvent) (q : EventQuery) : Prop where
  world : ∀ world, q.world = some world → event.world.getD "a/system" = world
  stage : ∀ stage, q.stage = some stage →
    eqIgnoreAsciiCase (normalizeStage event.pipelineStage) stage = true
  decision : ∀ decision, q.decision = some decision →
    eqIgnoreAsciiCase ((event.decision.map toAsciiUppercase).getD "") decision = true
  code : ∀ code, q.code = some code → strAt event.metadata ["code"] = some code
  actor : ∀ actor, q.actor = some actor → event.actor = some actor

theorem matchesQuery_toHubEvent {event : ReceiptEvent} {q : EventQuery} :
    matchesQuery (toHubEvent event) q = true ↔ OthersPass event q ∧
      ∀ pattern, q.chipType = some pattern → matchesTypeGlob event.receiptType pattern = true := by
  have hworld : eventWorld (toHubEvent event) = some (event.world.getD "a/system") := rfl
  simp only [matchesQuery, Bool.and_eq_true, Option.all_eq_true, decide_eq_true_eq, hworld,
    eventStage_toHubEvent, eventDecision_toHubEvent, eventCode_toHubEvent, eventActor_toHubEvent,
    eventChipType_toHubEvent, Option.getD_some, Option.some.injEq]
  constructor
  · rintro ⟨⟨⟨⟨⟨hworld, hstage⟩, hdecision⟩, hcode⟩, hactor⟩, htype⟩
    exact ⟨⟨hworld, hstage, hdecision, hcode, hactor⟩, htype⟩
  · rintro ⟨⟨hworld, hstage, hdecision, hcode, hactor⟩, htype⟩
    exact ⟨⟨⟨⟨⟨hworld, hstage⟩, hdecision⟩, hcode⟩, hactor⟩, htype⟩

theorem hubMatchesQuery_toHubEvent {event : ReceiptEvent} {q : EventQuery} :
    hubMatchesQuery (toHubEvent event) q = true ↔ OthersPass event q ∧
      ∀ pattern, q.chipType = some pattern → pattern = "*" ∨ event.receiptType = pattern := by
  constructor
  · intro h
    refine ⟨(matchesQuery_toHubEvent.mp (matchesQuery_of_hubMatchesQuery h)).1, ?_⟩
    simp only [hubMatchesQuery, Bool.and_eq_true, Option.all_eq_true, Bool.or_eq_true,
      decide_eq_true_eq] at h
    exact h.1.2
  · rintro ⟨⟨hworld, hstage, hdecision, hcode, hactor⟩, htype⟩
    simp only [hubMatchesQuery, Bool.and_eq_true, Option.all_eq_true, Bool.or_eq_true,
      decide_eq_true_eq, strAt_decision, strAt_code, strAt_kid]
    exact ⟨⟨⟨⟨⟨fun w hw => congrArg some (hworld w hw), fun s hs => Or.inr (hstage s hs)⟩,
      fun d hd => Or.inr (hdecision d hd)⟩, hcode⟩, htype⟩, hactor⟩

/-- The two filters answer alike, unless the type is asked for with a pattern that covers it without
being it, and nothing else keeps the event out. -/
theorem hubMatchesQuery_agrees_iff (lib : EventLib) (event : ReceiptEvent) (record : EventRecord)
    (h : normalizeEvent lib (toHubEvent event) = .ok record) (q : EventQuery) :
    hubMatchesQuery (toHubEvent event) q = matchesQuery record.event q ↔
      ∀ pattern, q.chipType = some pattern → OthersPass event q → Covers pattern event.receiptType →
        pattern = event.receiptType := by
  obtain ⟨-, timestamp, ms, -, hwhen, htime, -⟩ := normalizeEvent_eq_ok.mp h
  obtain rfl : event.timestamp = timestamp := Option.some.inj hwhen
  obtain rfl := Except.ok.inj (h.symm.trans (normalizeEvent_toHubEvent htime))
  rw [Bool.eq_iff_iff, hubMatchesQuery_toHubEvent, matchesQuery_toHubEvent]
  simp only [matchesTypeGlob_iff_covers]
  constructor
  · intro hagree pattern hpattern hothers hcovers
    obtain ⟨-, htype⟩ := hagree.mpr ⟨hothers, fun pattern' hpattern' => by
      obtain rfl := Option.some.inj (hpattern.symm.trans hpattern')
      exact Or.inr (Or.inr hcovers)⟩
    rcases htype pattern hpattern with hglob | hself
    · exact absurd hglob hcovers.1
    · exact hself.symm
  · intro hno
    refine and_congr_right fun hothers => forall₂_congr fun pattern hpattern => ?_
    constructor
    · rintro (hglob | hself)
      · exact Or.inl hglob
      · exact Or.inr (Or.inl hself)
    · rintro (hglob | hself | hcovers)
      · exact Or.inl hglob
      · exact Or.inr hself
      · exact Or.inr (hno pattern hpattern hothers hcovers).symm

/-- Documents that were allowed, in one world and stage. -/
def documentQuery : EventQuery :=
  { everything with
    world := some "a/acme"
    stage := some "WF"
    decision := some "allow"
    chipType := some "ubl/document" }

theorem hubMatchesQuery_agrees_iff_documents :
    hubMatchesQuery (toHubEvent sampleReceiptEvent) documentQuery =
        matchesQuery (toHubEvent sampleReceiptEvent) documentQuery ∧
      hubMatchesQuery (toHubEvent sampleReceiptEvent) documentQuery = true := by
  refine ⟨(hubMatchesQuery_agrees_iff sampleHubLib sampleReceiptEvent
    ⟨hubId sampleReceiptEvent, 1771416000000, toHubEvent sampleReceiptEvent⟩
    (normalizeEvent_toHubEvent rfl) documentQuery).mpr fun pattern hpattern _ _ => ?_, ?_⟩
  · exact (Option.some.inj hpattern).symm
  · decide +kernel

/-- A client that asks for `ubl/*` has an `ubl/document` from the store, but not from the bus. -/
theorem pattern_not_live :
    hubMatchesQuery (toHubEvent sampleReceiptEvent) { everything with chipType := some "ubl/*" } =
        false ∧
      matchesQuery (toHubEvent sampleReceiptEvent) { everything with chipType := some "ubl/*" } =
        true ∧
      ¬ ∀ (event : ReceiptEvent) (record : EventRecord) (q : EventQuery),
        normalizeEvent sampleHubLib (toHubEvent event) = .ok record →
          hubMatchesQuery (toHubEvent event) q = matchesQuery record.event q := by
  have hhub : hubMatchesQuery (toHubEvent sampleReceiptEvent)
      { everything with chipType := some "ubl/*" } = false := by decide +kernel
  have hstore : matchesQuery (toHubEvent sampleReceiptEvent)
      { everything with chipType := some "ubl/*" } = true := by decide +kernel
  refine ⟨hhub, hstore, fun h => ?_⟩
  have heq := h sampleReceiptEvent _ { everything with chipType := some "ubl/*" }
    (normalizeEvent_toHubEvent rfl)
  rw [hhub, hstore] at heq
  cases heq

end Ubl.Gate
