import Ubl.Eventstore.Queries

/-!
# `search_events`: the pages of a search

The cursor of an answer is the time of its last event, and the next call takes what is not before
that: the last event once more, at least.  So an answer with events is followed by another
(`page_next_nonempty`), and no walk along the cursors ends but one that begins with an empty page.

    EndsRight lib (run lib events) query ↔ no stored event is wanted        (endsRight_iff)
-/

namespace Ubl.Gate

open Eventstore EventStore

/-! ## The call -/

structure EventSearchQuery where
  world : Option String
  stage : Option String
  decision : Option String
  code : Option String
  chipType : Option String
  actor : Option String
  fromWhen : Option String
  toWhen : Option String
  pageKey : Option String
  limit : Option Nat

def EventSearchQuery.dbQuery (query : EventSearchQuery) : EventQuery where
  world := query.world
  stage := query.stage
  decision := query.decision
  code := query.code
  chipType := query.chipType
  actor := query.actor
  since := (query.pageKey.or query.fromWhen).or (some "0")
  limit := query.limit

structure SearchResponse where
  count : Nat
  nextPageKey : Option String
  events : List Json

inductive SearchAnswer where
  /-- `SERVICE_UNAVAILABLE`: there is no event store. -/
  | unavailable
  /-- `INTERNAL_SERVER_ERROR`. -/
  | failed (e : EventStoreError)
  | found (response : SearchResponse)

section Call

variable (lib : EventLib)

def parseWhenToMs (input : String) : Option Int64 :=
  match parseI64 input with
  | some ms => some ms
  | none => (lib.rfc3339Millis input).toOption

/-- The text of an event's time. -/
def whenOf (event : Json) : Option String := firstStr event [["when"], ["timestamp"]]

/-- `retain` up to the time asked for; a time that cannot be read is none. -/
def retainTo (query : EventSearchQuery) (events : List Json) : List Json :=
  match query.toWhen.bind (parseWhenToMs lib) with
  | some bound => events.filter fun e => ((whenOf e).bind (parseWhenToMs lib)).any (· ≤ bound)
  | none => events

def searchEvents (store : Option EventStore) (query : EventSearchQuery) : SearchAnswer :=
  match store with
  | none => .unavailable
  | some store =>
    match EventStore.query lib store query.dbQuery with
    | .error e => .failed e
    | .ok events =>
      let events := retainTo lib query events
      .found ⟨events.length, events.getLast?.bind whenOf, events⟩

/-! ## A walk along the cursors -/

/-- The pages of the calls, each with the cursor of the answer before it, to an answer without
one. -/
inductive Walk (store : EventStore) : EventSearchQuery → List (List Json) → Prop
  | last {query : EventSearchQuery} {response : SearchResponse} :
      searchEvents lib (some store) query = .found response → response.nextPageKey = none →
      Walk store query [response.events]
  | more {query : EventSearchQuery} {response : SearchResponse} {key : String}
      {pages : List (List Json)} :
      searchEvents lib (some store) query = .found response → response.nextPageKey = some key →
      Walk store { query with pageKey := some key } pages →
      Walk store query (response.events :: pages)

/-- A stored event lies between the times that are asked for, and matches. -/
def wanted (query : EventSearchQuery) (r : EventRecord) : Bool :=
  (query.fromWhen.bind (parseWhenToMs lib)).all (· ≤ r.whenMs) &&
    (query.toWhen.bind (parseWhenToMs lib)).all (r.whenMs ≤ ·) && matchesQuery r.event query.dbQuery

/-- The calls come to an end, and the pages are what is wanted, in the order of time. -/
def EndsRight (store : EventStore) (query : EventSearchQuery) : Prop :=
  ∃ pages, Walk lib store { query with pageKey := none } pages ∧
    pages.flatten = ((store.inTimeOrder lib).filter (wanted lib query)).map EventRecord.event

end Call

/-! ## What a call finds -/

section Found

variable {lib : EventLib} {store : EventStore} {query : EventSearchQuery} {r : EventRecord}

/-- A number is no time of RFC 3339. -/
def NoNumbers (lib : EventLib) : Prop :=
  ∀ s ms, lib.rfc3339Millis s = .ok ms → parseI64 s = none

theorem parseWhenToMs_of_rfc3339 (hlib : NoNumbers lib) {s : String} {ms : Int64}
    (h : lib.rfc3339Millis s = .ok ms) : parseWhenToMs lib s = some ms := by
  rw [parseWhenToMs, hlib s ms h, h]
  rfl

theorem whenOf_of_mem_records (hlib : NoNumbers lib) (hr : r ∈ store.records lib) :
    ∃ w, whenOf r.event = some w ∧ parseWhenToMs lib w = some r.whenMs := by
  obtain ⟨raw, -, hr⟩ := List.mem_filterMap.mp hr
  obtain ⟨record, hreread, hread, -, hms⟩ := storedRecord_eq_some.mp hr
  rw [reread, hread] at hreread
  obtain ⟨members, timestamp, whenMs, -, hwhen, htime, rfl⟩ := normalizeEvent_eq_ok.mp hreread
  exact ⟨timestamp, hwhen, hms ▸ parseWhenToMs_of_rfc3339 hlib htime⟩

/-- Retaining goes by the times that the events are stored under. -/
theorem retainTo_map (hlib : NoNumbers lib) (query : EventSearchQuery) {l : List EventRecord}
    (hl : ∀ r ∈ l, r ∈ store.records lib) : retainTo lib query (l.map EventRecord.event) =
      (l.filter fun r => (query.toWhen.bind (parseWhenToMs lib)).all (r.whenMs ≤ ·)).map
        EventRecord.event := by
  unfold retainTo
  cases query.toWhen.bind (parseWhenToMs lib) with
  | none => simp
  | some bound =>
    simp only [List.filter_map, Option.all_some]
    refine congrArg _ (List.filter_congr fun r hr => ?_)
    obtain ⟨w, hw, hms⟩ := whenOf_of_mem_records hlib (hl r hr)
    simp [hw, hms]

/-- What an answer has: from the first time that is asked for, in the order of time. -/
def page (lib : EventLib) (store : EventStore) (query : EventSearchQuery) : List EventRecord :=
  (((store.inTimeOrder lib).filter fun r => startMs lib query.dbQuery ≤ r.whenMs ∧
    matchesQuery r.event query.dbQuery = true ∧ IndexedFor query.dbQuery r.event).take
      (queryLimit query.dbQuery)).filter fun r =>
        (query.toWhen.bind (parseWhenToMs lib)).all (r.whenMs ≤ ·)

theorem mem_records_of_mem_page (h : r ∈ page lib store query) : r ∈ store.records lib :=
  mem_inTimeOrder.mp (List.mem_of_mem_filter (List.mem_of_mem_take (List.mem_of_mem_filter h)))

theorem searchEvents_eq (hlib : NoNumbers lib) (hinv : Inv lib store)
    (hplain : ∀ r ∈ store.records lib, Plain r) (query : EventSearchQuery) :
    searchEvents lib (some store) query = .found ⟨(page lib store query).length,
      ((page lib store query).map EventRecord.event).getLast?.bind whenOf,
      (page lib store query).map EventRecord.event⟩ := by
  rw [searchEvents, hinv.query_eq hplain, ← List.map_take]
  dsimp only
  rw [retainTo_map hlib query fun r hr =>
    mem_inTimeOrder.mp (List.mem_of_mem_filter (List.mem_of_mem_take hr)), List.length_map]
  rfl

/-- An answer with events has a cursor, the time of one of them. -/
theorem nextPageKey_of_nonempty (hlib : NoNumbers lib) (h : page lib store query ≠ []) :
    ∃ key, ((page lib store query).map EventRecord.event).getLast?.bind whenOf = some key ∧
      ∃ r ∈ page lib store query, parseWhenToMs lib key = some r.whenMs := by
  have hlast := List.getLast_mem h
  obtain ⟨w, hw, hms⟩ := whenOf_of_mem_records hlib (mem_records_of_mem_page hlast)
  refine ⟨w, ?_, _, hlast, hms⟩
  rw [List.getLast?_map, List.getLast?_eq_some_getLast h]
  exact hw

/-- The call with the time of an event of the page finds that event, or an earlier one of the same
time. -/
theorem page_next_nonempty (hinv : Inv lib store) (hr : r ∈ page lib store query) {key : String}
    (hkey : parseWhenToMs lib key = some r.whenMs) :
    page lib store { query with pageKey := some key } ≠ [] := by
  obtain ⟨htake, hto⟩ := List.mem_filter.mp hr
  obtain ⟨hmem, hfound⟩ := List.mem_filter.mp (List.mem_of_mem_take htake)
  obtain ⟨-, hmatch, hindexed⟩ := of_decide_eq_true hfound
  have hstart : startMs lib ({ query with pageKey := some key } : EventSearchQuery).dbQuery =
      r.whenMs := by
    show (parseWhenToMs lib key).getD 0 = _
    rw [hkey]
    rfl
  let next := (store.inTimeOrder lib).filter fun r' => r.whenMs ≤ r'.whenMs ∧
    matchesQuery r'.event query.dbQuery = true ∧ IndexedFor query.dbQuery r'.event
  have hnext : r ∈ next :=
    List.mem_filter.mpr ⟨hmem, decide_eq_true ⟨Int64.le_refl _, hmatch, hindexed⟩⟩
  obtain ⟨first, rest, hcons⟩ := List.exists_cons_of_ne_nil (List.ne_nil_of_mem hnext)
  have hfirst : first ∈ next := hcons ▸ List.mem_cons_self
  have hle : first.whenMs ≤ r.whenMs := by
    have hsorted : next.Pairwise fun r r' => r.place < r'.place :=
      hinv.inTimeOrder_pairwise.filter _
    rw [hcons] at hsorted hnext
    rcases List.mem_cons.mp hnext with rfl | hrest
    · exact Int64.le_refl _
    · have hplace := (List.pairwise_cons.mp hsorted).1 r hrest
      rw [Int64.le_iff_toInt_le]
      exact (Prod.Lex.toLex_lt_toLex.mp hplace).elim le_of_lt fun h => h.1.le
  have hlimit : 1 ≤ queryLimit query.dbQuery := le_max_left _ _
  refine List.ne_nil_of_mem (List.mem_filter.mpr ⟨?_, ?_⟩) (a := first)
  · rw [hstart]
    show first ∈ next.take (queryLimit query.dbQuery)
    rw [hcons]
    obtain ⟨limit, hlimit⟩ := Nat.exists_eq_add_of_le' hlimit
    rw [hlimit]
    exact List.mem_cons_self
  · rw [Option.all_eq_true] at hto ⊢
    exact fun bound hbound =>
      decide_eq_true (Int64.le_trans hle (of_decide_eq_true (hto bound hbound)))

/-- A walk that comes to an end begins with an empty page. -/
theorem page_of_walk (hlib : NoNumbers lib) (hinv : Inv lib store)
    (hplain : ∀ r ∈ store.records lib, Plain r) {pages : List (List Json)}
    (h : Walk lib store query pages) : page lib store query = [] ∧ pages = [[]] := by
  induction h with
  | @last query response hsearch hkey =>
    rw [searchEvents_eq hlib hinv hplain] at hsearch
    obtain rfl := SearchAnswer.found.inj hsearch
    by_cases hempty : page lib store query = []
    · exact ⟨hempty, by rw [hempty]; rfl⟩
    · obtain ⟨key, hsome, -⟩ := nextPageKey_of_nonempty hlib hempty
      rw [hsome] at hkey
      cases hkey
  | @more query response key pages hsearch hkey _ ih =>
    rw [searchEvents_eq hlib hinv hplain] at hsearch
    obtain rfl := SearchAnswer.found.inj hsearch
    by_cases hempty : page lib store query = []
    · rw [hempty] at hkey
      cases hkey
    · obtain ⟨_, hsome, r, hr, hms⟩ := nextPageKey_of_nonempty hlib hempty
      obtain rfl := Option.some.inj (hsome.symm.trans hkey)
      exact absurd ih.1 (page_next_nonempty hinv hr hms)

/-- The first page has wanted events only. -/
theorem wanted_of_mem_page (hr : r ∈ page lib store { query with pageKey := none }) :
    wanted lib query r = true := by
  obtain ⟨htake, hto⟩ := List.mem_filter.mp hr
  obtain ⟨hmem, hfound⟩ := List.mem_filter.mp (List.mem_of_mem_take htake)
  obtain ⟨hstart, hmatch, -⟩ := of_decide_eq_true hfound
  have hfrom : (query.fromWhen.bind (parseWhenToMs lib)).all (· ≤ r.whenMs) = true := by
    rw [Option.all_eq_true]
    intro bound hbound
    obtain ⟨text, htext, hbound⟩ := Option.bind_eq_some_iff.mp hbound
    have heq : startMs lib ({ query with pageKey := none } : EventSearchQuery).dbQuery = bound := by
      simp only [startMs, EventSearchQuery.dbQuery, htext]
      show (parseWhenToMs lib text).getD 0 = bound
      rw [hbound]
      rfl
    exact decide_eq_true (heq ▸ hstart)
  rw [wanted, hfrom, hto]
  exact hmatch

/-- A search by pages comes to an end with the events that are wanted just if there are none. -/
theorem endsRight_iff (lib : EventLib) (hlib : NoNumbers lib) (events : List Json)
    (hkept : ∀ event ∈ events, ∀ record, normalizeEvent lib event = .ok record →
      Kept lib record.event)
    (hplain : ∀ r ∈ (run lib events).records lib, Plain r) (query : EventSearchQuery) :
    EndsRight lib (run lib events) query ↔
      ∀ r ∈ (run lib events).records lib, wanted lib query r = false := by
  have hinv := inv_run hkept
  constructor
  · rintro ⟨pages, hwalk, hflatten⟩ r hr
    obtain ⟨-, rfl⟩ := page_of_walk hlib hinv hplain hwalk
    rw [← Bool.not_eq_true]
    intro hwanted
    have hnone := List.map_eq_nil_iff.mp hflatten.symm
    exact List.filter_eq_nil_iff.mp hnone r (mem_inTimeOrder.mpr hr) hwanted
  · intro hnone
    have hempty : page lib (run lib events) { query with pageKey := none } = [] := by
      refine List.eq_nil_iff_forall_not_mem.mpr fun r hr => ?_
      have hwanted := wanted_of_mem_page hr
      rw [hnone r (mem_records_of_mem_page hr)] at hwanted
      cases hwanted
    have hsearch := searchEvents_eq hlib hinv hplain { query with pageKey := none }
    rw [hempty] at hsearch
    refine ⟨_, .last hsearch rfl, ?_⟩
    rw [List.filter_eq_nil_iff.mpr fun r hr => ?_]
    · rfl
    · rw [hnone r (mem_inTimeOrder.mp hr)]
      decide

end Found

/-! ## One event -/

theorem noNumbers_sample : NoNumbers sampleEventLib := by
  intro s ms h
  simp only [sampleEventLib] at h
  split_ifs at h with hs
  subst hs
  decide

theorem records_sample : (run sampleEventLib [sampleEvent]).records sampleEventLib =
    [⟨"evt_1", 1771416000000, sampleStored⟩] := by
  with_unfolding_all rfl

theorem plain_sample : ∀ r ∈ (run sampleEventLib [sampleEvent]).records sampleEventLib, Plain r := by
  rw [records_sample]
  intro r hr
  obtain rfl := List.mem_singleton.mp hr
  exact ⟨by decide, by decide⟩

/-- Events of a stage, one on each page. -/
def stageSearch (stage : Option String) : EventSearchQuery :=
  ⟨none, stage, none, none, none, none, none, none, none, some 1⟩

theorem endsRight_iff_check :
    EndsRight sampleEventLib (run sampleEventLib [sampleEvent]) (stageSearch (some "CHECK")) := by
  refine (endsRight_iff sampleEventLib noNumbers_sample [sampleEvent] kept_sample plain_sample _).mpr ?_
  rw [records_sample]
  intro r hr
  obtain rfl := List.mem_singleton.mp hr
  decide +kernel

/-- With the cursor of its answer the search for one event gives that answer again, without end. -/
theorem one_event_again : (∃ response, response.nextPageKey = some "2026-02-18T12:00:00Z" ∧
      searchEvents sampleEventLib (some (run sampleEventLib [sampleEvent])) (stageSearch none) =
        .found response ∧
      searchEvents sampleEventLib (some (run sampleEventLib [sampleEvent]))
        { stageSearch none with pageKey := some "2026-02-18T12:00:00Z" } = .found response) ∧
    ¬ EndsRight sampleEventLib (run sampleEventLib [sampleEvent]) (stageSearch none) := by
  have hfirst : page sampleEventLib (run sampleEventLib [sampleEvent]) (stageSearch none) =
      [⟨"evt_1", 1771416000000, sampleStored⟩] := by
    with_unfolding_all rfl
  have hnext : page sampleEventLib (run sampleEventLib [sampleEvent])
      { stageSearch none with pageKey := some "2026-02-18T12:00:00Z" } =
        [⟨"evt_1", 1771416000000, sampleStored⟩] := by
    with_unfolding_all rfl
  have hsearch (query : EventSearchQuery) :=
    searchEvents_eq noNumbers_sample (inv_run kept_sample) plain_sample query
  refine ⟨⟨⟨1, some "2026-02-18T12:00:00Z", [sampleStored]⟩, rfl, ?_, ?_⟩, ?_⟩
  · rw [hsearch, hfirst]
    rfl
  · rw [hsearch, hnext]
    rfl
  · rintro ⟨pages, hwalk, -⟩
    have hempty := (page_of_walk noNumbers_sample (inv_run kept_sample) plain_sample hwalk).1
    cases hfirst.symm.trans hempty

end Ubl.Gate
