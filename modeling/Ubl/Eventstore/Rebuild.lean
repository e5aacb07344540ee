import Ubl.Eventstore.Store

/-!
# A rebuild gives the trees that the appends built

An index tree is a set of keys.  Those of a record (`indexKeys`) depend on its id, its time and its
strings only, and what is stored gives them again when it is read and normalized once more
(`reread_toVec`).  So in every state that appends reach the trees hold the keys of the stored events,
all of them and no others (`Inv`), which is what a rebuild puts there, whatever the trees were before:

    rebuildIndexes lib { run lib events with index := trees } = (.ok (), run lib events)
                                                                         (rebuild_eq_appends)
-/

namespace Ubl.Eventstore

open Utf8 AssocMap

/-! ## Normalization, once more -/

section Strings

variable {e e' : Json} {paths : List (List String)}

/-- The names that normalization writes. -/
def writtenNames : List String := ["@type", "@ver", "@id"]

/-- Paths that normalization does not touch. -/
def Untouched (paths : List (List String)) : Prop :=
  ∀ path ∈ paths, ∃ first rest, path = first :: rest ∧ first ∉ writtenNames

theorem strAt_insertBack {key first : String} {v : Json} {members : List (String × Json)}
    {path : List String} (h : first ≠ key) :
    strAt (.object (insertBack key v members)) (first :: path) =
      strAt (.object members) (first :: path) := by
  simp only [strAt, Json.get, lookup_insertBack, if_neg h]

theorem strAt_withDefault {key value first : String} {members : List (String × Json)}
    {path : List String} (h : first ≠ key) :
    strAt (.object (withDefault key value members)) (first :: path) =
      strAt (.object members) (first :: path) := by
  unfold withDefault
  split
  · rfl
  · exact strAt_insertBack h

theorem firstStr_congr (h : ∀ path ∈ paths, strAt e path = strAt e' path) :
    firstStr e paths = firstStr e' paths := by
  unfold firstStr
  induction paths with
  | nil => rfl
  | cons path paths ih =>
    rw [List.findSome?_cons, List.findSome?_cons, h path List.mem_cons_self,
      ih fun p hp => h p (List.mem_cons_of_mem _ hp)]

/-- Two events with the same strings at the same places. -/
def SameStrings (e e' : Json) : Prop := ∀ path, strAt e' path = strAt e path

theorem SameStrings.firstStr (h : SameStrings e e') (paths : List (List String)) :
    firstStr e' paths = firstStr e paths := firstStr_congr fun path _ => h path

end Strings

section Normalize

variable {lib : EventLib} {e e' : Json} {record : EventRecord}

/-- The members of an event with their defaults. -/
def withDefaults (members : List (String × Json)) : List (String × Json) :=
  withDefault "@ver" "1.0.0" (withDefault "@type" "ubl/event" members)

theorem strAt_withDefaults {first : String} {path : List String} {members : List (String × Json)}
    (hver : first ≠ "@ver") (htype : first ≠ "@type") :
    strAt (.object (withDefaults members)) (first :: path) =
      strAt (.object members) (first :: path) :=
  (strAt_withDefault hver).trans (strAt_withDefault htype)

theorem firstStr_normalized {paths : List (List String)} (h : Untouched paths) {id : Json}
    {members : List (String × Json)} :
    firstStr (.object (insertBack "@id" id (withDefaults members))) paths =
      firstStr (.object members) paths := by
  refine firstStr_congr fun path hpath => ?_
  obtain ⟨first, rest, rfl, hfirst⟩ := h path hpath
  simp only [writtenNames, List.mem_cons, List.not_mem_nil, or_false, not_or] at hfirst
  exact (strAt_insertBack hfirst.2.2).trans (strAt_withDefaults hfirst.2.1 hfirst.1)

theorem normalizeEvent_eq_ok : normalizeEvent lib e = .ok record ↔
    ∃ members timestamp whenMs, e = .object members ∧
      firstStr e [["when"], ["timestamp"]] = some timestamp ∧
      lib.rfc3339Millis timestamp = .ok whenMs ∧
      record = ⟨eventIdOf lib (.object (withDefaults members)), whenMs,
        .object (insertBack "@id" (.string (eventIdOf lib (.object (withDefaults members))))
          (withDefaults members))⟩ := by
  have hwhen (members : List (String × Json)) :
      firstStr (.object (withDefaults members)) [["when"], ["timestamp"]] =
        firstStr (.object members) [["when"], ["timestamp"]] := by
    refine firstStr_congr fun path hpath => ?_
    simp only [List.mem_cons, List.not_mem_nil, or_false] at hpath
    rcases hpath with rfl | rfl <;> exact strAt_withDefaults (by decide) (by decide)
  constructor
  · intro h
    cases e with
    | object members =>
      simp only [normalizeEvent] at h
      cases htime : firstStr (.object (withDefaults members)) [["when"], ["timestamp"]] with
      | none => simp only [withDefaults] at htime; rw [htime] at h; cases h
      | some timestamp =>
        cases hms : lib.rfc3339Millis timestamp with
        | error e => simp only [withDefaults] at htime; rw [htime] at h; simp [hms] at h
        | ok whenMs =>
          refine ⟨members, timestamp, whenMs, rfl, (hwhen members).symm.trans htime, hms, ?_⟩
          simp only [withDefaults] at htime
          rw [htime] at h
          simp only [hms, Except.ok.injEq] at h
          exact h.symm
    | _ => cases h
  · rintro ⟨members, timestamp, whenMs, rfl, htime, hms, rfl⟩
    have htime' := (hwhen members).trans htime
    simp only [withDefaults] at htime'
    simp only [normalizeEvent, htime', hms]
    rfl

/-- What was normalized has its id in it. -/
theorem strAt_id_of_normalizeEvent (h : normalizeEvent lib e = .ok record) :
    strAt record.event ["@id"] = some record.eventId := by
  obtain ⟨members, timestamp, whenMs, -, -, -, rfl⟩ := normalizeEvent_eq_ok.mp h
  simp [strAt, Json.get, lookup_insertBack, Json.asStr]

/-- Normalizing an event with the strings of a normalized one gives its id, its time and its
strings again. -/
theorem normalizeEvent_again (h : normalizeEvent lib e = .ok record)
    (hsame : SameStrings record.event e') :
    ∃ record', normalizeEvent lib e' = .ok record' ∧ record'.eventId = record.eventId ∧
      record'.whenMs = record.whenMs ∧
      ∀ paths, Untouched paths → firstStr record'.event paths = firstStr record.event paths := by
  have hid : strAt e' ["@id"] = some record.eventId :=
    (hsame _).trans (strAt_id_of_normalizeEvent h)
  obtain ⟨members', rfl⟩ : ∃ members', e' = .object members' := by
    cases e' with
    | object members' => exact ⟨members', rfl⟩
    | _ => cases hid
  obtain ⟨members, timestamp, whenMs, rfl, htime, hms, rfl⟩ := normalizeEvent_eq_ok.mp h
  have hwhen : Untouched [["when"], ["timestamp"]] := by simp [Untouched, writtenNames]
  have hid' : eventIdOf lib (.object (withDefaults members')) =
      eventIdOf lib (.object (withDefaults members)) := by
    have hfirst : firstStr (.object (withDefaults members')) [["@id"]] =
        some (eventIdOf lib (.object (withDefaults members))) := by
      rw [firstStr, List.findSome?_cons, strAt_withDefaults (by decide) (by decide), hid]
    rw [eventIdOf, hfirst]
  have htime' : firstStr (.object members') [["when"], ["timestamp"]] = some timestamp := by
    rw [hsame.firstStr, firstStr_normalized hwhen, htime]
  refine ⟨_, normalizeEvent_eq_ok.mpr ⟨members', timestamp, whenMs, rfl, htime', hms, rfl⟩,
    hid', rfl, fun paths hpaths => ?_⟩
  exact (firstStr_normalized hpaths).trans (hsame.firstStr paths)

end Normalize

/-! ## The keys of a record -/

def indexKeys (record : EventRecord) : Tree → List (List UInt8)
  | .time => [timeIndexKey record.whenMs record.eventId]
  | .world => [dimIndexKey ((eventWorld record.event).getD "a/system") record.whenMs record.eventId]
  | .stage => dim (eventStage record.event)
  | .type => dim (eventChipType record.event)
  | .decision => dim (eventDecision record.event)
  | .code => dim (eventCode record.event)
  | .actor => dim (eventActor record.event)
where
  dim (value : Option String) : List (List UInt8) :=
    (value.map fun v => dimIndexKey v record.whenMs record.eventId).toList

/-- The id, the time and the strings of a record give its keys. -/
theorem indexKeys_congr {record record' : EventRecord} (hid : record'.eventId = record.eventId)
    (hms : record'.whenMs = record.whenMs)
    (hpaths : ∀ paths, Untouched paths → firstStr record'.event paths = firstStr record.event paths) :
    indexKeys record' = indexKeys record := by
  have hworld : eventWorld record'.event = eventWorld record.event :=
    hpaths _ (by simp [Untouched, writtenNames])
  have hstage : eventStage record'.event = eventStage record.event :=
    hpaths _ (by simp [Untouched, writtenNames])
  have htype : eventChipType record'.event = eventChipType record.event :=
    hpaths _ (by simp [Untouched, writtenNames])
  have hdecision : eventDecision record'.event = eventDecision record.event :=
    hpaths _ (by simp [Untouched, writtenNames])
  have hcode : eventCode record'.event = eventCode record.event :=
    hpaths _ (by simp [Untouched, writtenNames])
  have hactor : eventActor record'.event = eventActor record.event :=
    hpaths _ (by simp [Untouched, writtenNames])
  funext tree
  cases tree <;>
    simp only [indexKeys, indexKeys.dim, hid, hms, hworld, hstage, htype, hdecision, hcode, hactor]

namespace EventStore

variable {store : EventStore} {record : EventRecord} {tree : Tree} {key : List UInt8}

theorem contains_insertKey {tree' : Tree} {key' : List UInt8} :
    ((insertKey tree' key' store).index tree).contains key ↔
      (tree = tree' ∧ key = key') ∨ (store.index tree).contains key := by
  rw [insertKey]
  by_cases h : tree = tree'
  · subst h
    simp
  · simp [h]

theorem contains_insertDimOpt {tree' : Tree} {value : Option String} {ms : Int64} {id : String} :
    ((insertDimOpt tree' value ms id store).index tree).contains key ↔
      (tree = tree' ∧ key ∈ (value.map fun v => dimIndexKey v ms id).toList) ∨
        (store.index tree).contains key := by
  cases value with
  | none => simp [insertDimOpt]
  | some v => simp [insertDimOpt, insertDim, contains_insertKey]

/-- The keys of the record are put into the trees. -/
theorem contains_insertIndexes :
    ((insertIndexes record store).index tree).contains key ↔
      key ∈ indexKeys record tree ∨ (store.index tree).contains key := by
  obtain ⟨id, ms, event⟩ := record
  simp only [insertIndexes, contains_insertDimOpt, contains_insertKey, insertDim]
  cases tree <;> simp [indexKeys, indexKeys.dim]

@[simp] theorem events_insertIndexes : (insertIndexes record store).events = store.events := by
  have hopt (tree : Tree) (value : Option String) (ms : Int64) (id : String) (s : EventStore) :
      (insertDimOpt tree value ms id s).events = s.events := by
    cases value <;> rfl
  obtain ⟨id, ms, event⟩ := record
  simp only [insertIndexes, hopt]
  rfl

end EventStore

/-! ## The runs -/

/-- serde gives the strings of the event back at their places; numbers may come back rounded. -/
def Kept (lib : EventLib) (event : Json) : Prop :=
  ∀ bytes, lib.toVec event = .ok bytes → ∃ event', lib.fromSlice bytes = .ok event' ∧
    SameStrings event event'

namespace EventStore

variable {lib : EventLib} {store : EventStore} {event : Json} {record : EventRecord}

theorem reread_toVec (h : normalizeEvent lib event = .ok record) (hkept : Kept lib record.event)
    {bytes : List UInt8} (hbytes : lib.toVec record.event = .ok bytes) :
    ∃ record', reread lib bytes = .ok record' ∧ record'.eventId = record.eventId ∧
      record'.whenMs = record.whenMs ∧ indexKeys record' = indexKeys record := by
  obtain ⟨event', hread, hsame⟩ := hkept bytes hbytes
  obtain ⟨record', hagain, hid, hms, hpaths⟩ := normalizeEvent_again h hsame
  exact ⟨record', by rw [reread, hread]; exact hagain, hid, hms, indexKeys_congr hid hms hpaths⟩

/-- The trees hold the keys of the stored events and no others. -/
structure Inv (lib : EventLib) (store : EventStore) : Prop where
  readable : ∀ pk raw, store.events.get pk = some raw →
    ∃ record, reread lib raw = .ok record ∧ pk = utf8 record.eventId
  entries : ∀ tree key, (store.index tree).contains key ↔ ∃ pk raw record,
    store.events.get pk = some raw ∧ reread lib raw = .ok record ∧ key ∈ indexKeys record tree

theorem inv_empty : Inv lib empty := by
  refine ⟨nofun, fun tree key => ⟨fun h => (by cases h), ?_⟩⟩
  rintro ⟨pk, raw, record, h, -⟩
  cases h

/-- What an append does. -/
theorem appendEventJson_cases (lib : EventLib) (event : Json) (store : EventStore) :
    (appendEventJson lib event store).2 = store ∨ ∃ record bytes,
      normalizeEvent lib event = .ok record ∧ lib.toVec record.event = .ok bytes ∧
      store.events.get (utf8 record.eventId) = none ∧
      (appendEventJson lib event store).2 = insertIndexes record
        { store with events := store.events.insert (utf8 record.eventId) bytes } := by
  unfold appendEventJson
  cases hnormal : normalizeEvent lib event with
  | error e => exact .inl rfl
  | ok record =>
    cases hget : store.events.get (utf8 record.eventId) with
    | some raw => exact .inl (by simp [KeyTree.contains, hget])
    | none =>
      cases hbytes : lib.toVec record.event with
      | error e => exact .inl (by simp [KeyTree.contains, hget, hbytes])
      | ok bytes =>
        exact .inr ⟨record, bytes, rfl, hbytes, hget, by simp [KeyTree.contains, hget, hbytes]⟩

theorem Inv.appendEventJson (h : Inv lib store)
    (hkept : ∀ record, normalizeEvent lib event = .ok record → Kept lib record.event) :
    Inv lib (appendEventJson lib event store).2 := by
  rcases appendEventJson_cases lib event store with heq | ⟨record, bytes, hnormal, hbytes, hnew, heq⟩
  · rw [heq]
    exact h
  · obtain ⟨record', hreread, hid, -, hkeys⟩ := reread_toVec hnormal (hkept record hnormal) hbytes
    rw [heq]
    have hget (pk : List UInt8) : (store.events.insert (utf8 record.eventId) bytes).get pk =
        if pk = utf8 record.eventId then some bytes else store.events.get pk := by
      rw [KeyTree.get_insert]
      split_ifs <;> rfl
    refine ⟨fun pk raw hraw => ?_, fun tree key => ?_⟩
    · rw [events_insertIndexes, hget] at hraw
      split_ifs at hraw with hpk
      · obtain rfl := Option.some.inj hraw
        exact ⟨record', hreread, hid ▸ hpk⟩
      · exact h.readable pk raw hraw
    · rw [contains_insertIndexes, events_insertIndexes, h.entries]
      constructor
      · rintro (hkey | ⟨pk, raw, r, hraw, hr, hkey⟩)
        · exact ⟨_, bytes, record', by rw [hget, if_pos rfl], hreread, hkeys ▸ hkey⟩
        · refine ⟨pk, raw, r, ?_, hr, hkey⟩
          rw [hget, if_neg fun hpk => ?_, hraw]
          rw [hpk, hnew] at hraw
          cases hraw
      · rintro ⟨pk, raw, r, hraw, hr, hkey⟩
        rw [hget] at hraw
        split_ifs at hraw with hpk
        · obtain rfl := Option.some.inj hraw
          rw [hreread] at hr
          obtain rfl := Except.ok.inj hr
          exact .inl (hkeys ▸ hkey)
        · exact .inr ⟨pk, raw, r, hraw, hr, hkey⟩

theorem rebuildFrom_spec {raws : List (List UInt8)}
    (h : ∀ raw ∈ raws, ∃ record, reread lib raw = .ok record) (store : EventStore) :
    (rebuildFrom lib raws store).1 = .ok () ∧ (rebuildFrom lib raws store).2.events = store.events ∧
      ∀ tree key, ((rebuildFrom lib raws store).2.index tree).contains key ↔
        (∃ raw ∈ raws, ∃ record, reread lib raw = .ok record ∧ key ∈ indexKeys record tree) ∨
          (store.index tree).contains key := by
  induction raws generalizing store with
  | nil => exact ⟨rfl, rfl, fun tree key => by simp [rebuildFrom]⟩
  | cons raw raws ih =>
    obtain ⟨record, hread⟩ := h raw List.mem_cons_self
    obtain ⟨hok, hevents, hentries⟩ := ih (fun raw hraw => h raw (List.mem_cons_of_mem _ hraw))
      (insertIndexes record store)
    have hstep : rebuildFrom lib (raw :: raws) store =
        rebuildFrom lib raws (insertIndexes record store) := by
      rw [rebuildFrom, hread]
    refine ⟨hstep ▸ hok, by rw [hstep, hevents, events_insertIndexes], fun tree key => ?_⟩
    have hrecord : (∃ r, reread lib raw = .ok r ∧ key ∈ indexKeys r tree) ↔
        key ∈ indexKeys record tree := by
      simp [hread]
    rw [hstep, hentries, contains_insertIndexes, List.exists_mem_cons_iff, hrecord]
    exact or_left_comm.trans or_assoc.symm

theorem Inv.rebuildIndexes (h : Inv lib store) : rebuildIndexes lib store = (.ok (), store) := by
  have hreads : ∀ raw ∈ store.events.values, ∃ record, reread lib raw = .ok record := by
    intro raw hraw
    obtain ⟨pk, hpk⟩ := KeyTree.mem_values.mp hraw
    obtain ⟨record, hread, -⟩ := h.readable pk raw hpk
    exact ⟨record, hread⟩
  obtain ⟨hok, hevents, hentries⟩ := rebuildFrom_spec hreads { store with index := fun _ => .empty }
  have hindex : (EventStore.rebuildIndexes lib store).2.index = store.index := by
    funext tree
    refine KeyTree.ext_contains fun key => ?_
    rw [EventStore.rebuildIndexes, hentries, h.entries]
    constructor
    · rintro (⟨raw, hraw, record, hread, hkey⟩ | hempty)
      · obtain ⟨pk, hpk⟩ := KeyTree.mem_values.mp hraw
        exact ⟨pk, raw, record, hpk, hread, hkey⟩
      · cases hempty
    · rintro ⟨pk, raw, record, hpk, hread, hkey⟩
      exact .inl ⟨raw, KeyTree.mem_values.mpr ⟨pk, hpk⟩, record, hread, hkey⟩
  refine Prod.ext hok ?_
  cases hstore : (EventStore.rebuildIndexes lib store).2
  rw [hstore] at hindex
  rw [EventStore.rebuildIndexes] at hstore
  rw [hstore] at hevents
  cases hevents
  cases hindex
  rfl

/-- The appends, one after the other. -/
def run (lib : EventLib) (events : List Json) : EventStore :=
  events.foldl (fun store event => (EventStore.appendEventJson lib event store).2) empty

theorem inv_run {events : List Json}
    (h : ∀ event ∈ events, ∀ record, normalizeEvent lib event = .ok record → Kept lib record.event) :
    Inv lib (run lib events) :=
  List.foldlRecOn events _ inv_empty fun _ hstore event hevent =>
    hstore.appendEventJson (h event hevent)

/-- After any appends a rebuild changes nothing, and neither does an event whose id is there.  From
the same events with any trees a rebuild gives the trees of the appends. -/
theorem rebuild_eq_appends {events : List Json}
    (h : ∀ event ∈ events, ∀ record, normalizeEvent lib event = .ok record → Kept lib record.event) :
    EventStore.rebuildIndexes lib (run lib events) = (.ok (), run lib events) ∧
      (∀ trees, EventStore.rebuildIndexes lib { run lib events with index := trees } =
        (.ok (), run lib events)) ∧
      ∀ event record, normalizeEvent lib event = .ok record →
        (run lib events).events.contains (utf8 record.eventId) →
          EventStore.appendEventJson lib event (run lib events) = (.ok false, run lib events) := by
  have hrebuild := (inv_run h).rebuildIndexes
  -- a rebuild clears the trees first
  refine ⟨hrebuild, fun trees => hrebuild, fun event record hnormal hthere => ?_⟩
  rw [EventStore.appendEventJson, hnormal]
  exact if_pos hthere

/-- An event as the gate makes them. -/
def sampleEvent : Json :=
  .object [("@id", .string "evt_1"), ("@world", .string "a/acme/t/prod"), ("stage", .string "WF"),
    ("when", .string "2026-02-18T12:00:00Z")]

/-- What is stored of it. -/
def sampleStored : Json :=
  .object [("@id", .string "evt_1"), ("@world", .string "a/acme/t/prod"), ("stage", .string "WF"),
    ("when", .string "2026-02-18T12:00:00Z"), ("@type", .string "ubl/event"),
    ("@ver", .string "1.0.0")]

def sampleText : String :=
  "\x7b\"@id\":\"evt_1\",\"@world\":\"a/acme/t/prod\",\"stage\":\"WF\"," ++
    "\"when\":\"2026-02-18T12:00:00Z\",\"@type\":\"ubl/event\",\"@ver\":\"1.0.0\"\x7d"

/-- chrono and serde for the one event. -/
def sampleEventLib : EventLib where
  rfc3339Millis s :=
    if s = "2026-02-18T12:00:00Z" then .ok 1771416000000 else .error "input contains invalid characters"
  blake3 _ := []
  toVec event := if strAt event ["@id"] = some "evt_1" then .ok (utf8 sampleText) else .error ""
  fromSlice bytes := if bytes = utf8 sampleText then .ok sampleStored else .error "expected value"

theorem normalizeEvent_sample :
    normalizeEvent sampleEventLib sampleEvent = .ok ⟨"evt_1", 1771416000000, sampleStored⟩ := rfl

theorem kept_sample : ∀ event ∈ [sampleEvent], ∀ record,
    normalizeEvent sampleEventLib event = .ok record → Kept sampleEventLib record.event := by
  intro event hevent record hnormal bytes hbytes
  obtain rfl := List.mem_singleton.mp hevent
  obtain rfl := Except.ok.inj (normalizeEvent_sample.symm.trans hnormal)
  have htext : sampleEventLib.toVec sampleStored = .ok (utf8 sampleText) := by
    simp only [sampleEventLib]
    exact if_pos rfl
  obtain rfl := Except.ok.inj (htext.symm.trans hbytes)
  exact ⟨sampleStored, by simp only [sampleEventLib, if_pos], fun _ => rfl⟩

theorem rebuild_eq_appends_sample :
    EventStore.rebuildIndexes sampleEventLib (run sampleEventLib [sampleEvent]) =
        (.ok (), run sampleEventLib [sampleEvent]) ∧
      EventStore.rebuildIndexes sampleEventLib
          { run sampleEventLib [sampleEvent] with index := fun _ => .empty } =
        (.ok (), run sampleEventLib [sampleEvent]) ∧
      EventStore.appendEventJson sampleEventLib sampleEvent (run sampleEventLib [sampleEvent]) =
        (.ok false, run sampleEventLib [sampleEvent]) := by
  obtain ⟨hrebuild, hcleared, hagain⟩ := rebuild_eq_appends kept_sample
  exact ⟨hrebuild, hcleared _, hagain sampleEvent _ normalizeEvent_sample (by with_unfolding_all rfl)⟩

end EventStore

end Ubl.Eventstore
