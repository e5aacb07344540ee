import Ubl.Eventstore.Keys
import Ubl.Eventstore.Rebuild

/-!
# Queries by index and by scan

A query goes through one index, or the time index, and compares what it finds there with the query
again; `EventStore.scan` compares every stored event, in the order of time.  For ids without a
separator and times from the epoch on (`Plain`) the query gives the events of the scan that have the
value of its index in the very spelling of the query (`Inv.query_eq`), so that the two agree just if
all events of the scan have it:

    query lib (run lib events) q = .ok ((run lib events).scan lib q) ↔
      ∀ event ∈ (run lib events).scan lib q, IndexedFor q event          (query_eq_scan_iff)

Stage, decision and type are compared up to case or with a default, and indexed as they are written.
-/

namespace Ubl.Eventstore

open Utf8 KeyTree

/-! ## What is stored -/

/-- The field of an event that a tree is about. -/
def field : Tree → Json → Option String
  | .time => fun _ => none
  | .world => eventWorld
  | .stage => eventStage
  | .type => eventChipType
  | .decision => eventDecision
  | .code => eventCode
  | .actor => eventActor

section Fields

variable {lib : EventLib} {event : Json} {record : EventRecord} {tree : Tree} {key : List UInt8}
  {value : String}

/-- Only an event without a world is entered under something it does not have. -/
theorem exists_of_mem_indexKeys (htree : tree ≠ .time) (h : key ∈ indexKeys record tree) :
    ∃ v, key = dimIndexKey v record.whenMs record.eventId ∧
      (field tree record.event = some v ∨ tree = .world ∧ field tree record.event = none) := by
  have hdim {value : Option String} (h : key ∈ indexKeys.dim record value) :
      ∃ v, key = dimIndexKey v record.whenMs record.eventId ∧ value = some v := by
    obtain ⟨v, hv, rfl⟩ := Option.map_eq_some_iff.mp (Option.mem_toList.mp h)
    exact ⟨v, rfl, hv⟩
  cases tree with
  | time => exact absurd rfl htree
  | world =>
    refine ⟨_, List.mem_singleton.mp h, ?_⟩
    cases hworld : eventWorld record.event with
    | none => exact .inr ⟨rfl, hworld⟩
    | some world => exact .inl hworld
  | _ =>
    obtain ⟨v, hkey, hv⟩ := hdim h
    exact ⟨v, hkey, .inl hv⟩

theorem mem_indexKeys_of_field (h : field tree record.event = some value) :
    dimIndexKey value record.whenMs record.eventId ∈ indexKeys record tree := by
  cases tree with
  | time => cases h
  | world =>
    have hworld : eventWorld record.event = some value := h
    simp [indexKeys, hworld]
  | stage => exact Option.mem_toList.mpr (Option.map_eq_some_iff.mpr ⟨value, h, rfl⟩)
  | type => exact Option.mem_toList.mpr (Option.map_eq_some_iff.mpr ⟨value, h, rfl⟩)
  | decision => exact Option.mem_toList.mpr (Option.map_eq_some_iff.mpr ⟨value, h, rfl⟩)
  | code => exact Option.mem_toList.mpr (Option.map_eq_some_iff.mpr ⟨value, h, rfl⟩)
  | actor => exact Option.mem_toList.mpr (Option.map_eq_some_iff.mpr ⟨value, h, rfl⟩)

/-- The event has the value that the index of the query is asked for, if it is asked at all. -/
def IndexedFor (q : EventQuery) (event : Json) : Prop :=
  ∀ tree value, chooseBestIndex q = some (tree, value) → field tree event = some value

instance (q : EventQuery) (event : Json) : Decidable (IndexedFor q event) :=
  match h : chooseBestIndex q with
  | none => isTrue (by simp [IndexedFor, h])
  | some (tree, value) => decidable_of_iff (field tree event = some value) (by
      simp [IndexedFor, h])

theorem eqIgnoreAsciiCase_self (s : String) : eqIgnoreAsciiCase s s = true := by
  simp [eqIgnoreAsciiCase]

/-- A match has the value up to case, or lacks an empty one; and it has the world that is asked
for. -/
theorem field_of_matches {q : EventQuery} (h : chooseBestIndex q = some (tree, value))
    (hmatch : matchesQuery event q = true) :
    tree ≠ .time ∧ eqIgnoreAsciiCase ((field tree event).getD "") value = true ∧
      (tree = .world → field tree event = some value) := by
  obtain ⟨world, stage, decision, code, chipType, actor, since, limit⟩ := q
  simp only [matchesQuery, Bool.and_eq_true, Option.all_eq_true, decide_eq_true_eq] at hmatch
  obtain ⟨⟨⟨⟨⟨hworld, hstage⟩, hdecision⟩, hcode⟩, hactor⟩, htype⟩ := hmatch
  simp only [chooseBestIndex, Option.orElse_eq_orElse, Option.orElse_eq_or, Option.or_eq_some_iff,
    Option.map_eq_some_iff, Prod.mk.injEq, Option.filter_eq_some_iff] at h
  have hexact {f : Option String} (hf : f = some value) :
      eqIgnoreAsciiCase (f.getD "") value = true := by
    rw [hf]
    exact eqIgnoreAsciiCase_self value
  rcases h with ⟨_, ⟨rfl, hglob⟩, rfl, rfl⟩ | ⟨-, ⟨_, rfl, rfl, rfl⟩ | ⟨-, ⟨_, rfl, rfl, rfl⟩ | ⟨-,
    ⟨_, rfl, rfl, rfl⟩ | ⟨-, ⟨_, ⟨rfl, -⟩, rfl, rfl⟩ | ⟨-, _, ⟨rfl, -⟩, rfl, rfl⟩⟩⟩⟩⟩
  · refine ⟨nofun, ?_, nofun⟩
    have htype := htype _ rfl
    rw [matchesTypeGlob, if_neg (of_decide_eq_true hglob), decide_eq_true_eq] at htype
    show eqIgnoreAsciiCase ((eventChipType event).getD "") _ = true
    rw [htype]
    exact eqIgnoreAsciiCase_self _
  · exact ⟨nofun, hexact (hworld _ rfl), fun _ => hworld _ rfl⟩
  · exact ⟨nofun, hexact (hactor _ rfl), nofun⟩
  · exact ⟨nofun, hexact (hcode _ rfl), nofun⟩
  · exact ⟨nofun, hstage _ rfl, nofun⟩
  · exact ⟨nofun, hdecision _ rfl, nofun⟩

/-- Up to case a text has one length. -/
theorem length_of_eqIgnoreAsciiCase {a b : String} (h : eqIgnoreAsciiCase a b = true) :
    a.toList.length = b.toList.length := by
  have hmap := congrArg List.length (of_decide_eq_true h)
  rwa [List.length_map, List.length_map] at hmap

/-- What stands in the index under the value, and matches, has that value. -/
theorem key_of_matches {q : EventQuery} (h : chooseBestIndex q = some (tree, value))
    (hmatch : matchesQuery record.event q = true) (hkey : key ∈ indexKeys record tree)
    (hp : utf8 (value ++ "\x1f") <+: key) :
    key = dimIndexKey value record.whenMs record.eventId ∧
      field tree record.event = some value := by
  obtain ⟨htree, hcase, hworld⟩ := field_of_matches h hmatch
  obtain ⟨v, rfl, hv⟩ := exists_of_mem_indexKeys htree hkey
  have hv : field tree record.event = some v := by
    rcases hv with hv | ⟨hw, hnone⟩
    · exact hv
    · rw [hworld hw] at hnone
      cases hnone
  rw [hv] at hcase
  obtain ⟨rest, hrest⟩ := hp
  obtain ⟨u, hu, -⟩ := utf8_of_append hrest
  have hlist : v.toList ++ '\x1f' :: (pad20 record.whenMs ++ "\x1f" ++ record.eventId).toList =
      value.toList ++ '\x1f' :: u.toList := by
    have := congrArg String.toList hu
    simpa using this
  have hvalue : v = value :=
    String.toList_injective (List.append_inj hlist (length_of_eqIgnoreAsciiCase hcase)).1
  exact ⟨by rw [hvalue], by rw [hv, hvalue]⟩

end Fields

/-! ## The scan -/

section Scan

variable (lib : EventLib) (store : EventStore)

/-- A stored event, with the id and the time that it is stored under. -/
def storedRecord (raw : List UInt8) : Option EventRecord :=
  match lib.fromSlice raw with
  | .error _ => none
  | .ok event =>
    match normalizeEvent lib event with
    | .error _ => none
    | .ok record => some ⟨record.eventId, record.whenMs, event⟩

/-- Events come in the order of time, and those of one millisecond in that of their ids. -/
def EventRecord.place (r : EventRecord) : ℤ ×ₗ List UInt8 := toLex (r.whenMs.toInt, utf8 r.eventId)

/-- `since` is a bound where it is given and can be read. -/
def notBefore (q : EventQuery) (r : EventRecord) : Bool :=
  (parseSinceToMs lib q.since).all (· ≤ r.whenMs)

namespace EventStore

def records : List EventRecord := store.events.values.filterMap (storedRecord lib)

def found (id : String) : Option EventRecord :=
  (store.events.get (utf8 id)).bind (storedRecord lib)

/-- The stored event of an id, if it matches. -/
def hit (q : EventQuery) (id : String) : Option EventRecord :=
  (store.found lib id).filter fun r => matchesQuery r.event q

def inTimeOrder : List EventRecord := (store.records lib).mergeSort fun r r' => r.place ≤ r'.place

/-- All stored events in the order of time, each compared with the query. -/
def scan (q : EventQuery) : List Json :=
  (((store.inTimeOrder lib).filter fun r => notBefore lib q r && matchesQuery r.event q).map
    EventRecord.event).take (queryLimit q)

end EventStore

end Scan

/-! ## What the index trees hold -/

namespace EventStore

section Records

variable {lib : EventLib} {store : EventStore} {raw key : List UInt8} {id : String}
  {r record : EventRecord} {tree : Tree} {q : EventQuery} {p : List UInt8} {start : Int64}

theorem storedRecord_eq_some : storedRecord lib raw = some r ↔
    ∃ record, reread lib raw = .ok record ∧ lib.fromSlice raw = .ok r.event ∧
      r.eventId = record.eventId ∧ r.whenMs = record.whenMs := by
  unfold storedRecord reread
  cases hread : lib.fromSlice raw with
  | error e => simp
  | ok event =>
    cases hnormal : normalizeEvent lib event with
    | error e => simp [hnormal]
    | ok record =>
      obtain ⟨rid, rms, revent⟩ := r
      simp only [hnormal, Option.some.injEq, EventRecord.mk.injEq, Except.ok.injEq, exists_eq_left']
      tauto

/-- What is read back once more has the keys of what is stored. -/
theorem indexKeys_reread (h : reread lib raw = .ok record) (hr : storedRecord lib raw = some r) :
    indexKeys record = indexKeys r := by
  obtain ⟨record', h', hread, hid, hms⟩ := storedRecord_eq_some.mp hr
  obtain rfl := Except.ok.inj (h.symm.trans h')
  refine indexKeys_congr hid.symm hms.symm fun paths hpaths => ?_
  rw [reread, hread] at h
  obtain ⟨members, timestamp, whenMs, hevent, -, -, rfl⟩ := normalizeEvent_eq_ok.mp h
  rw [hevent]
  exact firstStr_normalized hpaths

theorem exists_storedRecord (h : reread lib raw = .ok record) :
    ∃ r, storedRecord lib raw = some r ∧ r.eventId = record.eventId := by
  have hread := h
  rw [reread] at hread
  split at hread
  · cases hread
  · next event hevent =>
    exact ⟨⟨record.eventId, record.whenMs, event⟩,
      storedRecord_eq_some.mpr ⟨record, h, hevent, rfl, rfl⟩, rfl⟩

theorem Inv.mem_records (h : Inv lib store) :
    r ∈ store.records lib ↔ store.found lib r.eventId = some r := by
  rw [records, List.mem_filterMap]
  constructor
  · rintro ⟨raw, hraw, hr⟩
    obtain ⟨pk, hpk⟩ := mem_values.mp hraw
    obtain ⟨record, hreread, rfl⟩ := h.readable _ _ hpk
    obtain ⟨record', hreread', -, hid, -⟩ := storedRecord_eq_some.mp hr
    obtain rfl := Except.ok.inj (hreread.symm.trans hreread')
    rw [found, hid, hpk]
    exact hr
  · intro hr
    obtain ⟨raw, hraw, hr⟩ := Option.bind_eq_some_iff.mp hr
    exact ⟨raw, mem_values.mpr ⟨_, hraw⟩, hr⟩

/-- The keys are those of the stored events. -/
theorem Inv.contains_iff (h : Inv lib store) :
    (store.index tree).contains key ↔ ∃ r ∈ store.records lib, key ∈ indexKeys r tree := by
  rw [h.entries]
  constructor
  · rintro ⟨pk, raw, record, hraw, hreread, hkey⟩
    obtain ⟨r, hr, -⟩ := exists_storedRecord hreread
    refine ⟨r, List.mem_filterMap.mpr ⟨raw, mem_values.mpr ⟨pk, hraw⟩, hr⟩, ?_⟩
    rwa [← indexKeys_reread hreread hr]
  · rintro ⟨r, hr, hkey⟩
    obtain ⟨raw, hraw, hr⟩ := List.mem_filterMap.mp hr
    obtain ⟨pk, hpk⟩ := mem_values.mp hraw
    obtain ⟨record, hreread, -⟩ := storedRecord_eq_some.mp hr
    exact ⟨pk, raw, record, hpk, hreread, by rwa [indexKeys_reread hreread hr]⟩

/-- No two stored events have one id. -/
theorem Inv.records_pairwise (h : Inv lib store) :
    (store.records lib).Pairwise fun r r' => r.eventId ≠ r'.eventId := by
  have hid {e : List UInt8 × List UInt8} (he : e ∈ store.events.entries) {r : EventRecord}
      (hr : storedRecord lib e.2 = some r) : e.1 = utf8 r.eventId := by
    obtain ⟨record, hreread, hpk⟩ := h.readable e.1 e.2 (mem_entries.mp he)
    obtain ⟨record', hreread', -, hid, -⟩ := storedRecord_eq_some.mp hr
    obtain rfl := Except.ok.inj (hreread.symm.trans hreread')
    rw [hpk, hid]
  rw [records, values, List.filterMap_map, List.pairwise_filterMap]
  refine store.events.ascending.imp_of_mem fun {e e'} he he' hlt r hr r' hr' heq => ?_
  have hkeys : e.1 = e'.1 := by rw [hid he hr, hid he' hr', heq]
  exact lt_irrefl e'.1 (hkeys ▸ hlt)

theorem mem_inTimeOrder : r ∈ store.inTimeOrder lib ↔ r ∈ store.records lib :=
  (List.mergeSort_perm _ _).mem_iff

theorem Inv.inTimeOrder_pairwise (h : Inv lib store) :
    (store.inTimeOrder lib).Pairwise fun r r' => r.place < r'.place := by
  have hsorted : (store.inTimeOrder lib).Pairwise fun r r' => decide (r.place ≤ r'.place) = true :=
    List.pairwise_mergeSort (fun a b c hab hbc => by
        simp only [decide_eq_true_eq] at hab hbc ⊢
        exact hab.trans hbc)
      (fun a b => by simpa using le_total a.place b.place) _
  have hids : (store.inTimeOrder lib).Pairwise fun r r' => r.eventId ≠ r'.eventId :=
    h.records_pairwise.perm (List.mergeSort_perm _ _).symm fun {r r'} hne => hne.symm
  refine hsorted.imp₂ (fun r r' hle hne => ?_) hids
  refine lt_of_le_of_ne (of_decide_eq_true hle) fun heq => hne ?_
  exact utf8_injective (congrArg (fun p => (ofLex p).2) heq)

/-- What the keys say of an event: its id has no separator in it, and its time is not before the
epoch. -/
def Plain (r : EventRecord) : Prop := '\x1f' ∉ r.eventId.toList ∧ 0 ≤ r.whenMs

theorem Plain.timeIndexKey_lt {r' : EventRecord} (h : Plain r) (h' : Plain r')
    (hlt : r.place < r'.place) :
    timeIndexKey r.whenMs r.eventId < timeIndexKey r'.whenMs r'.eventId := by
  rw [timeIndexKey_lt_iff h.2 h'.2, Int64.lt_iff_toInt_lt, ← Int64.toInt_inj]
  exact Prod.Lex.toLex_lt_toLex.mp hlt

theorem Plain.extract (h : Plain r) (hkey : key ∈ indexKeys r tree) :
    extractEventIdFromIndexKey key = some r.eventId := by
  by_cases htree : tree = .time
  · subst htree
    obtain rfl := List.mem_singleton.mp hkey
    exact extract_append h.1
  · obtain ⟨v, rfl, -⟩ := exists_of_mem_indexKeys htree hkey
    exact extract_append h.1

/-- Of what an index holds under `p`, what matches stands there under its own time and id and has
the value that the index is asked for. -/
def Serves (q : EventQuery) (tree : Tree) (p : List UInt8) (r : EventRecord) : Prop :=
  matchesQuery r.event q = true →
    (IndexedFor q r.event → p ++ timeIndexKey r.whenMs r.eventId ∈ indexKeys r tree) ∧
    ∀ key ∈ indexKeys r tree, p <+: key →
      key = p ++ timeIndexKey r.whenMs r.eventId ∧ IndexedFor q r.event

/-- What is read from a key of a range. -/
theorem Inv.read_range (h : Inv lib store) (hplain : ∀ r ∈ store.records lib, Plain r)
    (hserves : ∀ r ∈ store.records lib, Serves q tree p r)
    (hrange : key ∈ (store.index tree).range (p ++ utf8 (pad20 start ++ "\x1f")))
    (hp : p <+: key)
    (hr : (extractEventIdFromIndexKey key).bind (store.hit lib q) = some r) :
    r ∈ store.records lib ∧ matchesQuery r.event q = true ∧ IndexedFor q r.event ∧
      start ≤ r.whenMs ∧ key = p ++ timeIndexKey r.whenMs r.eventId := by
  obtain ⟨hcontains, hstart⟩ := mem_range.mp hrange
  obtain ⟨r₀, hr₀, hmem⟩ := h.contains_iff.mp hcontains
  rw [(hplain r₀ hr₀).extract hmem, Option.bind_some, hit, h.mem_records.mp hr₀] at hr
  obtain ⟨heq, hmatch⟩ := Option.filter_eq_some_iff.mp hr
  obtain rfl := Option.some.inj heq
  obtain ⟨rfl, hindexed⟩ := (hserves r₀ hr₀ hmatch).2 key hmem hp
  rw [append_le_append_left_iff, start_le_timeIndexKey (hplain r₀ hr₀).2] at hstart
  exact ⟨hr₀, hmatch, hindexed, hstart, rfl⟩

/-- From `start` on a scan of an index under `p` finds, of the events in their order, those that
match and have the value that the index is asked for. -/
theorem Inv.filterMap_range (h : Inv lib store) (hplain : ∀ r ∈ store.records lib, Plain r)
    (hserves : ∀ r ∈ store.records lib, Serves q tree p r) (start : Int64) :
    (((store.index tree).range (p ++ utf8 (pad20 start ++ "\x1f"))).takeWhile
        p.isPrefixOf).filterMap (fun key => (extractEventIdFromIndexKey key).bind (store.hit lib q)) =
      (store.inTimeOrder lib).filter fun r => start ≤ r.whenMs ∧ matchesQuery r.event q = true ∧
        IndexedFor q r.event := by
  have hread : ∀ key ∈ ((store.index tree).range (p ++ utf8 (pad20 start ++ "\x1f"))).filter
      p.isPrefixOf, ∀ r, (extractEventIdFromIndexKey key).bind (store.hit lib q) = some r →
          r ∈ store.records lib ∧ matchesQuery r.event q = true ∧ IndexedFor q r.event ∧
            start ≤ r.whenMs ∧ key = p ++ timeIndexKey r.whenMs r.eventId := by
    intro key hkey r hr
    obtain ⟨hrange, hp⟩ := List.mem_filter.mp hkey
    exact h.read_range hplain hserves hrange (List.isPrefixOf_iff_prefix.mp hp) hr
  have hkeys : (((store.index tree).range (p ++ utf8 (pad20 start ++ "\x1f"))).filter
      p.isPrefixOf).Pairwise (· < ·) :=
    ((store.index tree).keys_pairwise.filter _).filter _
  have hrecords : ((store.inTimeOrder lib).filter fun r => start ≤ r.whenMs ∧
      matchesQuery r.event q = true ∧ IndexedFor q r.event).Pairwise fun r r' =>
        p ++ timeIndexKey r.whenMs r.eventId < p ++ timeIndexKey r'.whenMs r'.eventId := by
    refine (h.inTimeOrder_pairwise.filter _).imp_of_mem fun {r r'} hr hr' hlt => ?_
    rw [append_lt_append_left_iff]
    exact (hplain r (mem_inTimeOrder.mp (List.mem_of_mem_filter hr))).timeIndexKey_lt
      (hplain r' (mem_inTimeOrder.mp (List.mem_of_mem_filter hr'))) hlt
  rw [takeWhile_range]
  refine filterMap_eq_of_keys hkeys (fun key hkey r hr => (hread key hkey r hr).2.2.2.2)
    hrecords fun r => ?_
  rw [List.mem_filter, mem_inTimeOrder, decide_eq_true_eq]
  constructor
  · rintro ⟨hr, hstart, hmatch, hindexed⟩
    have hmem := (hserves r hr hmatch).1 hindexed
    refine ⟨p ++ timeIndexKey r.whenMs r.eventId, List.mem_filter.mpr ⟨mem_range.mpr
      ⟨h.contains_iff.mpr ⟨r, hr, hmem⟩, ?_⟩, ?_⟩, ?_⟩
    · rw [append_le_append_left_iff]
      exact (start_le_timeIndexKey (hplain r hr).2).mpr hstart
    · exact List.isPrefixOf_iff_prefix.mpr (List.prefix_append _ _)
    · rw [(hplain r hr).extract hmem, Option.bind_some, hit, h.mem_records.mp hr]
      exact Option.filter_eq_some_iff.mpr ⟨rfl, hmatch⟩
  · rintro ⟨key, hkey, hr⟩
    obtain ⟨hr, hmatch, hindexed, hstart, -⟩ := hread key hkey r hr
    exact ⟨hr, hstart, hmatch, hindexed⟩

/-- The loops of a query read the ids off, up to the limit. -/
theorem Inv.collect_eq (h : Inv lib store) (q : EventQuery) {limit : ℕ} {ids : List String}
    {out : List Json} (hout : out.length < limit) : collect lib store q limit ids out =
      .ok ((out ++ (ids.filterMap (store.hit lib q)).map EventRecord.event).take limit) := by
  induction ids generalizing out with
  | nil =>
    rw [collect, List.filterMap_nil, List.map_nil, List.append_nil, List.take_of_length_le hout.le]
  | cons id ids ih =>
    rw [collect, List.filterMap_cons, hit, found]
    cases hget : store.events.get (utf8 id) with
    | none => exact ih hout
    | some raw =>
      obtain ⟨record, hreread, -⟩ := h.readable _ _ hget
      obtain ⟨r, hr, -⟩ := exists_storedRecord hreread
      obtain ⟨-, -, hread, -, -⟩ := storedRecord_eq_some.mp hr
      simp only [hread, Option.bind_some, hr, Option.filter_some]
      by_cases hmatch : matchesQuery r.event q = true
      · simp only [hmatch, if_true, List.map_cons]
        split_ifs with hlimit
        · have hlength : limit = out.length + 1 := by
            rw [List.length_append, List.length_singleton] at hlimit
            omega
          rw [hlength, List.take_length_add_append, List.take_succ_cons, List.take_zero]
        · rw [ih (not_le.mp hlimit), List.append_assoc, List.singleton_append]
      · simp only [hmatch]
        exact ih hout

/-- The index of a query serves every event. -/
theorem serves_best {value : String} (hbest : chooseBestIndex q = some (tree, value)) :
    Serves q tree (utf8 (value ++ "\x1f")) r := by
  have hindexed : IndexedFor q r.event ↔ field tree r.event = some value := by
    simp [IndexedFor, hbest]
  intro hmatch
  rw [hindexed, ← dimIndexKey_eq]
  exact ⟨mem_indexKeys_of_field, fun key hkey hp =>
    key_of_matches hbest hmatch hkey hp⟩

theorem serves_time (hbest : chooseBestIndex q = none) : Serves q .time [] r := by
  have hindexed : IndexedFor q r.event := by
    intro tree value h
    rw [hbest] at h
    cases h
  exact fun _ => ⟨fun _ => List.mem_singleton_self _,
    fun key hkey _ => ⟨List.mem_singleton.mp hkey, hindexed⟩⟩

/-- What a query gives: the events in their order that match and have the value of its index. -/
theorem Inv.query_eq (h : Inv lib store) (hplain : ∀ r ∈ store.records lib, Plain r)
    (q : EventQuery) : query lib store q =
      .ok ((((store.inTimeOrder lib).filter fun r => startMs lib q ≤ r.whenMs ∧
        matchesQuery r.event q = true ∧ IndexedFor q r.event).map EventRecord.event).take
          (queryLimit q)) := by
  have hlimit : ([] : List Json).length < queryLimit q := by
    rw [queryLimit, List.length_nil]
    omega
  unfold query
  cases hbest : chooseBestIndex q with
  | none =>
    have hscan := h.filterMap_range hplain (fun r _ => serves_time hbest) (startMs lib q)
    have hall (keys : List (List UInt8)) : keys.takeWhile [].isPrefixOf = keys :=
      List.takeWhile_eq_self_iff.mpr fun _ _ => rfl
    rw [hall, List.nil_append] at hscan
    dsimp only
    rw [h.collect_eq q hlimit, scanTimeIndex, List.filterMap_filterMap, List.nil_append, hscan]
  | some best =>
    obtain ⟨tree, value⟩ := best
    have hscan := h.filterMap_range hplain (fun r _ => serves_best hbest) (startMs lib q)
    have hstart : utf8 (value ++ "\x1f" ++ pad20 (startMs lib q) ++ "\x1f") =
        utf8 (value ++ "\x1f") ++ utf8 (pad20 (startMs lib q) ++ "\x1f") := by
      simp only [utf8_append, List.append_assoc]
    dsimp only
    rw [h.collect_eq q hlimit, scanDimIndex, hstart, List.filterMap_filterMap, List.nil_append,
      hscan]

theorem notBefore_iff (h : Plain r) : notBefore lib q r = true ↔ startMs lib q ≤ r.whenMs := by
  rw [notBefore, startMs]
  cases parseSinceToMs lib q.since with
  | none => exact iff_of_true rfl h.2
  | some ms => simp

end Records

/-! ## Queries on what was appended -/

section Runs

variable {lib : EventLib} {store : EventStore} {event : Json} {events : List Json}

/-- What is stored is plain when it is read back. -/
def StoredPlain (lib : EventLib) (store : EventStore) : Prop :=
  ∀ pk raw record, store.events.get pk = some raw → reread lib raw = .ok record → Plain record

theorem StoredPlain.records (h : StoredPlain lib store) : ∀ r ∈ store.records lib, Plain r := by
  intro r hr
  obtain ⟨raw, hraw, hr⟩ := List.mem_filterMap.mp hr
  obtain ⟨pk, hpk⟩ := mem_values.mp hraw
  obtain ⟨record, hread, -, hid, hms⟩ := storedRecord_eq_some.mp hr
  rw [Plain, hid, hms]
  exact h pk raw record hpk hread

/-- What an append stores has the id and the time of the event. -/
theorem StoredPlain.appendEventJson (h : StoredPlain lib store)
    (hkept : ∀ record, normalizeEvent lib event = .ok record → Kept lib record.event)
    (hplain : ∀ record, normalizeEvent lib event = .ok record → Plain record) :
    StoredPlain lib (appendEventJson lib event store).2 := by
  rcases appendEventJson_cases lib event store with heq | ⟨new, bytes, hnormal, hbytes, -, heq⟩
  · rw [heq]
    exact h
  · intro pk raw record hget hread
    rw [heq, events_insertIndexes] at hget
    change (store.events.insert (utf8 new.eventId) bytes).get pk = some raw at hget
    rw [get_insert] at hget
    split_ifs at hget with hpk
    · obtain rfl := Option.some.inj hget
      obtain ⟨record', hread', hid, hms, -⟩ := reread_toVec hnormal (hkept new hnormal) hbytes
      obtain rfl := Except.ok.inj (hread.symm.trans hread')
      rw [Plain, hid, hms]
      exact hplain new hnormal
    · exact h pk raw record hget hread

theorem storedPlain_run
    (hkept : ∀ event ∈ events, ∀ record, normalizeEvent lib event = .ok record →
      Kept lib record.event)
    (hplain : ∀ event ∈ events, ∀ record, normalizeEvent lib event = .ok record → Plain record) :
    StoredPlain lib (run lib events) :=
  List.foldlRecOn events _ nofun fun _ hstore event hevent =>
    hstore.appendEventJson (hkept event hevent) (hplain event hevent)

/-- A query gives what a scan of all events gives just if the events of the scan have, under the
very spelling of the query, the value of the index that it goes by. -/
theorem query_eq_scan_iff
    (hkept : ∀ event ∈ events, ∀ record, normalizeEvent lib event = .ok record →
      Kept lib record.event)
    (hplain : ∀ r ∈ (run lib events).records lib, Plain r) (q : EventQuery) :
    query lib (run lib events) q = .ok ((run lib events).scan lib q) ↔
      ∀ event ∈ (run lib events).scan lib q, IndexedFor q event := by
  have hfilter : (((run lib events).inTimeOrder lib).filter fun r => startMs lib q ≤ r.whenMs ∧
      matchesQuery r.event q = true ∧ IndexedFor q r.event).map EventRecord.event =
        ((((run lib events).inTimeOrder lib).filter fun r =>
          notBefore lib q r && matchesQuery r.event q).map EventRecord.event).filter
            fun event => decide (IndexedFor q event) := by
    rw [List.filter_map, List.filter_filter]
    refine congrArg _ (List.filter_congr fun r hr => ?_)
    have hstart : notBefore lib q r = true ↔ startMs lib q ≤ r.whenMs :=
      notBefore_iff (hplain r (mem_inTimeOrder.mp hr))
    rw [Bool.eq_iff_iff, decide_eq_true_eq, ← hstart, Bool.and_eq_true, Bool.and_eq_true,
      Function.comp_apply, decide_eq_true_eq]
    tauto
  rw [(inv_run hkept).query_eq hplain, Except.ok.injEq, scan, hfilter, take_filter_eq_iff]
  simp

/-- The events of one stage. -/
def stageQuery (stage : String) : EventQuery :=
  ⟨none, some stage, none, none, none, none, none, none⟩

theorem query_eq_scan_iff_sample :
    query sampleEventLib (run sampleEventLib [sampleEvent]) (stageQuery "WF") =
      .ok ((run sampleEventLib [sampleEvent]).scan sampleEventLib (stageQuery "WF")) := by
  have hplain : ∀ event ∈ [sampleEvent], ∀ record,
      normalizeEvent sampleEventLib event = .ok record → Plain record := by
    intro event hevent record hnormal
    obtain rfl := List.mem_singleton.mp hevent
    obtain rfl := Except.ok.inj (normalizeEvent_sample.symm.trans hnormal)
    exact ⟨by decide, by decide⟩
  have hscan : (run sampleEventLib [sampleEvent]).scan sampleEventLib (stageQuery "WF") =
      [sampleStored] := by
    with_unfolding_all rfl
  refine (query_eq_scan_iff kept_sample (storedPlain_run kept_sample hplain).records _).mpr ?_
  intro event hevent
  rw [hscan] at hevent
  obtain rfl := List.mem_singleton.mp hevent
  decide

/-- An event whose stage is in small letters, and what is stored of it. -/
def lowerEvent : Json :=
  .object [("@id", .string "evt_1"), ("stage", .string "wf"), ("when", .string "2026-02-18T12:00:00Z")]

def lowerStored : Json :=
  .object [("@id", .string "evt_1"), ("stage", .string "wf"), ("when", .string "2026-02-18T12:00:00Z"),
    ("@type", .string "ubl/event"), ("@ver", .string "1.0.0")]

def lowerText : String :=
  "\x7b\"@id\":\"evt_1\",\"stage\":\"wf\",\"when\":\"2026-02-18T12:00:00Z\"," ++
    "\"@type\":\"ubl/event\",\"@ver\":\"1.0.0\"\x7d"

/-- chrono and serde for the one event. -/
def lowerLib : EventLib where
  rfc3339Millis s :=
    if s = "2026-02-18T12:00:00Z" then .ok 1771416000000 else .error "input contains invalid characters"
  blake3 _ := []
  toVec event := if strAt event ["@id"] = some "evt_1" then .ok (utf8 lowerText) else .error ""
  fromSlice bytes := if bytes = utf8 lowerText then .ok lowerStored else .error "expected value"

/-- The event matches the query in capitals, and its index does not hold it under that. -/
theorem capitals_lose_event :
    query lowerLib (run lowerLib [lowerEvent]) (stageQuery "WF") = .ok [] ∧
      (run lowerLib [lowerEvent]).scan lowerLib (stageQuery "WF") = [lowerStored] ∧
      query lowerLib (run lowerLib [lowerEvent]) (stageQuery "WF") ≠
        .ok ((run lowerLib [lowerEvent]).scan lowerLib (stageQuery "WF")) := by
  have hquery : query lowerLib (run lowerLib [lowerEvent]) (stageQuery "WF") = .ok [] := by
    with_unfolding_all rfl
  have hscan : (run lowerLib [lowerEvent]).scan lowerLib (stageQuery "WF") = [lowerStored] := by
    with_unfolding_all rfl
  refine ⟨hquery, hscan, ?_⟩
  rw [hquery, hscan]
  nofun

end Runs

end EventStore

end Ubl.Eventstore
