import Ubl.Gate.Events

/-!
# `stream_events`: from the stored events to the live ones

The pipeline publishes events on a bus; a task of the gate takes them from there and appends them to
the store.  A client that streams is sent what a query of the store finds, and then what comes from
the bus.  The query comes first and the subscription second: what is published in between, or waits
for the task when the query comes, is in neither.

In a run without such gaps (`Hub.Seamless`) everything that passes the filters is on its way from
the query on (`Hub.Inv`), and the client's own steps bring it (`Hub.stream_delivers`).
-/

namespace Ubl.Gate

open Eventstore EventStore Utf8

/-! ## The hub -/

def CHANNEL_CAPACITY : Nat := 1024

/-- `broadcast::Sender::send`, for one receiver: one that is too far behind loses the oldest. -/
def send (rx : List ReceiptEvent) (event : ReceiptEvent) : List ReceiptEvent :=
  (rx ++ [event]).drop (rx.length + 1 - CHANNEL_CAPACITY)

/-- One call of `stream_events`. -/
inductive Client where
  | connecting
  /-- The stored events are there, the bus has not been subscribed to. -/
  | queried (historical : List Json)
  /-- What is still to be sent of the stored events, what has come from the bus, what was sent. -/
  | streaming (historical : List Json) (rx : List ReceiptEvent) (sent : List Json)
  | refused (e : EventStoreError)

structure Hub where
  published : List ReceiptEvent
  /-- What has come from the bus to the ingestion task. -/
  rx : List ReceiptEvent
  store : EventStore
  client : Client

inductive HubAct where
  | publish (event : ReceiptEvent)
  /-- The ingestion task takes an event and appends it to the store. -/
  | ingest
  | query
  | subscribe
  /-- A stored event is sent. -/
  | yieldStored
  /-- An event is received and sent if it passes the filters. -/
  | recv

namespace Hub

variable (lib : EventLib) (q : EventQuery)

def step (s : Hub) : HubAct → Option Hub
  | .publish event =>
    some { s with
      published := s.published ++ [event]
      rx := send s.rx event
      client := match s.client with
        | .streaming historical rx sent => .streaming historical (send rx event) sent
        | client => client }
  | .ingest =>
    match s.rx with
    | [] => none
    | event :: rx =>
      some { s with rx := rx, store := (appendEventJson lib (toHubEvent event) s.store).2 }
  | .query =>
    match s.client with
    | .connecting =>
      match EventStore.query lib s.store q with
      | .ok historical => some { s with client := .queried historical }
      | .error e => some { s with client := .refused e }
    | _ => none
  | .subscribe =>
    match s.client with
    | .queried historical => some { s with client := .streaming historical [] [] }
    | _ => none
  | .yieldStored =>
    match s.client with
    | .streaming (event :: historical) rx sent =>
      some { s with client := .streaming historical rx (sent ++ [event]) }
    | _ => none
  | .recv =>
    match s.client with
    | .streaming [] (event :: rx) sent =>
      let hub := toHubEvent event
      let sent := if hubMatchesQuery hub q then sent ++ [hub] else sent
      some { s with client := .streaming [] rx sent }
    | _ => none

/-- Before anything is published, with what was stored earlier. -/
def start (store : EventStore) : Hub := ⟨[], [], store, .connecting⟩

/-- The runs whose steps are all `ok`. -/
inductive Reaches (ok : Hub → HubAct → Prop) (store : EventStore) : Hub → Prop
  | start : Reaches ok store (start store)
  | step {s s' : Hub} {a : HubAct} (h : Reaches ok store s) (hok : ok s a)
      (hstep : s.step lib q a = some s') : Reaches ok store s'

end Hub

/-! ## Stored and sent -/

section Delivery

variable (lib : EventLib) (q : EventQuery)

/-- The event passes the filters, `since` among them. -/
def Matches (event : ReceiptEvent) : Prop :=
  hubMatchesQuery (toHubEvent event) q = true ∧
    ∀ ms start, lib.rfc3339Millis event.timestamp = .ok ms →
      parseSinceToMs lib q.since = some start → start ≤ ms

/-- The store holds the event. -/
def Stored (store : EventStore) (event : ReceiptEvent) : Prop :=
  ∃ ms raw e, lib.rfc3339Millis event.timestamp = .ok ms ∧
    store.events.get (utf8 (hubId event)) = some raw ∧ lib.fromSlice raw = .ok e ∧
    SameStrings (toHubEvent event) e

/-- An append stores the event: its time can be read, its id can be read off a key and is not that
of another event, and serde writes it and reads it back. -/
structure Storable (store : EventStore) (event : ReceiptEvent) : Prop where
  time : ∃ ms, lib.rfc3339Millis event.timestamp = .ok ms ∧ 0 ≤ ms
  id : '\x1f' ∉ (hubId event).toList
  written : ∃ bytes, lib.toVec (toHubEvent event) = .ok bytes
  kept : Kept lib (toHubEvent event)
  sole : ∀ raw, store.events.get (utf8 (hubId event)) = some raw →
    ∃ e, lib.fromSlice raw = .ok e ∧ SameStrings (toHubEvent event) e

/-- What a client has been sent, and what is on its way to it. -/
def Client.outgoing : Client → List Json
  | .queried historical => historical
  | .streaming historical rx sent =>
    sent ++ historical ++ (rx.map toHubEvent).filter (hubMatchesQuery · q)
  | _ => []

end Delivery

section Store

variable {lib : EventLib} {q : EventQuery} {store : EventStore} {event : ReceiptEvent}

theorem Stored.append (h : Stored lib store event) (e : Json) :
    Stored lib (appendEventJson lib e store).2 event := by
  obtain ⟨ms, raw, e', htime, hget, hread, hsame⟩ := h
  rcases appendEventJson_cases lib e store with heq | ⟨record, bytes, -, -, hnew, heq⟩
  · rw [heq]
    exact ⟨ms, raw, e', htime, hget, hread, hsame⟩
  · refine ⟨ms, raw, e', htime, ?_, hread, hsame⟩
    rw [heq, events_insertIndexes]
    refine (KeyTree.get_insert _ _ _ _).trans ?_
    rw [if_neg, hget]
    rintro hkey
    rw [← hkey, hget] at hnew
    cases hnew

theorem Storable.append (h : Storable lib store event) :
    Stored lib (appendEventJson lib (toHubEvent event) store).2 event := by
  obtain ⟨ms, htime, -⟩ := h.time
  obtain ⟨bytes, hbytes⟩ := h.written
  rw [appendEventJson, normalizeEvent_toHubEvent htime]
  dsimp only
  cases hget : store.events.get (utf8 (hubId event)) with
  | some raw =>
    obtain ⟨e, hread, hsame⟩ := h.sole raw hget
    rw [if_pos (by rw [KeyTree.contains, hget]; rfl)]
    exact ⟨ms, raw, e, htime, hget, hread, hsame⟩
  | none =>
    obtain ⟨e, hread, hsame⟩ := h.kept bytes hbytes
    rw [if_neg (by rw [KeyTree.contains, hget]; decide), hbytes]
    refine ⟨ms, bytes, e, htime, ?_, hread, hsame⟩
    rw [events_insertIndexes]
    exact (KeyTree.get_insert _ _ _ _).trans (if_pos rfl)

/-- What is stored under the id of an event that is stored. -/
theorem Stored.found (h : Stored lib store event) : ∃ r, store.found lib (hubId event) = some r ∧
    r.eventId = hubId event ∧ SameStrings (toHubEvent event) r.event ∧
      lib.rfc3339Millis event.timestamp = .ok r.whenMs := by
  obtain ⟨ms, raw, e, htime, hget, hread, hsame⟩ := h
  obtain ⟨record, hagain, hid, hms, -⟩ :=
    normalizeEvent_again (normalizeEvent_toHubEvent htime) hsame
  have hreread : reread lib raw = .ok record := by
    rw [reread, hread]
    exact hagain
  refine ⟨⟨hubId event, ms, e⟩, ?_, rfl, hsame, htime⟩
  rw [EventStore.found, hget]
  exact storedRecord_eq_some.mpr ⟨record, hreread, hread, hid.symm, hms.symm⟩

/-- A query finds the events that are stored and match. -/
theorem Stored.mem_query (h : Stored lib store event) (hmatch : Matches lib q event)
    (hinv : EventStore.Inv lib store) (hplain : StoredPlain lib store)
    (hq : chooseBestIndex q ≠ some (.decision, ""))
    (hlimit : (store.records lib).countP (fun r => matchesQuery r.event q) ≤ queryLimit q) :
    ∃ historical, EventStore.query lib store q = .ok historical ∧
      ∃ e ∈ historical, SameStrings (toHubEvent event) e := by
  obtain ⟨r, hfound, hid, hsame, htime⟩ := h.found
  have hrecord : r ∈ store.records lib := hinv.mem_records.mpr (hid ▸ hfound)
  refine ⟨_, hinv.query_eq hplain.records q, r.event, ?_, hsame⟩
  rw [List.take_of_length_le]
  · refine List.mem_map_of_mem (List.mem_filter.mpr ⟨mem_inTimeOrder.mpr hrecord, ?_⟩)
    rw [decide_eq_true_eq, matchesQuery_congr hsame, indexedFor_congr hsame]
    refine ⟨(notBefore_iff (hplain.records r hrecord)).mp ?_,
      matchesQuery_of_hubMatchesQuery hmatch.1, indexedFor_of_hubMatchesQuery hmatch.1 hq⟩
    rw [notBefore, Option.all_eq_true]
    exact fun start hstart => decide_eq_true (hmatch.2 _ start htime hstart)
  · rw [List.length_map, ← List.countP_eq_length_filter]
    have hperm : (store.inTimeOrder lib).Perm (store.records lib) := List.mergeSort_perm _ _
    rw [← hperm.countP_eq] at hlimit
    exact (List.countP_mono_left fun r _ h => (of_decide_eq_true h).2.1).trans hlimit

end Store

/-! ## The hand-over -/

namespace Hub

section Runs

variable (lib : EventLib) (q : EventQuery)

/-- The steps at which nothing is lost: no receiver is too far behind, what is taken before the
query can be stored and what matches has been taken when the query comes, no more than its limit,
and nothing that matches is published between the query and the subscription. -/
def Seamless (s : Hub) : HubAct → Prop
  | .publish event =>
    match s.client with
    | .connecting => s.rx.length < CHANNEL_CAPACITY
    | .queried _ => ¬ Matches lib q event
    | .streaming _ rx _ => rx.length < CHANNEL_CAPACITY
    | .refused _ => True
  | .ingest => s.client = .connecting → ∀ event ∈ s.rx.head?, Storable lib s.store event
  | .query => (∀ event ∈ s.rx, ¬ Matches lib q event) ∧
      (s.store.records lib).countP (fun r => matchesQuery r.event q) ≤ queryLimit q
  | _ => True

/-- Before the query what matches is in the store or waits for it; then it is on its way. -/
def Inv (s : Hub) : Prop :=
  match s.client with
  | .connecting => EventStore.Inv lib s.store ∧ StoredPlain lib s.store ∧
      ∀ event ∈ s.published, Matches lib q event → event ∈ s.rx ∨ Stored lib s.store event
  | .refused _ => False
  | client => ∀ event ∈ s.published, Matches lib q event →
      ∃ e ∈ client.outgoing q, SameStrings (toHubEvent event) e

variable {lib q} {s s' : Hub} {a : HubAct} {store : EventStore}

theorem send_of_lt {rx : List ReceiptEvent} (h : rx.length < CHANNEL_CAPACITY)
    (event : ReceiptEvent) : send rx event = rx ++ [event] := by
  rw [send, Nat.sub_eq_zero_of_le h, List.drop_zero]

theorem Inv.publish (h : Inv lib q s) {event : ReceiptEvent}
    (hok : Seamless lib q s (.publish event)) (hstep : s.step lib q (.publish event) = some s') :
    Inv lib q s' := by
  obtain ⟨published, rx, store, client⟩ := s
  obtain rfl := Option.some.inj hstep
  cases client with
  | connecting =>
    obtain ⟨hstore, hplain, hkept⟩ := h
    refine ⟨hstore, hplain, fun e he hmatch => ?_⟩
    rw [send_of_lt hok, List.mem_append, List.mem_singleton]
    rcases List.mem_append.mp he with he | he
    · exact (hkept e he hmatch).imp_left .inl
    · exact .inl (.inr (List.mem_singleton.mp he))
  | queried historical =>
    intro e he hmatch
    rcases List.mem_append.mp he with he | he
    · exact h e he hmatch
    · rw [List.mem_singleton.mp he] at hmatch
      exact absurd hmatch hok
  | streaming historical rx' sent =>
    intro e he hmatch
    rw [Client.outgoing, send_of_lt hok, List.map_append, List.filter_append, ← List.append_assoc]
    rcases List.mem_append.mp he with he | he
    · obtain ⟨v, hv, hsame⟩ := h e he hmatch
      exact ⟨v, List.mem_append_left _ hv, hsame⟩
    · obtain rfl := List.mem_singleton.mp he
      refine ⟨toHubEvent e, List.mem_append_right _ ?_, fun _ => rfl⟩
      exact List.mem_filter.mpr ⟨List.mem_singleton_self _, hmatch.1⟩
  | refused e => exact h

theorem Inv.ingest (h : Inv lib q s) (hok : Seamless lib q s .ingest)
    (hstep : s.step lib q .ingest = some s') : Inv lib q s' := by
  obtain ⟨published, rx, store, client⟩ := s
  cases rx with
  | nil => cases hstep
  | cons event rx =>
    obtain rfl := Option.some.inj hstep
    cases client with
    | connecting =>
      obtain ⟨hstore, hplain, hkept⟩ := h
      have hstorable : Storable lib store event := hok rfl event rfl
      obtain ⟨ms, htime, hms⟩ := hstorable.time
      have hnormal : ∀ record, normalizeEvent lib (toHubEvent event) = .ok record →
          Kept lib record.event ∧ Plain record := by
        intro record hrecord
        obtain rfl := Except.ok.inj ((normalizeEvent_toHubEvent htime).symm.trans hrecord)
        exact ⟨hstorable.kept, hstorable.id, hms⟩
      have hrecordKept := fun record hrecord => (hnormal record hrecord).1
      refine ⟨hstore.appendEventJson hrecordKept,
        hplain.appendEventJson hrecordKept fun record hrecord => (hnormal record hrecord).2,
        fun e he hmatch => ?_⟩
      rcases hkept e he hmatch with hrx | hstored
      · rcases List.mem_cons.mp hrx with rfl | hrx
        · exact .inr hstorable.append
        · exact .inl hrx
      · exact .inr (hstored.append _)
    | _ => exact h

theorem Inv.query (hq : chooseBestIndex q ≠ some (.decision, "")) (h : Inv lib q s)
    (hok : Seamless lib q s .query) (hstep : s.step lib q .query = some s') : Inv lib q s' := by
  obtain ⟨published, rx, store, client⟩ := s
  cases client with
  | connecting =>
    obtain ⟨hstore, hplain, hkept⟩ := h
    have hanswer := hstore.query_eq hplain.records q
    simp only [step, hanswer, Option.some.injEq] at hstep
    subst hstep
    intro e he hmatch
    have hstored : Stored lib store e :=
      (hkept e he hmatch).resolve_left fun hrx => hok.1 e hrx hmatch
    obtain ⟨historical, hhistorical, v, hv, hsame⟩ :=
      hstored.mem_query hmatch hstore hplain hq hok.2
    obtain rfl := Except.ok.inj (hanswer.symm.trans hhistorical)
    exact ⟨v, hv, hsame⟩
  | _ => cases hstep

theorem Inv.subscribe (h : Inv lib q s) (hstep : s.step lib q .subscribe = some s') :
    Inv lib q s' := by
  obtain ⟨published, rx, store, client⟩ := s
  cases client with
  | queried historical =>
    obtain rfl := Option.some.inj hstep
    intro e he hmatch
    simpa [Client.outgoing] using h e he hmatch
  | _ => cases hstep

theorem Inv.yieldStored (h : Inv lib q s) (hstep : s.step lib q .yieldStored = some s') :
    Inv lib q s' := by
  obtain ⟨published, rx, store, client⟩ := s
  cases client with
  | streaming historical rx' sent =>
    cases historical with
    | nil => cases hstep
    | cons first historical =>
      obtain rfl := Option.some.inj hstep
      intro e he hmatch
      rw [Client.outgoing, List.append_assoc sent, List.singleton_append]
      exact h e he hmatch
  | _ => cases hstep

theorem Inv.recv (h : Inv lib q s) (hstep : s.step lib q .recv = some s') : Inv lib q s' := by
  obtain ⟨published, rx, store, client⟩ := s
  cases client with
  | streaming historical rx' sent =>
    cases historical with
    | cons first historical => cases hstep
    | nil =>
      cases rx' with
      | nil => cases hstep
      | cons event rx' =>
        obtain rfl := Option.some.inj hstep
        intro e he hmatch
        have hgoing := h e he hmatch
        by_cases hpass : hubMatchesQuery (toHubEvent event) q = true
        · simpa [Client.outgoing, hpass] using hgoing
        · simpa [Client.outgoing, hpass] using hgoing
  | _ => cases hstep

theorem Inv.step (hq : chooseBestIndex q ≠ some (.decision, "")) (h : Inv lib q s)
    (hok : Seamless lib q s a) (hstep : s.step lib q a = some s') : Inv lib q s' := by
  cases a with
  | publish event => exact h.publish hok hstep
  | ingest => exact h.ingest hok hstep
  | query => exact h.query hq hok hstep
  | subscribe => exact h.subscribe hstep
  | yieldStored => exact h.yieldStored hstep
  | recv => exact h.recv hstep

theorem inv_of_reaches (hq : chooseBestIndex q ≠ some (.decision, ""))
    (hstore : EventStore.Inv lib store) (hplain : StoredPlain lib store)
    (h : Reaches lib q (Seamless lib q) store s) : Inv lib q s := by
  induction h with
  | start => exact ⟨hstore, hplain, fun e he => absurd he List.not_mem_nil⟩
  | step _ hok hstep ih => exact ih.step hq hok hstep

/-- The client sends what is stored and receives what has come. -/
theorem Reaches.drain {ok : Hub → HubAct → Prop} {published rx : List ReceiptEvent}
    {current : EventStore} (hyield : ∀ s, ok s .yieldStored) (hrecv : ∀ s, ok s .recv)
    {historical sent : List Json} {rx' : List ReceiptEvent}
    (h : Reaches lib q ok store ⟨published, rx, current, .streaming historical rx' sent⟩) :
    Reaches lib q ok store ⟨published, rx, current,
      .streaming [] [] (sent ++ historical ++ (rx'.map toHubEvent).filter (hubMatchesQuery · q))⟩ := by
  induction historical generalizing sent with
  | cons event historical ih =>
    have hnext := ih (h.step (hyield _) rfl)
    rwa [List.append_assoc sent, List.singleton_append] at hnext
  | nil =>
    induction rx' generalizing sent with
    | nil => simpa using h
    | cons event rx' ih =>
      have hnext := ih (h.step (hrecv _) rfl)
      by_cases hpass : hubMatchesQuery (toHubEvent event) q = true
      · simpa [hpass] using hnext
      · simpa [hpass] using hnext

/-- In a run without gaps, on whatever earlier appends have stored, a client that streams will have
been sent everything that was published and passes its filters: it takes but its own steps. -/
theorem stream_delivers {earlier : List Json}
    (hkept : ∀ event ∈ earlier, ∀ record, normalizeEvent lib event = .ok record →
      Kept lib record.event)
    (hplain : StoredPlain lib (run lib earlier)) (hq : chooseBestIndex q ≠ some (.decision, ""))
    (h : Reaches lib q (Seamless lib q) (run lib earlier) s) {historical sent : List Json}
    {rx : List ReceiptEvent} (hclient : s.client = .streaming historical rx sent) :
    ∃ all, Reaches lib q (Seamless lib q) (run lib earlier)
        { s with client := .streaming [] [] (sent ++ all) } ∧
      ∀ event ∈ s.published, Matches lib q event →
        ∃ e ∈ sent ++ all, SameStrings (toHubEvent event) e := by
  have hinv := inv_of_reaches hq (EventStore.inv_run hkept) hplain h
  obtain ⟨published, rx', current, client⟩ := s
  obtain rfl : client = .streaming historical rx sent := hclient
  refine ⟨historical ++ (rx.map toHubEvent).filter (hubMatchesQuery · q), ?_, ?_⟩
  · rw [← List.append_assoc]
    exact h.drain (fun _ => trivial) (fun _ => trivial)
  · rw [← List.append_assoc]
    exact hinv

/-- An event as the pipeline publishes it at the end. -/
def sampleReceiptEvent : ReceiptEvent where
  receiptCid := "b3:01"
  receiptType := "ubl/document"
  decision := some "allow"
  durationMs := none
  timestamp := "2026-02-18T12:00:00Z"
  pipelineStage := "wf"
  fuelUsed := none
  artifactCids := []
  metadata := .null
  inputCid := none
  outputCid := some "b3:01"
  binaryHash := none
  buildMeta := none
  world := some "a/acme"
  actor := none
  subjectDid := none
  knockCid := none
  latencyMs := none

def sampleHubText : String :=
  "\x7b\"@type\":\"ubl/event\",\"@ver\":\"1.0.0\",\"@id\":\"evt:b3:01:WF::b3:01\"," ++
    "\"@world\":\"a/acme\",\"source\":\"pipeline\",\"stage\":\"WF\"," ++
    "\"when\":\"2026-02-18T12:00:00Z\",\"chip\":\x7b\"type\":\"ubl/document\",\"id\":\"\"," ++
    "\"ver\":\"\"\x7d,\"receipt\":\x7b\"cid\":\"b3:01\",\"decision\":\"ALLOW\"\x7d," ++
    "\"perf\":\x7b\"latency_ms\":null,\"fuel\":null,\"mem_kb\":null\x7d,\"actor\":\x7b\"kid\":null\x7d," ++
    "\"artifacts\":[],\"runtime\":\x7b\"binary_hash\":null,\"build\":null\x7d,\"labels\":\x7b\x7d\x7d"

/-- chrono and serde for the one event. -/
def sampleHubLib : EventLib where
  rfc3339Millis s :=
    if s = "2026-02-18T12:00:00Z" then .ok 1771416000000 else .error "input contains invalid characters"
  blake3 _ := []
  toVec event := if strAt event ["@id"] = some "evt:b3:01:WF::b3:01" then .ok (utf8 sampleHubText)
    else .error ""
  fromSlice bytes := if bytes = utf8 sampleHubText then .ok (toHubEvent sampleReceiptEvent)
    else .error "expected value"

/-- A client without filters. -/
def everything : EventQuery := ⟨none, none, none, none, none, none, none, none⟩

theorem matches_sample : Matches sampleHubLib everything sampleReceiptEvent :=
  ⟨rfl, fun _ _ _ hsince => by cases hsince⟩

theorem toVec_sample :
    sampleHubLib.toVec (toHubEvent sampleReceiptEvent) = .ok (utf8 sampleHubText) := by
  simp only [sampleHubLib]
  exact if_pos (by decide +kernel)

theorem storable_sample : Storable sampleHubLib EventStore.empty sampleReceiptEvent where
  time := ⟨1771416000000, rfl, by decide⟩
  id := by decide +kernel
  written := ⟨_, toVec_sample⟩
  kept := by
    intro bytes hbytes
    obtain rfl := Except.ok.inj (toVec_sample.symm.trans hbytes)
    exact ⟨toHubEvent sampleReceiptEvent, by simp only [sampleHubLib, if_pos], fun _ => rfl⟩
  sole := nofun

/-- The store with the one event. -/
def sampleHubStore : EventStore :=
  (appendEventJson sampleHubLib (toHubEvent sampleReceiptEvent) EventStore.empty).2

theorem stream_delivers_sample : ∃ all,
    Reaches sampleHubLib everything (Seamless sampleHubLib everything) (run sampleHubLib [])
      ⟨[sampleReceiptEvent], [], sampleHubStore, .streaming [] [] ([] ++ all)⟩ ∧
      ∃ e ∈ [] ++ all, SameStrings (toHubEvent sampleReceiptEvent) e := by
  have hq : chooseBestIndex everything ≠ some (.decision, "") := nofun
  have hempty : StoredPlain sampleHubLib EventStore.empty := nofun
  have hpublished : Reaches sampleHubLib everything (Seamless sampleHubLib everything)
      (run sampleHubLib []) ⟨[sampleReceiptEvent], [sampleReceiptEvent], EventStore.empty, .connecting⟩ :=
    Reaches.start.step (a := .publish sampleReceiptEvent) (show 0 < CHANNEL_CAPACITY by decide) rfl
  have hingested : Reaches sampleHubLib everything (Seamless sampleHubLib everything)
      (run sampleHubLib []) ⟨[sampleReceiptEvent], [], sampleHubStore, .connecting⟩ :=
    hpublished.step (a := .ingest)
      (fun _ event hevent => Option.mem_some_iff.mp hevent ▸ storable_sample) rfl
  obtain ⟨hstore, hplain, -⟩ := inv_of_reaches hq EventStore.inv_empty hempty hingested
  obtain ⟨historical, hanswer⟩ :
      ∃ historical, EventStore.query sampleHubLib sampleHubStore everything = .ok historical :=
    ⟨_, hstore.query_eq hplain.records everything⟩
  have hcount : (sampleHubStore.records sampleHubLib).countP
      (fun r => matchesQuery r.event everything) ≤ queryLimit everything := by
    decide +kernel
  have hqueried : Reaches sampleHubLib everything (Seamless sampleHubLib everything)
      (run sampleHubLib []) ⟨[sampleReceiptEvent], [], sampleHubStore, .queried historical⟩ :=
    hingested.step (a := .query) ⟨fun _ h => absurd h List.not_mem_nil, hcount⟩
      (by simp only [step, hanswer])
  have hstreams := hqueried.step (a := .subscribe) trivial rfl
  obtain ⟨all, hreaches, hall⟩ :=
    stream_delivers (fun _ h => absurd h List.not_mem_nil) hempty hq hstreams rfl
  exact ⟨all, hreaches, hall _ (List.mem_singleton_self _) matches_sample⟩

/-- The event is published when the client has its answer from the store and has not subscribed. -/
theorem published_between_lost :
    Reaches sampleHubLib everything (fun _ _ => True) EventStore.empty
        ⟨[sampleReceiptEvent], [], sampleHubStore, .streaming [] [] []⟩ ∧
      Matches sampleHubLib everything sampleReceiptEvent ∧
      ¬ ∃ e ∈ ([] : List Json), SameStrings (toHubEvent sampleReceiptEvent) e := by
  have hqueried : Reaches sampleHubLib everything (fun _ _ => True) EventStore.empty
      ⟨[], [], EventStore.empty, .queried []⟩ :=
    Reaches.start.step (a := .query) trivial (by with_unfolding_all rfl)
  have hpublished := hqueried.step (a := .publish sampleReceiptEvent) trivial rfl
  have hstreams := hpublished.step (a := .subscribe) trivial rfl
  exact ⟨hstreams.step (a := .ingest) trivial rfl, matches_sample, by simp⟩

end Runs

end Hub

end Ubl.Gate
