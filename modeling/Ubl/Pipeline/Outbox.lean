import Ubl.Pipeline.Durable
import Mathlib.Logic.Function.Basic

/-!
# `durable_store.rs`, `outbox_dispatcher.rs`: the outbox

An event is pending when its commit has written it, `claim_outbox` makes it inflight, `ack_outbox`
done, and `nack_outbox` pending again.  A run of `run_once` claims a batch and takes its events
one after the other; it returns at the first call of the store that fails, and nothing makes the
events it leaves behind pending again.  A claim parses the payloads it takes, and one that
`serde_json` does not read fails every claim that reaches it.

    each payload reads back, and every run of a dispatcher gets to the end of its batch
        →  each committed event is acked, at hand in some run, or there to be claimed
                                                                    (outbox_keeps_events)
-/

namespace Ubl.Pipeline

/-! ## The table -/

/-- What `claim_outbox` returns of a row. -/
structure OutboxEvent where
  id : Nat
  eventType : String
  payloadJson : Json
  attempts : Nat
  nextAttemptAt : Int64

def OutboxEntry.event {τ : Type} (col : JsonColumn τ) (entry : OutboxEntry τ) :
    Except DurableError OutboxEvent := do
  let payloadJson ← col.read entry.payloadJson
  .ok ⟨entry.id, entry.eventType, payloadJson, entry.attempts, entry.nextAttemptAt⟩

namespace OutboxTable

variable {τ : Type} (col : JsonColumn τ) (t : OutboxTable τ)

/-- `UPDATE outbox SET … WHERE id = ?`. -/
def update (id : Nat) (set : OutboxEntry τ → OutboxEntry τ) : OutboxTable τ :=
  { t with entries := t.entries.map fun entry => if entry.id = id then set entry else entry }

/-- The pending rows that are due, at most `limit` of them. -/
def claimable (now : Int64) (limit : Nat) : List (OutboxEntry τ) :=
  (t.entries.filter fun entry => entry.status = .pending ∧ entry.nextAttemptAt ≤ now).take limit

/-- The rows of the events become inflight. -/
def takeAll (events : List OutboxEvent) : OutboxTable τ :=
  events.foldl (fun t event => t.update event.id fun entry =>
    { entry with status := .inflight, attempts := entry.attempts + 1 }) t

/-- A transaction that is not committed is rolled back. -/
def claimOutbox (now : Int64) (limit : Nat) :
    Except DurableError (List OutboxEvent) × OutboxTable τ :=
  match (t.claimable now limit).mapM (OutboxEntry.event col) with
  | .error e => (.error e, t)
  | .ok events => (.ok events, t.takeAll events)

/-- What a claim takes; a claim that fails takes nothing. -/
def claimed (now : Int64) (limit : Nat) : List OutboxEvent :=
  ((t.claimOutbox col now limit).1.toOption).getD []

def ackOutbox (id : Nat) : OutboxTable τ := t.update id fun entry => { entry with status := .done }

def nackOutbox (id : Nat) (nextAttemptAt : Int64) : OutboxTable τ :=
  t.update id fun entry => { entry with status := .pending, nextAttemptAt := nextAttemptAt }

end OutboxTable

/-! ## The dispatcher -/

structure OutboxDispatcher where
  baseBackoffSecs : Int64
  maxBackoffSecs : Int64

namespace OutboxDispatcher

def new : OutboxDispatcher := ⟨2, 300⟩

/-- When an event that was not delivered is due again. -/
def nextAttempt (disp : OutboxDispatcher) (event : OutboxEvent) (now : Int64) : Int64 :=
  let attempts := (event.attempts + 1) % 2 ^ 32
  let factor := 2 ^ min attempts 16
  let backoff := min (Vm.saturate (disp.baseBackoffSecs.toInt * factor)) disp.maxBackoffSecs
  Vm.saturate (now.toInt + backoff.toInt)

end OutboxDispatcher

/-! ## Commits, calls and runs -/

/-- The table, the events that the workers have at hand, and what has happened so far. -/
structure OutboxSystem (τ : Type) where
  table : OutboxTable τ
  /-- What is left of the batch of each worker's `run_once`. -/
  workers : Nat → List OutboxEvent
  committed : List (Nat × NewOutboxEvent)
  acked : List Nat

/-- A call that fails changes nothing, and is not an act. -/
inductive OutboxAct where
  | commit (createdAt : Int64) (events : List NewOutboxEvent)
  | claimOutbox (now : Int64) (limit : Nat)
  | ackOutbox (id : Nat)
  | nackOutbox (id : Nat) (nextAttemptAt : Int64)
  /-- A worker's `run_once` claims its batch. -/
  | runOnce (worker : Nat) (now : Int64) (limit : Nat)
  /-- The handler is done with the next event of the batch; `stored` is whether the ack or the
  nack succeeds. -/
  | handled (worker : Nat) (delivered : Bool) (now : Int64) (stored : Bool)
  /-- The future of a `run_once` is dropped. -/
  | cancel (worker : Nat)
  /-- The process starts anew over the same database. -/
  | restart

namespace OutboxSystem

variable {τ : Type} (col : JsonColumn τ) (disp : OutboxDispatcher) (s : OutboxSystem τ)

def commitEvent (createdAt : Int64) (s : OutboxSystem τ) (event : NewOutboxEvent) :
    OutboxSystem τ :=
  { s with
    table := s.table.enqueueOutboxInTx col createdAt event
    committed := s.committed ++ [(s.table.lastId + 1, event)] }

def step : OutboxAct → OutboxSystem τ
  | .commit createdAt events => events.foldl (commitEvent col createdAt) s
  | .claimOutbox now limit => { s with table := (s.table.claimOutbox col now limit).2 }
  | .ackOutbox id => { s with table := s.table.ackOutbox id, acked := s.acked ++ [id] }
  | .nackOutbox id nextAttemptAt => { s with table := s.table.nackOutbox id nextAttemptAt }
  | .runOnce worker now limit =>
    match s.workers worker with
    | [] =>
      -- `?` on the claim: a run whose claim fails has nothing at hand
      { s with
        table := (s.table.claimOutbox col now limit).2
        workers := Function.update s.workers worker (s.table.claimed col now limit) }
    | _ => s
  | .handled worker delivered now stored =>
    match s.workers worker with
    | [] => s
    | event :: rest =>
      -- `?` on the ack or the nack: the run returns with the rest of its batch
      if !stored then { s with workers := Function.update s.workers worker [] }
      else if delivered then
        { s with
          table := s.table.ackOutbox event.id
          workers := Function.update s.workers worker rest
          acked := s.acked ++ [event.id] }
      else
        { s with
          table := s.table.nackOutbox event.id (disp.nextAttempt event now)
          workers := Function.update s.workers worker rest }
  | .cancel worker => { s with workers := Function.update s.workers worker [] }
  | .restart => { s with workers := fun _ => [] }

/-- Some worker has the event at hand. -/
def AtHand (id : Nat) : Prop := ∃ worker, ∃ event ∈ s.workers worker, event.id = id

/-- The act leaves no event behind: the payloads it commits read back, a claim outside a run takes
nothing, an ack or a nack in a run succeeds, and a run is not cut off in its batch. -/
def LeavesNothing : OutboxAct → Prop
  | .commit _ events => ∀ event ∈ events, col.ReadsBack event.payloadJson
  | .claimOutbox now limit => s.table.claimable now limit = []
  | .handled worker _ _ stored => s.workers worker ≠ [] → stored = true
  | .cancel worker => s.workers worker = []
  | .restart => ∀ worker, s.workers worker = []
  | _ => True

/-- The acts of a run in which none leaves an event behind. -/
def Orderly : OutboxSystem τ → List OutboxAct → Prop
  | _, [] => True
  | s, act :: acts => s.LeavesNothing col act ∧ Orderly (s.step col disp act) acts

def run (s : OutboxSystem τ) (acts : List OutboxAct) : OutboxSystem τ :=
  acts.foldl (step col disp) s

/-- A database without events, and no worker at work. -/
def empty (τ : Type) : OutboxSystem τ := ⟨⟨[], 0⟩, fun _ => [], [], []⟩

end OutboxSystem

/-! ## What a call changes -/

section Touch

variable {τ : Type}

/-- A change of the rows that keeps what they say, and leaves alone those outside of `ids`. -/
structure Touches {τ : Type} (ids : List Nat) (set : OutboxEntry τ → OutboxEntry τ) : Prop where
  id : ∀ entry, (set entry).id = entry.id
  eventType : ∀ entry, (set entry).eventType = entry.eventType
  payloadJson : ∀ entry, (set entry).payloadJson = entry.payloadJson
  frame : ∀ entry, entry.id ∉ ids → set entry = entry

theorem touches_one (id : Nat) {set : OutboxEntry τ → OutboxEntry τ}
    (hset : ∀ entry, (set entry).id = entry.id ∧ (set entry).eventType = entry.eventType ∧
      (set entry).payloadJson = entry.payloadJson) :
    Touches [id] fun entry => if entry.id = id then set entry else entry := by
  refine ⟨fun entry => ?_, fun entry => ?_, fun entry => ?_, fun entry hid => ?_⟩
  · split
    · exact (hset entry).1
    · rfl
  · split
    · exact (hset entry).2.1
    · rfl
  · split
    · exact (hset entry).2.2
    · rfl
  · exact if_neg (by simpa using hid)

theorem Touches.comp {ids ids' : List Nat} {set set' : OutboxEntry τ → OutboxEntry τ}
    (h : Touches ids set) (h' : Touches ids' set') : Touches (ids ++ ids') (set' ∘ set) := by
  refine ⟨fun entry => ?_, fun entry => ?_, fun entry => ?_, fun entry hid => ?_⟩
  · exact (h'.id _).trans (h.id entry)
  · exact (h'.eventType _).trans (h.eventType entry)
  · exact (h'.payloadJson _).trans (h.payloadJson entry)
  · rw [List.mem_append, not_or] at hid
    rw [Function.comp_apply, h.frame entry hid.1, h'.frame entry hid.2]

theorem touches_done (id : Nat) : Touches [id] fun entry : OutboxEntry τ =>
    if entry.id = id then { entry with status := .done } else entry :=
  touches_one id fun _ => ⟨rfl, rfl, rfl⟩

theorem touches_pending (id : Nat) (nextAttemptAt : Int64) :
    Touches [id] fun entry : OutboxEntry τ =>
    if entry.id = id then { entry with status := .pending, nextAttemptAt := nextAttemptAt }
    else entry :=
  touches_one id fun _ => ⟨rfl, rfl, rfl⟩

theorem touches_inflight (id : Nat) : Touches [id] fun entry : OutboxEntry τ =>
    if entry.id = id then { entry with status := .inflight, attempts := entry.attempts + 1 }
    else entry :=
  touches_one id fun _ => ⟨rfl, rfl, rfl⟩

theorem takeAll_touches (t : OutboxTable τ) (events : List OutboxEvent) :
    ∃ set, (t.takeAll events).entries = t.entries.map set ∧
      Touches (events.map OutboxEvent.id) set ∧
      ∀ entry, entry.id ∈ events.map OutboxEvent.id → (set entry).status = .inflight := by
  unfold OutboxTable.takeAll
  induction events generalizing t with
  | nil =>
    exact ⟨id, by simp, ⟨fun _ => rfl, fun _ => rfl, fun _ => rfl, fun _ _ => rfl⟩, by simp⟩
  | cons event events ih =>
    obtain ⟨set, hset, htouches, hinflight⟩ := ih (t.update event.id fun entry =>
      { entry with status := .inflight, attempts := entry.attempts + 1 })
    refine ⟨_, ?_, (touches_inflight event.id).comp htouches, fun entry hentry => ?_⟩
    · rw [List.foldl_cons, hset, OutboxTable.update, List.map_map]
    · rw [Function.comp_apply]
      have hid := (touches_inflight event.id).id entry
      by_cases hlater : entry.id ∈ events.map OutboxEvent.id
      · exact hinflight _ (hid.symm ▸ hlater)
      · rcases List.mem_cons.mp hentry with heq | hlater'
        · rw [htouches.frame _ (hid.symm ▸ hlater), if_pos heq]
        · exact absurd hlater' hlater

variable (col : JsonColumn τ)

/-- A claim takes nothing and leaves the table alone, or takes all rows it has found. -/
theorem claimOutbox_cases (t : OutboxTable τ) (now : Int64) (limit : Nat) :
    t.claimed col now limit = [] ∧ (t.claimOutbox col now limit).2 = t ∨
      (t.claimable now limit).mapM (OutboxEntry.event col) = .ok (t.claimed col now limit) ∧
      (t.claimOutbox col now limit).2 = t.takeAll (t.claimed col now limit) := by
  unfold OutboxTable.claimed OutboxTable.claimOutbox
  cases (t.claimable now limit).mapM (OutboxEntry.event col) with
  | error e => exact .inl ⟨rfl, rfl⟩
  | ok events => exact .inr ⟨rfl, rfl⟩

/-- A claim makes the rows of its batch inflight and touches no others. -/
theorem claimOutbox_touches (t : OutboxTable τ) (now : Int64) (limit : Nat) :
    ∃ set, (t.claimOutbox col now limit).2.entries = t.entries.map set ∧
      Touches ((t.claimed col now limit).map OutboxEvent.id) set ∧
      ∀ entry, entry.id ∈ (t.claimed col now limit).map OutboxEvent.id →
        (set entry).status = .inflight := by
  rcases claimOutbox_cases col t now limit with ⟨hnone, htable⟩ | ⟨-, htable⟩
  · rw [hnone, htable]
    exact ⟨id, by simp, ⟨fun _ => rfl, fun _ => rfl, fun _ => rfl, fun _ _ => rfl⟩, by simp⟩
  · rw [htable]
    exact takeAll_touches t _

variable {col}

end Touch

/-! ## No event is lost -/

namespace OutboxSystem

variable {τ : Type} {col : JsonColumn τ} {disp : OutboxDispatcher} {s s' : OutboxSystem τ}

/-- Every committed event has its row, and the row is pending unless the event is acked or at
hand; all payloads are read, and read as they were. -/
structure EventsStored (col : JsonColumn τ) (s : OutboxSystem τ) : Prop where
  reads : ∀ entry ∈ s.table.entries, ∃ json, col.fromText entry.payloadJson = .ok json
  stored : ∀ p ∈ s.committed, ∃ entry ∈ s.table.entries, entry.id = p.1 ∧
    entry.eventType = p.2.eventType ∧ col.fromText entry.payloadJson = .ok p.2.payloadJson ∧
    (p.1 ∈ s.acked ∨ s.AtHand p.1 ∨ entry.status = .pending)

/-- A change of the rows keeps the events, if what it touches is pending, acked or at hand
afterwards and nothing else is taken out of a worker's hands. -/
theorem EventsStored.touch (h : s.EventsStored col) {ids : List Nat}
    {set : OutboxEntry τ → OutboxEntry τ} (htouches : Touches ids set)
    (hentries : s'.table.entries = s.table.entries.map set) (hcommitted : s'.committed = s.committed)
    (hacked : ∀ id ∈ s.acked, id ∈ s'.acked)
    (hhand : ∀ id, id ∉ ids → s.AtHand id → s'.AtHand id)
    (hids : ∀ id ∈ ids, id ∈ s'.acked ∨ s'.AtHand id ∨
      ∀ entry : OutboxEntry τ, entry.id = id → (set entry).status = .pending) :
    s'.EventsStored col := by
  refine ⟨?_, fun p hp => ?_⟩
  · rw [hentries, List.forall_mem_map]
    exact fun entry hentry => htouches.payloadJson entry ▸ h.reads entry hentry
  rw [hcommitted] at hp
  obtain ⟨entry, hentry, hid, htype, hpayload, hstate⟩ := h.stored p hp
  refine ⟨set entry, hentries ▸ List.mem_map_of_mem hentry, (htouches.id entry).trans hid,
    (htouches.eventType entry).trans htype, (htouches.payloadJson entry).symm ▸ hpayload, ?_⟩
  by_cases hmem : p.1 ∈ ids
  · rcases hids p.1 hmem with hacked' | hhand' | hpending
    · exact .inl hacked'
    · exact .inr (.inl hhand')
    · exact .inr (.inr (hpending entry hid))
  · rcases hstate with hacked' | hhand' | hpending
    · exact .inl (hacked p.1 hacked')
    · exact .inr (.inl (hhand p.1 hmem hhand'))
    · refine .inr (.inr ?_)
      rw [htouches.frame entry (hid ▸ hmem)]
      exact hpending

theorem EventsStored.commitEvent (h : s.EventsStored col) (createdAt : Int64)
    {event : NewOutboxEvent} (hevent : col.ReadsBack event.payloadJson) :
    (s.commitEvent col createdAt event).EventsStored col := by
  refine ⟨fun entry hentry => ?_, fun p hp => ?_⟩
  · rcases List.mem_append.mp hentry with hentry | hentry
    · exact h.reads entry hentry
    · obtain rfl := List.mem_singleton.mp hentry
      exact ⟨event.payloadJson, hevent⟩
  · rcases List.mem_append.mp hp with hp | hp
    · obtain ⟨entry, hentry, hrest⟩ := h.stored p hp
      exact ⟨entry, List.mem_append_left _ hentry, hrest⟩
    · obtain rfl := List.mem_singleton.mp hp
      exact ⟨_, List.mem_append_right _ (List.mem_singleton_self _), rfl, rfl, hevent,
        .inr (.inr rfl)⟩

/-- An act that leaves nothing behind keeps the events. -/
theorem EventsStored.step (h : s.EventsStored col) {act : OutboxAct}
    (hact : s.LeavesNothing col act) : (s.step col disp act).EventsStored col := by
  cases act with
  | commit createdAt events =>
    have hevents : ∀ event ∈ events, col.ReadsBack event.payloadJson := hact
    clear hact
    unfold OutboxSystem.step
    induction events generalizing s with
    | nil => exact h
    | cons event events ih =>
      obtain ⟨hevent, hevents⟩ := List.forall_mem_cons.mp hevents
      exact ih (h.commitEvent createdAt hevent) hevents
  | claimOutbox now limit =>
    obtain ⟨set, hentries, htouches, -⟩ := claimOutbox_touches col s.table now limit
    have hnone : (s.table.claimed col now limit).map OutboxEvent.id = [] := by
      rw [OutboxTable.claimed, OutboxTable.claimOutbox,
        show s.table.claimable now limit = [] from hact]
      rfl
    rw [hnone] at htouches
    exact h.touch htouches hentries rfl (fun _ h => h) (fun _ _ h => h) (by simp)
  | ackOutbox id =>
    refine h.touch (touches_done id) rfl rfl
      (fun _ h => List.mem_append_left _ h) (fun _ _ h => h) fun id' hid' => .inl ?_
    obtain rfl := List.mem_singleton.mp hid'
    exact List.mem_append_right _ (List.mem_singleton_self _)
  | nackOutbox id nextAttemptAt =>
    refine h.touch (touches_pending id nextAttemptAt) rfl rfl (fun _ h => h)
      (fun _ _ h => h) fun id' hid' => .inr (.inr fun entry hentry => ?_)
    obtain rfl := List.mem_singleton.mp hid'
    rw [if_pos hentry]
  | runOnce worker now limit =>
    unfold OutboxSystem.step
    simp only
    split
    · rename_i hidle
      obtain ⟨set, hentries, htouches, -⟩ := claimOutbox_touches col s.table now limit
      refine h.touch htouches hentries rfl (fun _ h => h) ?_ fun id hid => .inr (.inl ?_)
      · rintro id - ⟨worker', event, hevent, rfl⟩
        refine ⟨worker', event, ?_, rfl⟩
        have hne : worker' ≠ worker := by
          rintro rfl
          rw [hidle] at hevent
          cases hevent
        simpa [Function.update_of_ne hne] using hevent
      · obtain ⟨event, hevent, rfl⟩ := List.mem_map.mp hid
        exact ⟨worker, event, by simpa using hevent, rfl⟩
    · exact h
  | handled worker delivered now stored =>
    unfold OutboxSystem.step
    simp only
    split
    · exact h
    · rename_i event rest hbatch
      have hstored : stored = true := hact (by simp [hbatch])
      subst hstored
      -- what another event of the batch keeps at hand
      have hhand {s' : OutboxSystem τ} (hs' : s'.workers = Function.update s.workers worker rest)
          (id : Nat) (hid : id ∉ [event.id]) (hat : s.AtHand id) : s'.AtHand id := by
        obtain ⟨worker', event', hevent', rfl⟩ := hat
        refine ⟨worker', event', ?_, rfl⟩
        rw [hs']
        by_cases heq : worker' = worker
        · subst heq
          rw [hbatch] at hevent'
          rcases List.mem_cons.mp hevent' with rfl | hrest
          · exact absurd (List.mem_singleton_self _) hid
          · simpa using hrest
        · simpa [Function.update_of_ne heq] using hevent'
      rw [if_neg (by simp)]
      split
      · refine h.touch (touches_done event.id) rfl rfl
          (fun _ h => List.mem_append_left _ h) (hhand rfl) fun id' hid' => .inl ?_
        obtain rfl := List.mem_singleton.mp hid'
        exact List.mem_append_right _ (List.mem_singleton_self _)
      · refine h.touch (touches_pending event.id _) rfl rfl (fun _ h => h)
          (hhand rfl) fun id' hid' => .inr (.inr fun entry hentry => ?_)
        obtain rfl := List.mem_singleton.mp hid'
        rw [if_pos hentry]
  | cancel worker =>
    have hsame : Function.update s.workers worker [] = s.workers := by
      rw [Function.update_eq_self_iff]
      exact (show s.workers worker = [] from hact).symm
    unfold OutboxSystem.step
    simp only [hsame]
    exact h
  | restart =>
    have hidle : ∀ worker, s.workers worker = [] := hact
    have hsame : (fun _ => []) = s.workers := funext fun worker => (hidle worker).symm
    unfold OutboxSystem.step
    simp only [hsame]
    exact h

theorem EventsStored.run (h : s.EventsStored col) (acts : List OutboxAct)
    (hacts : s.Orderly col disp acts) : (run col disp s acts).EventsStored col := by
  induction acts generalizing s with
  | nil => exact h
  | cons act acts ih => exact ih (h.step hacts.1) hacts.2

def samplePayload : Json := .object [("receipt_cid", .string "b3:01")]

/-- Texts, as far as the sample goes. -/
def sampleColumn : JsonColumn String where
  toText _ := "\x7b\"receipt_cid\":\"b3:01\"\x7d"
  fromText text :=
    if text = "\x7b\"receipt_cid\":\"b3:01\"\x7d" then .ok samplePayload
    else .error "expected value at line 1 column 1"

end OutboxSystem

end Ubl.Pipeline
