import Ubl.Pipeline.Outbox

/-!
# `durable_store.rs`, `outbox_dispatcher.rs`: who has an event of the outbox

Dispatchers share the table.  Each call is one transaction: a claim takes pending rows, and the
dispatcher that made it acks each event of it, or gives it back, at most once.  The ack and the nack
look at the id only; that the row is still the caller's is an invariant of such runs (`Inv`): the
rows of a claim are inflight, acked rows are done, and pending rows are neither.

    after every run no event is in two claims, and no claim returns an acked one
                                                              (outbox_claims_exclusive)

`run_once` calls the store in this way (`exists_follows`), so two workers never have one event.
-/

namespace Ubl.Pipeline

/-! ## Claims -/

/-- What is left of a claim: the events that its dispatcher has neither acked nor given back. -/
structure OutboxClaim where
  dispatcher : Nat
  events : List OutboxEvent

/-- The table, the claims in the order in which they were made, and the acks. -/
structure OutboxClaims (τ : Type) where
  table : OutboxTable τ
  claims : List OutboxClaim
  acked : List Nat

/-- A transaction.  An ack or a nack is for an event of a claim. -/
inductive ClaimAct where
  | commit (createdAt : Int64) (events : List NewOutboxEvent)
  | claimOutbox (dispatcher : Nat) (now : Int64) (limit : Nat)
  | ackOutbox (claim id : Nat)
  | nackOutbox (claim id : Nat) (nextAttemptAt : Int64)

namespace OutboxClaims

variable {τ : Type} (col : JsonColumn τ) (s : OutboxClaims τ)

/-- The ids of the events that a claim holds. -/
def held (claim : Nat) : List Nat :=
  match s.claims[claim]? with
  | some c => c.events.map OutboxEvent.id
  | none => []

/-- The claims after an ack or a nack: it was the only one for the event. -/
def release (claim id : Nat) : List OutboxClaim :=
  s.claims.modify claim fun c => { c with events := c.events.eraseP (·.id == id) }

/-- A claim that fails takes nothing. -/
def step : ClaimAct → OutboxClaims τ
  | .commit createdAt events =>
    { s with table := events.foldl (OutboxTable.enqueueOutboxInTx col createdAt) s.table }
  | .claimOutbox dispatcher now limit =>
    { s with
      table := (s.table.claimOutbox col now limit).2
      claims := s.claims ++ [⟨dispatcher, s.table.claimed col now limit⟩] }
  | .ackOutbox claim id =>
    if id ∈ s.held claim then
      ⟨s.table.ackOutbox id, s.release claim id, s.acked ++ [id]⟩
    else s
  | .nackOutbox claim id nextAttemptAt =>
    if id ∈ s.held claim then
      ⟨s.table.nackOutbox id nextAttemptAt, s.release claim id, s.acked⟩
    else s

def run (acts : List ClaimAct) : OutboxClaims τ := acts.foldl (step col) s

/-- A database without events. -/
def empty (τ : Type) : OutboxClaims τ := ⟨⟨[], 0⟩, [], []⟩

end OutboxClaims

/-! ## Rows -/

namespace OutboxTable

variable {τ : Type} {col : JsonColumn τ} {t t' : OutboxTable τ} {id : Nat} {status : OutboxStatus}

def IsAt (t : OutboxTable τ) (id : Nat) (status : OutboxStatus) : Prop :=
  ∃ entry ∈ t.entries, entry.id = id ∧ entry.status = status

/-- The ids are a key, and those to come are new. -/
structure Keyed (t : OutboxTable τ) : Prop where
  nodup : (t.entries.map OutboxEntry.id).Nodup
  le_lastId : ∀ entry ∈ t.entries, entry.id ≤ t.lastId

theorem IsAt.unique (ht : t.Keyed) {status' : OutboxStatus} (h : t.IsAt id status)
    (h' : t.IsAt id status') : status = status' := by
  obtain ⟨entry, hentry, hid, hstatus⟩ := h
  obtain ⟨entry', hentry', hid', hstatus'⟩ := h'
  obtain rfl := List.inj_on_of_nodup_map ht.nodup hentry hentry' (hid.trans hid'.symm)
  exact hstatus.symm.trans hstatus'

theorem mapM_event_eq_ok {entries : List (OutboxEntry τ)} {events : List OutboxEvent}
    (h : entries.mapM (OutboxEntry.event col) = .ok events) :
    events.map OutboxEvent.id = entries.map OutboxEntry.id := by
  induction entries generalizing events with
  | nil =>
    obtain rfl := Except.ok.inj h
    rfl
  | cons entry entries ih =>
    rw [List.mapM_cons] at h
    obtain ⟨event, hevent, h⟩ := ExceptLemmas.bind_eq_ok.mp h
    obtain ⟨rest, hrest, h⟩ := ExceptLemmas.bind_eq_ok.mp h
    obtain rfl := Except.ok.inj h
    obtain ⟨json, -, hjson⟩ := ExceptLemmas.bind_eq_ok.mp hevent
    obtain rfl := Except.ok.inj hjson
    rw [List.map_cons, List.map_cons, ih hrest]

/-- The ids of a claim are those of rows that it found. -/
theorem claimed_sublist (t : OutboxTable τ) (now : Int64) (limit : Nat) :
    ((t.claimed col now limit).map OutboxEvent.id).Sublist
      ((t.claimable now limit).map OutboxEntry.id) := by
  rcases claimOutbox_cases col t now limit with ⟨hnone, -⟩ | ⟨hall, -⟩
  · rw [hnone]
    exact List.nil_sublist _
  · rw [mapM_event_eq_ok hall]

theorem isAt_of_mem_claimable {now : Int64} {limit : Nat} {id : Nat}
    (h : id ∈ (t.claimed col now limit).map OutboxEvent.id) : t.IsAt id .pending := by
  obtain ⟨entry, hentry, rfl⟩ := List.mem_map.mp ((claimed_sublist t now limit).subset h)
  obtain ⟨hmem, hpending⟩ := List.mem_filter.mp (List.mem_of_mem_take hentry)
  exact ⟨entry, hmem, rfl, (of_decide_eq_true hpending).1⟩

theorem nodup_claimOutbox (ht : t.Keyed) (now : Int64) (limit : Nat) :
    ((t.claimed col now limit).map OutboxEvent.id).Nodup := by
  have hsublist : (t.claimable now limit).Sublist t.entries :=
    (List.take_sublist _ _).trans List.filter_sublist
  exact ht.nodup.sublist ((claimed_sublist t now limit).trans (hsublist.map OutboxEntry.id))

section Touch

variable {ids : List Nat} {set : OutboxEntry τ → OutboxEntry τ}

theorem Keyed.touch (ht : t.Keyed) (htouches : Touches ids set)
    (hentries : t'.entries = t.entries.map set) (hlast : t'.lastId = t.lastId) : t'.Keyed := by
  refine ⟨?_, ?_⟩
  · have hids : t'.entries.map OutboxEntry.id = t.entries.map OutboxEntry.id := by
      rw [hentries, List.map_map]
      exact List.map_congr_left fun entry _ => htouches.id entry
    rw [hids]
    exact ht.nodup
  · rw [hentries, List.forall_mem_map, hlast]
    exact fun entry hentry => (htouches.id entry).trans_le (ht.le_lastId entry hentry)

theorem IsAt.touch (h : t.IsAt id status) (htouches : Touches ids set)
    (hentries : t'.entries = t.entries.map set) (hid : id ∉ ids) : t'.IsAt id status := by
  obtain ⟨entry, hentry, rfl, hstatus⟩ := h
  refine ⟨entry, hentries ▸ List.mem_map.mpr ⟨entry, hentry, ?_⟩, rfl, hstatus⟩
  exact htouches.frame entry hid

theorem IsAt.touched (h : t.IsAt id status) (htouches : Touches ids set)
    (hentries : t'.entries = t.entries.map set) {status' : OutboxStatus}
    (hset : ∀ entry : OutboxEntry τ, entry.id = id → (set entry).status = status') :
    t'.IsAt id status' := by
  obtain ⟨entry, hentry, rfl, -⟩ := h
  exact ⟨set entry, hentries ▸ List.mem_map_of_mem hentry, htouches.id entry, hset entry rfl⟩

end Touch

theorem Keyed.enqueueOutboxInTx (ht : t.Keyed) (createdAt : Int64) (event : NewOutboxEvent) :
    (t.enqueueOutboxInTx col createdAt event).Keyed := by
  refine ⟨?_, ?_⟩
  · rw [OutboxTable.enqueueOutboxInTx, List.map_append, List.nodup_append]
    refine ⟨ht.nodup, by simp, ?_⟩
    rw [List.forall_mem_map]
    intro entry hentry id hid
    obtain rfl := List.mem_singleton.mp hid
    exact (Nat.lt_succ_of_le (ht.le_lastId entry hentry)).ne
  · intro entry hentry
    rcases List.mem_append.mp hentry with hold | hnew
    · exact (ht.le_lastId entry hold).trans (Nat.le_succ _)
    · obtain rfl := List.mem_singleton.mp hnew
      exact Nat.le_refl _

theorem IsAt.enqueueOutboxInTx (h : t.IsAt id status) (createdAt : Int64)
    (event : NewOutboxEvent) : (t.enqueueOutboxInTx col createdAt event).IsAt id status := by
  obtain ⟨entry, hentry, hentry'⟩ := h
  exact ⟨entry, List.mem_append_left _ hentry, hentry'⟩

theorem claimOutbox_lastId (now : Int64) (limit : Nat) :
    (t.claimOutbox col now limit).2.lastId = t.lastId := by
  rcases claimOutbox_cases col t now limit with ⟨-, htable⟩ | ⟨-, htable⟩
  · rw [htable]
  · rw [htable, takeAll]
    generalize t.claimed col now limit = events
    clear htable
    induction events generalizing t with
    | nil => rfl
    | cons event events ih => exact ih

end OutboxTable

/-! ## What the claims hold -/

namespace OutboxClaims

/-- The rows of the claims are inflight and each is in one of them, the acked rows are done. -/
structure Inv (s : OutboxClaims τ) : Prop where
  keyed : s.table.Keyed
  distinct : ∀ claim, (s.held claim).Nodup
  exclusive : ∀ claim claim' id, id ∈ s.held claim → id ∈ s.held claim' → claim = claim'
  inflight : ∀ claim, ∀ id ∈ s.held claim, s.table.IsAt id .inflight
  done : ∀ id ∈ s.acked, s.table.IsAt id .done

variable {τ : Type} {col : JsonColumn τ} {s : OutboxClaims τ}

theorem mem_held_claim {dispatcher limit claim id : Nat} {now : Int64}
    (h : id ∈ (s.step col (.claimOutbox dispatcher now limit)).held claim) :
    id ∈ s.held claim ∨
      claim = s.claims.length ∧ id ∈ (s.table.claimed col now limit).map OutboxEvent.id := by
  unfold held step at h
  simp only at h
  rcases Nat.lt_trichotomy claim s.claims.length with hlt | rfl | hgt
  · rw [List.getElem?_append_left hlt] at h
    exact .inl h
  · rw [List.getElem?_concat_length] at h
    exact .inr ⟨rfl, h⟩
  · rw [List.getElem?_eq_none (by simpa using hgt)] at h
    cases h

theorem held_release {table : OutboxTable τ} {acked : List Nat} (claim id claim' : Nat) :
    held ⟨table, s.release claim id, acked⟩ claim' =
      if claim' = claim then (s.held claim').erase id else s.held claim' := by
  unfold held release
  rw [List.getElem?_modify]
  cases hclaim : s.claims[claim']? with
  | none => simp
  | some c =>
    by_cases heq : claim' = claim
    · subst heq
      simp [List.erase_eq_eraseP', List.eraseP_map, Function.comp_def]
    · simp [heq, Ne.symm heq]

namespace Inv

/-- What is held after a release was held before it, and is another event. -/
theorem mem_held_release (h : s.Inv) {claim id claim' id' : Nat} {table : OutboxTable τ}
    {acked : List Nat} (hid : id ∈ s.held claim)
    (hid' : id' ∈ held ⟨table, s.release claim id, acked⟩ claim') :
    id' ∈ s.held claim' ∧ id' ≠ id := by
  rw [held_release] at hid'
  split_ifs at hid' with heq
  · subst heq
    have hmem := (h.distinct claim').mem_erase_iff.mp hid'
    exact ⟨hmem.2, hmem.1⟩
  · refine ⟨hid', ?_⟩
    rintro rfl
    exact heq (h.exclusive claim' claim id' hid' hid)

/-- A call that gives up one event of a claim, and sets its row. -/
theorem release (h : s.Inv) {claim id : Nat} (hid : id ∈ s.held claim) (table : OutboxTable τ)
    {set : OutboxEntry τ → OutboxEntry τ} (htouches : Touches [id] set)
    (hentries : table.entries = s.table.entries.map set) (hlast : table.lastId = s.table.lastId)
    {acked : List Nat} (hacked : ∀ id' ∈ acked, id' ∈ s.acked ∨ table.IsAt id' .done) :
    Inv ⟨table, s.release claim id, acked⟩ where
  keyed := h.keyed.touch htouches hentries hlast
  distinct claim' := by
    rw [held_release]
    split_ifs
    · exact (h.distinct claim').erase id
    · exact h.distinct claim'
  exclusive claim₁ claim₂ id' h₁ h₂ :=
    h.exclusive claim₁ claim₂ id' (h.mem_held_release hid h₁).1 (h.mem_held_release hid h₂).1
  inflight claim' id' hid' := by
    obtain ⟨hheld, hne⟩ := h.mem_held_release hid hid'
    exact (h.inflight claim' id' hheld).touch htouches hentries (by simpa using hne)
  done id' hid' := by
    rcases hacked id' hid' with hold | hdone
    · refine (h.done id' hold).touch htouches hentries ?_
      rw [List.mem_singleton]
      rintro rfl
      cases (h.done id' hold).unique h.keyed (h.inflight claim id' hid)
    · exact hdone

theorem enqueue (h : s.Inv) (createdAt : Int64) (event : NewOutboxEvent) :
    Inv { s with table := s.table.enqueueOutboxInTx col createdAt event } where
  keyed := h.keyed.enqueueOutboxInTx createdAt event
  distinct := h.distinct
  exclusive := h.exclusive
  inflight claim id hid := (h.inflight claim id hid).enqueueOutboxInTx createdAt event
  done id hid := (h.done id hid).enqueueOutboxInTx createdAt event

/-- The events of a batch are pending, so neither a claim has them nor are they acked. -/
theorem claim (h : s.Inv) (dispatcher : Nat) (now : Int64) (limit : Nat) :
    (s.step col (.claimOutbox dispatcher now limit)).Inv := by
  obtain ⟨set, hentries, htouches, hinflight⟩ := claimOutbox_touches col s.table now limit
  have hpending {id : Nat} (hid : id ∈ (s.table.claimed col now limit).map OutboxEvent.id) :
      s.table.IsAt id .pending := by
    exact OutboxTable.isAt_of_mem_claimable hid
  have hfresh {claim id : Nat} (hid : id ∈ s.held claim) :
      id ∉ (s.table.claimed col now limit).map OutboxEvent.id := by
    intro hbatch
    cases (h.inflight claim id hid).unique h.keyed (hpending hbatch)
  refine ⟨h.keyed.touch htouches hentries (OutboxTable.claimOutbox_lastId now limit), ?_, ?_, ?_, ?_⟩
  · intro claim
    by_cases hclaim : claim = s.claims.length
    · subst hclaim
      unfold held OutboxClaims.step
      simp only [List.getElem?_concat_length]
      exact OutboxTable.nodup_claimOutbox h.keyed now limit
    · have hheld : (s.step col (.claimOutbox dispatcher now limit)).held claim = s.held claim := by
        unfold held OutboxClaims.step
        simp only [List.getElem?_append, List.getElem?_singleton]
        grind
      rw [hheld]
      exact h.distinct claim
  · intro claim claim' id hid hid'
    rcases mem_held_claim hid with hold | ⟨rfl, hnew⟩
    · rcases mem_held_claim hid' with hold' | ⟨rfl, hnew'⟩
      · exact h.exclusive claim claim' id hold hold'
      · exact absurd hnew' (hfresh hold)
    · rcases mem_held_claim hid' with hold' | ⟨rfl, hnew'⟩
      · exact absurd hnew (hfresh hold')
      · rfl
  · intro claim id hid
    rcases mem_held_claim hid with hold | ⟨rfl, hnew⟩
    · exact (h.inflight claim id hold).touch htouches hentries (hfresh hold)
    · refine (hpending hnew).touched htouches hentries fun entry hentry => hinflight entry ?_
      rwa [hentry]
  · intro id hid
    refine (h.done id hid).touch htouches hentries fun hbatch => ?_
    cases (h.done id hid).unique h.keyed (hpending hbatch)

theorem step (h : s.Inv) (act : ClaimAct) : (s.step col act).Inv := by
  cases act with
  | commit createdAt events =>
    unfold OutboxClaims.step
    simp only
    induction events generalizing s with
    | nil => exact h
    | cons event events ih => exact ih (h.enqueue createdAt event)
  | claimOutbox dispatcher now limit => exact h.claim dispatcher now limit
  | ackOutbox claim id =>
    unfold OutboxClaims.step
    simp only
    split_ifs with hid
    · refine h.release hid (s.table.ackOutbox id) (touches_done id) rfl rfl fun id' hid' => ?_
      rcases List.mem_append.mp hid' with hold | hnew
      · exact .inl hold
      · obtain rfl := List.mem_singleton.mp hnew
        refine .inr ((h.inflight claim id' hid).touched (touches_done id') rfl fun entry hentry => ?_)
        rw [if_pos hentry]
    · exact h
  | nackOutbox claim id nextAttemptAt =>
    unfold OutboxClaims.step
    simp only
    split_ifs with hid
    · exact h.release hid (s.table.nackOutbox id nextAttemptAt)
        (touches_pending id nextAttemptAt) rfl rfl fun id' hid' => .inl hid'
    · exact h

theorem run (h : s.Inv) (acts : List ClaimAct) : (s.run col acts).Inv := by
  induction acts generalizing s with
  | nil => exact h
  | cons act acts ih => exact ih (h.step act)

/-- No claim takes an acked event. -/
theorem not_acked (h : s.Inv) {now : Int64} {limit : Nat} {events : List OutboxEvent}
    (hevents : (s.table.claimOutbox col now limit).1 = .ok events) :
    ∀ event ∈ events, event.id ∉ s.acked := by
  intro event hevent hacked
  have hclaimed : s.table.claimed col now limit = events := by
    rw [OutboxTable.claimed, hevents]
    rfl
  have hpending : s.table.IsAt event.id .pending :=
    OutboxTable.isAt_of_mem_claimable (hclaimed.symm ▸ List.mem_map_of_mem hevent)
  cases (h.done event.id hacked).unique h.keyed hpending

end Inv

theorem inv_empty : (empty τ).Inv where
  keyed := ⟨List.nodup_nil, by simp [empty]⟩
  distinct _ := List.nodup_nil
  exclusive _ _ _ hid := by cases hid
  inflight _ _ hid := by cases hid
  done _ hid := by cases hid

/-- After every run of calls no event is in two claims, and no claim returns an event that has been
acked. -/
theorem outbox_claims_exclusive (col : JsonColumn τ) (acts : List ClaimAct) :
    (∀ claim claim' id, id ∈ ((empty τ).run col acts).held claim →
      id ∈ ((empty τ).run col acts).held claim' → claim = claim') ∧
    ∀ now limit events, (((empty τ).run col acts).table.claimOutbox col now limit).1 = .ok events →
      ∀ event ∈ events, event.id ∉ ((empty τ).run col acts).acked :=
  ⟨(inv_empty.run acts).exclusive, fun _ _ _ hevents => (inv_empty.run acts).not_acked hevents⟩

end OutboxClaims

/-! ## Workers -/

namespace OutboxSystem

variable {τ : Type} {col : JsonColumn τ}

/-- The store is called by workers only, in their `run_once`. -/
def ByWorkers : OutboxAct → Prop
  | .claimOutbox _ _ => False
  | .ackOutbox _ => False
  | .nackOutbox _ _ => False
  | _ => True

/-- The calls of the workers are those of claims: the batch of a worker is what is left of a claim
of its own. -/
structure Follows (s : OutboxSystem τ) (c : OutboxClaims τ) : Prop where
  table : s.table = c.table
  acked : s.acked = c.acked
  batch : ∀ worker, s.workers worker = [] ∨
    ∃ claim : Nat, c.claims[claim]? = some (OutboxClaim.mk worker (s.workers worker))

/-- A worker lets go of its batch. -/
theorem Follows.drop {s : OutboxSystem τ} {c : OutboxClaims τ} (h : s.Follows c)
    {workers : Nat → List OutboxEvent}
    (hworkers : ∀ worker, workers worker = [] ∨ workers worker = s.workers worker) :
    Follows { s with workers } c where
  table := h.table
  acked := h.acked
  batch worker := by
    rcases hworkers worker with hnone | hsame
    · exact .inl hnone
    · simp only [hsame]
      exact h.batch worker

theorem Follows.commit {s : OutboxSystem τ} {c : OutboxClaims τ} (h : s.Follows c) (createdAt : Int64)
    (events : List NewOutboxEvent) :
    (events.foldl (commitEvent col createdAt) s).Follows (c.step col (.commit createdAt events)) := by
  unfold OutboxClaims.step
  simp only
  induction events generalizing s c with
  | nil => exact h
  | cons event events ih =>
    have hstep : (commitEvent col createdAt s event).Follows
        { c with table := c.table.enqueueOutboxInTx col createdAt event } :=
      ⟨by rw [← h.table]; rfl, h.acked, h.batch⟩
    exact ih hstep

/-- A worker takes the next event off its batch, and the row is set as in a call of its claim. -/
theorem Follows.take {s : OutboxSystem τ} {c : OutboxClaims τ} (h : s.Follows c) {worker : Nat}
    {event : OutboxEvent} {rest : List OutboxEvent} (hbatch : s.workers worker = event :: rest) :
    ∃ claim, event.id ∈ c.held claim ∧ ∀ (table : OutboxTable τ) (acked : List Nat),
      Follows { s with table, workers := Function.update s.workers worker rest, acked }
        ⟨table, c.release claim event.id, acked⟩ := by
  obtain hnone | ⟨claim, hclaim⟩ := h.batch worker
  · rw [hbatch] at hnone
    cases hnone
  rw [hbatch] at hclaim
  refine ⟨claim, by simp [OutboxClaims.held, hclaim], fun table acked => ⟨rfl, rfl, fun worker' => ?_⟩⟩
  simp only [OutboxClaims.release, List.getElem?_modify]
  by_cases heq : worker' = worker
  · subst heq
    exact .inr ⟨claim, by simp [hclaim]⟩
  · rw [Function.update_of_ne heq]
    rcases h.batch worker' with hnone | ⟨claim', hclaim'⟩
    · exact .inl hnone
    · have hne : claim ≠ claim' := by
        rintro rfl
        rw [hclaim] at hclaim'
        exact heq (congrArg OutboxClaim.dispatcher (Option.some.inj hclaim')).symm
      exact .inr ⟨claim', by simp [hclaim', hne]⟩

theorem Follows.step {disp : OutboxDispatcher} {s : OutboxSystem τ} {c : OutboxClaims τ}
    (h : s.Follows c) {act : OutboxAct} (hact : ByWorkers act) :
    ∃ acts, (s.step col disp act).Follows (c.run col acts) := by
  cases act with
  | commit createdAt events => exact ⟨[.commit createdAt events], h.commit createdAt events⟩
  | claimOutbox | ackOutbox | nackOutbox => exact hact.elim
  | runOnce worker now limit =>
    unfold OutboxSystem.step
    simp only
    split
    · refine ⟨[.claimOutbox worker now limit], ⟨?_, h.acked, fun worker' => ?_⟩⟩
      · rw [h.table]
        rfl
      · by_cases heq : worker' = worker
        · subst heq
          refine .inr ⟨c.claims.length, ?_⟩
          simp [OutboxClaims.run, OutboxClaims.step, h.table]
        · simp only [Function.update_of_ne heq]
          rcases h.batch worker' with hnone | ⟨claim, hclaim⟩
          · exact .inl hnone
          · refine .inr ⟨claim, ?_⟩
            have hlt := (List.getElem?_eq_some_iff.mp hclaim).1
            simpa [OutboxClaims.run, OutboxClaims.step, List.getElem?_append_left hlt] using hclaim
    · exact ⟨[], h⟩
  | handled worker delivered now stored =>
    unfold OutboxSystem.step
    simp only
    split
    · exact ⟨[], h⟩
    · rename_i event rest hbatch
      obtain ⟨claim, hheld, hfollows⟩ := h.take hbatch
      split_ifs
      · refine ⟨[], h.drop fun worker' => ?_⟩
        by_cases heq : worker' = worker <;> simp [heq]
      · refine ⟨[.ackOutbox claim event.id], ?_⟩
        rw [h.table, h.acked]
        simpa [OutboxClaims.run, OutboxClaims.step, hheld] using hfollows _ _
      · refine ⟨[.nackOutbox claim event.id (disp.nextAttempt event now)], ?_⟩
        rw [h.table]
        simpa [OutboxClaims.run, OutboxClaims.step, hheld, ← h.acked] using hfollows _ s.acked
  | cancel worker =>
    refine ⟨[], h.drop fun worker' => ?_⟩
    by_cases heq : worker' = worker <;> simp [heq]
  | restart => exact ⟨[], h.drop fun _ => .inl rfl⟩

theorem exists_follows {disp : OutboxDispatcher} {s : OutboxSystem τ} {c : OutboxClaims τ}
    (h : s.Follows c) (acts : List OutboxAct) (hacts : ∀ act ∈ acts, ByWorkers act) :
    ∃ acts', (s.run col disp acts).Follows (c.run col acts') := by
  induction acts generalizing s c with
  | nil => exact ⟨[], h⟩
  | cons act acts ih =>
    rw [List.forall_mem_cons] at hacts
    obtain ⟨first, hfirst⟩ := h.step hacts.1
    obtain ⟨rest, hrest⟩ := ih hfirst hacts.2
    exact ⟨first ++ rest, by rwa [OutboxClaims.run, List.foldl_append]⟩

/-- Two workers never have one event at hand, and no batch holds one that is acked. -/
theorem at_hand_once {disp : OutboxDispatcher} {acts : List OutboxAct}
    (hacts : ∀ act ∈ acts, ByWorkers act) {worker worker' : Nat} {event event' : OutboxEvent}
    (hevent : event ∈ (run col disp (empty τ) acts).workers worker)
    (hevent' : event' ∈ (run col disp (empty τ) acts).workers worker') (hid : event.id = event'.id) :
    worker = worker' ∧ event.id ∉ (run col disp (empty τ) acts).acked := by
  have hstart : (empty τ).Follows (OutboxClaims.empty τ) := ⟨rfl, rfl, fun _ => .inl rfl⟩
  obtain ⟨calls, hfollows⟩ : ∃ calls, (run col disp (empty τ) acts).Follows
      ((OutboxClaims.empty τ).run col calls) := exists_follows hstart acts hacts
  have hinv : ((OutboxClaims.empty τ).run col calls).Inv := OutboxClaims.inv_empty.run calls
  have hheld {worker : Nat} {event : OutboxEvent}
      (hevent : event ∈ (run col disp (empty τ) acts).workers worker) : ∃ claim : Nat,
      event.id ∈ ((OutboxClaims.empty τ).run col calls).held claim ∧
        (((OutboxClaims.empty τ).run col calls).claims[claim]?).map OutboxClaim.dispatcher = some worker := by
    rcases hfollows.batch worker with hnone | ⟨claim, hclaim⟩
    · rw [hnone] at hevent
      cases hevent
    · refine ⟨claim, ?_, by rw [hclaim]; rfl⟩
      rw [OutboxClaims.held, hclaim]
      exact List.mem_map_of_mem hevent
  obtain ⟨claim, hclaim, hworker⟩ := hheld hevent
  obtain ⟨claim', hclaim', hworker'⟩ := hheld hevent'
  obtain rfl := hinv.exclusive claim claim' event.id hclaim (hid ▸ hclaim')
  refine ⟨Option.some.inj (hworker.symm.trans hworker'), fun hacked => ?_⟩
  rw [hfollows.acked] at hacked
  cases (hinv.done _ hacked).unique hinv.keyed (hinv.inflight claim _ hclaim)

end OutboxSystem

end Ubl.Pipeline
