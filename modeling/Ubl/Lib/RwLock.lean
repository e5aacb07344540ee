import Mathlib.Data.List.Nodup
import Mathlib.Logic.Function.Basic
import Mathlib.Data.Fintype.Defs

/-!
# A fair read-write lock

Tasks take and drop guards of one lock.  Whoever wants a guard stands in a queue, and the queue is
served from the front: a reader behind a waiting writer waits.

A task that takes a read guard while it has one can wait for ever: a writer in between waits for
the first guard, and the second one waits for the writer.  This is the only way to get stuck.

    no writer queues while a task is about to take a second guard
        →  whenever a task waits, a task can go on                                  (not_stuck)
-/

namespace RwLock

inductive Mode where
  | read
  | write
deriving DecidableEq

/-- What a task does with the lock: it takes a guard, or drops the one it took last. -/
inductive Op where
  | lock (m : Mode)
  | drop
deriving DecidableEq

structure State (ι : Type) where
  /-- The guards given out, the latest first. -/
  guards : List (ι × Mode)
  /-- Who waits, in the order of asking. -/
  queue : List ι
  /-- What a task waits for. -/
  wants : ι → Option Mode
  /-- What is left of a task. -/
  todo : ι → List Op

inductive Event (ι : Type) where
  /-- A task asks for a guard. -/
  | queue (i : ι)
  /-- The first in the queue gets its guard. -/
  | grant (i : ι)
  | drop (i : ι)
  /-- A task returns early, and what is left of it is to drop its guards. -/
  | leave (i : ι)
deriving DecidableEq

def Event.task {ι : Type} : Event ι → ι
  | .queue i | .grant i | .drop i | .leave i => i

variable {ι : Type} [DecidableEq ι]

namespace State

/-- Before the tasks start. -/
def init (programs : ι → List Op) : State ι := ⟨[], [], fun _ => none, programs⟩

/-- The guards of a task, the latest first. -/
def held (s : State ι) (i : ι) : List Mode := (s.guards.filter (·.1 = i)).map Prod.snd

/-- Whether a guard can be given out. -/
def free (s : State ι) : Mode → Bool
  | .read => s.guards.all (·.2 = .read)
  | .write => s.guards.isEmpty

def step (s : State ι) : Event ι → Option (State ι)
  | .queue i =>
    match s.wants i, s.todo i with
    | none, .lock m :: todo =>
      some { s with
        queue := s.queue ++ [i]
        wants := Function.update s.wants i (some m)
        todo := Function.update s.todo i todo }
    | _, _ => none
  | .grant i =>
    match s.queue, s.wants i with
    | j :: queue, some m =>
      if j = i ∧ s.free m then
        some { s with
          guards := (i, m) :: s.guards
          queue := queue
          wants := Function.update s.wants i none }
      else none
    | _, _ => none
  | .drop i =>
    match s.wants i, s.todo i with
    | none, .drop :: todo =>
      some { s with
        guards := s.guards.eraseP (·.1 = i)
        todo := Function.update s.todo i todo }
    | _, _ => none
  | .leave i =>
    match s.wants i, s.todo i with
    | none, _ :: _ =>
      some { s with
        todo := Function.update s.todo i (List.replicate (s.held i).length .drop) }
    | _, _ => none

/-- A task waits, and none can go on. -/
def Stuck (s : State ι) : Prop := (∃ i, s.wants i ≠ none) ∧ ∀ e, s.step e = none

end State

/-- A task with so many guards takes another one before it has dropped them. -/
def nests : Nat → List Op → Bool
  | _ + 1, .lock _ :: _ => true
  | n + 1, .drop :: todo => nests n todo
  | _, _ => false

/-- Guards are dropped in the end, and a second one is taken only to read while reading. -/
def wellNested : List Mode → List Op → Bool
  | [], [] => true
  | _ :: held, .drop :: todo => wellNested held todo
  | held, .lock m :: todo =>
    (held.isEmpty || m = .read && held.all (· = .read)) && wellNested (m :: held) todo
  | _, _ => false

/-- The guards a task has and the one it waits for. -/
def State.claims (s : State ι) (i : ι) : List Mode := (s.wants i).toList ++ s.held i

/-- The task has a guard, or waits for it, and will take another one on top. -/
def State.nesting (s : State ι) (i : ι) : Bool := nests (s.claims i).length (s.todo i)

/-- The states reached from `s₀` when events happen only where `ok` permits them. -/
inductive Reaches (ok : State ι → Event ι → Prop) (s₀ : State ι) : State ι → Prop
  | start : Reaches ok s₀ s₀
  | step {s s' : State ι} {e : Event ι} (h : Reaches ok s₀ s) (hok : ok s e)
      (hstep : s.step e = some s') : Reaches ok s₀ s'

/-- Where a task asks to write, none is about to take a second guard. -/
def WriterClear (s : State ι) (e : Event ι) : Prop :=
  ∀ i, e = .queue i → (s.todo i).head? = some (.lock .write) → ∀ j, s.nesting j = false

instance [Fintype ι] (s : State ι) (e : Event ι) : Decidable (WriterClear s e) :=
  inferInstanceAs (Decidable (∀ i, e = .queue i → (s.todo i).head? = some (.lock .write) →
    ∀ j, s.nesting j = false))

/-- The state after the events, where each of them is permitted and possible. -/
def run (ok : State ι → Event ι → Bool) (s : State ι) : List (Event ι) → Option (State ι)
  | [] => some s
  | e :: es => if ok s e then (s.step e).bind fun s' => run ok s' es else none

theorem reaches_of_run {ok : State ι → Event ι → Bool} {s₀ s s' : State ι} {es : List (Event ι)}
    (hs : Reaches (fun s e => ok s e) s₀ s) (h : run ok s es = some s') :
    Reaches (fun s e => ok s e) s₀ s' := by
  induction es generalizing s with
  | nil => exact Option.some.inj h ▸ hs
  | cons e es ih =>
    rw [run, Option.ite_none_right_eq_some] at h
    obtain ⟨hok, h⟩ := h
    obtain ⟨s₁, hstep, h⟩ := Option.bind_eq_some_iff.mp h
    exact ih (.step hs hok hstep) h

theorem Reaches.mono {ok ok' : State ι → Event ι → Prop} (hok : ∀ s e, ok s e → ok' s e)
    {s₀ s : State ι} (h : Reaches ok s₀ s) : Reaches ok' s₀ s := by
  induction h with
  | start => exact .start
  | step _ he hstep ih => exact .step ih (hok _ _ he) hstep

/-! ## Guards of a task -/

section Held

variable {i j : ι} (gs : List (ι × Mode))

theorem held_cons_self (m : Mode) :
    (((i, m) :: gs).filter (·.1 = i)).map Prod.snd = m :: (gs.filter (·.1 = i)).map Prod.snd := by
  simp

theorem held_cons_ne (h : j ≠ i) (m : Mode) :
    ((i, m) :: gs).filter (·.1 = j) = gs.filter (·.1 = j) := by
  simp [h.symm]

theorem held_eraseP_self :
    (gs.eraseP (·.1 = i)).filter (·.1 = i) = (gs.filter (·.1 = i)).tail := by
  induction gs with
  | nil => rfl
  | cons g gs ih =>
    by_cases hg : g.1 = i
    · simp [hg]
    · simp [hg, ih]

theorem held_eraseP_ne (h : j ≠ i) :
    (gs.eraseP (·.1 = i)).filter (·.1 = j) = gs.filter (·.1 = j) := by
  induction gs with
  | nil => rfl
  | cons g gs ih =>
    by_cases hg : g.1 = i
    · simp [hg, h.symm]
    · simp [hg, List.filter_cons, ih]

theorem mem_held {s : State ι} {m : Mode} : m ∈ s.held i ↔ (i, m) ∈ s.guards := by
  simp [State.held]

end Held

/-! ## What a step does -/

section Step

variable {s s' : State ι} {i : ι}

theorem step_queue (h : s.step (.queue i) = some s') : ∃ m todo,
    s.wants i = none ∧ s.todo i = .lock m :: todo ∧ s' = { s with
      queue := s.queue ++ [i]
      wants := Function.update s.wants i (some m)
      todo := Function.update s.todo i todo } := by
  rw [State.step] at h
  split at h
  · next m todo hwants htodo => exact ⟨m, todo, hwants, htodo, (Option.some.inj h).symm⟩
  · cases h

theorem step_grant (h : s.step (.grant i) = some s') : ∃ m queue,
    s.queue = i :: queue ∧ s.wants i = some m ∧ s.free m ∧ s' = { s with
      guards := (i, m) :: s.guards
      queue := queue
      wants := Function.update s.wants i none } := by
  rw [State.step] at h
  split at h
  · next j queue m hqueue hwants =>
    split_ifs at h with hfree
    obtain ⟨rfl, hfree⟩ := hfree
    exact ⟨m, queue, hqueue, hwants, hfree, (Option.some.inj h).symm⟩
  · cases h

theorem step_drop (h : s.step (.drop i) = some s') : ∃ todo,
    s.wants i = none ∧ s.todo i = .drop :: todo ∧ s' = { s with
      guards := s.guards.eraseP (·.1 = i)
      todo := Function.update s.todo i todo } := by
  rw [State.step] at h
  split at h
  · next todo hwants htodo => exact ⟨todo, hwants, htodo, (Option.some.inj h).symm⟩
  · cases h

theorem step_leave (h : s.step (.leave i) = some s') :
    s.wants i = none ∧ s' = { s with
      todo := Function.update s.todo i (List.replicate (s.held i).length .drop) } := by
  rw [State.step] at h
  split at h
  · next hwants _ => exact ⟨hwants, (Option.some.inj h).symm⟩
  · cases h

/-- A step changes nothing of the other tasks. -/
theorem step_other {e : Event ι} {j : ι} (h : s.step e = some s') (hj : j ≠ e.task) :
    s'.wants j = s.wants j ∧ s'.held j = s.held j ∧ s'.todo j = s.todo j := by
  cases e with
  | queue i =>
    obtain ⟨m, todo, -, -, rfl⟩ := step_queue h
    exact ⟨Function.update_of_ne hj _ _, rfl, Function.update_of_ne hj _ _⟩
  | grant i =>
    obtain ⟨m, queue, -, -, -, rfl⟩ := step_grant h
    exact ⟨Function.update_of_ne hj _ _, congrArg (List.map Prod.snd) (held_cons_ne _ hj m), rfl⟩
  | drop i =>
    obtain ⟨todo, -, -, rfl⟩ := step_drop h
    exact ⟨rfl, congrArg (List.map Prod.snd) (held_eraseP_ne _ hj), Function.update_of_ne hj _ _⟩
  | leave i =>
    obtain ⟨-, rfl⟩ := step_leave h
    exact ⟨rfl, rfl, Function.update_of_ne hj _ _⟩

theorem step_other_nesting {e : Event ι} {j : ι} (h : s.step e = some s') (hj : j ≠ e.task) :
    s'.claims j = s.claims j ∧ s'.nesting j = s.nesting j := by
  obtain ⟨hwants, hheld, htodo⟩ := step_other h hj
  have hclaims : s'.claims j = s.claims j := by rw [State.claims, hwants, hheld, State.claims]
  exact ⟨hclaims, by rw [State.nesting, hclaims, htodo, State.nesting]⟩

end Step

/-! ## Programs -/

theorem nests_replicate (n k : Nat) : nests n (List.replicate k .drop) = false := by
  induction k generalizing n with
  | zero => cases n <;> rfl
  | succ k ih =>
    cases n with
    | zero => rfl
    | succ n => exact ih n

theorem wellNested_replicate (held : List Mode) :
    wellNested held (List.replicate held.length .drop) = true := by
  induction held with
  | nil => rfl
  | cons m held ih => exact ih

theorem wellNested_lock {held : List Mode} {m : Mode} {todo : List Op}
    (h : wellNested held (.lock m :: todo)) :
    (held ≠ [] → m = .read ∧ ∀ m' ∈ held, m' = .read) ∧ wellNested (m :: held) todo := by
  cases held with
  | nil => simpa [wellNested] using h
  | cons m' held => simpa [wellNested] using h

/-- Whoever has a guard has something left to do. -/
theorem todo_of_held {held : List Mode} {todo : List Op} (h : wellNested held todo)
    (hheld : held ≠ []) : todo ≠ [] := by
  rintro rfl
  cases held with
  | nil => exact hheld rfl
  | cons m held => cases h

/-! ## The invariant -/

/-- Who has a guard and waits comes before all writers in the queue, and so does who waits and
will take another guard on top; with a guard in hand such a task keeps the queue free of
writers. -/
structure Inv (s : State ι) : Prop where
  nodup : s.queue.Nodup
  waits : ∀ i, i ∈ s.queue ↔ s.wants i ≠ none
  nested : ∀ i, wellNested (s.claims i) (s.todo i)
  reads : ∀ i m, s.wants i = some m → s.held i ≠ [] → m = .read ∧ ∀ m' ∈ s.held i, m' = .read
  excl : (∀ g ∈ s.guards, g.2 = .read) ∨ s.guards.length ≤ 1
  order : s.queue.Pairwise fun i j =>
    (s.nesting i → s.wants j = some .read) ∧ (s.held j ≠ [] → s.wants i = some .read)
  clear : ∀ i, s.wants i = none → s.nesting i → ∀ j ∈ s.queue, s.wants j = some .read

theorem inv_init {programs : ι → List Op} (h : ∀ i, wellNested [] (programs i)) :
    Inv (State.init programs) where
  nodup := List.nodup_nil
  waits := by simp [State.init]
  nested := h
  reads := by simp [State.init]
  excl := .inl (by simp [State.init])
  order := List.Pairwise.nil
  clear := by simp [State.init]

section Steps

variable {s s' : State ι} {i : ι}

/-- What the invariant says of other tasks stays as it is, so only the task that acts is left to
look at. -/
theorem Inv.of_step (hinv : Inv s) {e : Event ι} (h : s.step e = some s')
    (hnested : wellNested (s'.claims e.task) (s'.todo e.task))
    (hreads : ∀ m, s'.wants e.task = some m → s'.held e.task ≠ [] →
      m = .read ∧ ∀ m' ∈ s'.held e.task, m' = .read) :
    (∀ j, wellNested (s'.claims j) (s'.todo j)) ∧
      ∀ j m, s'.wants j = some m → s'.held j ≠ [] → m = .read ∧ ∀ m' ∈ s'.held j, m' = .read := by
  constructor
  · intro j
    by_cases hj : j = e.task
    · exact hj ▸ hnested
    · rw [(step_other_nesting h hj).1, (step_other h hj).2.2]
      exact hinv.nested j
  · intro j
    by_cases hj : j = e.task
    · exact hj ▸ hreads
    · obtain ⟨hwants, hheld, -⟩ := step_other h hj
      rw [hwants, hheld]
      exact hinv.reads j

/-- Tasks in the queue other than the one that acts keep their places. -/
theorem Inv.order_of_step (hinv : Inv s) {e : Event ι} (h : s.step e = some s') {queue : List ι}
    (hqueue : queue.Sublist s.queue) (hmem : e.task ∉ queue) :
    queue.Pairwise fun i j =>
      (s'.nesting i → s'.wants j = some .read) ∧ (s'.held j ≠ [] → s'.wants i = some .read) := by
  refine (hinv.order.sublist hqueue).imp_of_mem fun {i j} hi hj hij => ?_
  have hi' : i ≠ e.task := fun heq => hmem (heq ▸ hi)
  have hj' : j ≠ e.task := fun heq => hmem (heq ▸ hj)
  rw [(step_other_nesting h hi').2, (step_other h hi').1, (step_other h hj').1,
    (step_other h hj').2.1]
  exact hij

theorem Inv.queue (hinv : Inv s) (h : s.step (.queue i) = some s')
    (hclear : WriterClear s (.queue i)) : Inv s' := by
  have hwell := hinv.of_step h
  have horder := hinv.order_of_step h (List.Sublist.refl _)
  obtain ⟨m, todo, hwants, htodo, hs'⟩ := step_queue h
  have hi : i ∉ s.queue := fun hi => (hinv.waits i).mp hi hwants
  have hwants' : s'.wants i = some m := by rw [hs']; exact Function.update_self _ _ _
  have htodo' : s'.todo i = todo := by rw [hs']; exact Function.update_self _ _ _
  have hqueue' : s'.queue = s.queue ++ [i] := by rw [hs']
  have hheld' (j : ι) : s'.held j = s.held j := by rw [hs']; rfl
  have hclaims : s.claims i = s.held i := by rw [State.claims, hwants]; rfl
  have hnested := hinv.nested i
  rw [htodo, hclaims] at hnested
  obtain ⟨hreads, hnested⟩ := wellNested_lock hnested
  have hread {j : ι} (hj : s.nesting j) : m = .read := by
    by_contra hm
    have hwrite : m = .write := by cases m <;> simp_all
    have := hclear i rfl (by rw [htodo, hwrite]; rfl) j
    simp [hj] at this
  obtain ⟨hnested', hreads'⟩ := hwell
    (by rw [Event.task, State.claims, hwants', hheld', htodo']; exact hnested)
    (by
      intro m' hm' hheld
      rw [Event.task, hheld'] at hheld ⊢
      rw [Event.task, hwants'] at hm'
      exact Option.some.inj hm' ▸ hreads hheld)
  refine ⟨?_, ?_, hnested', hreads', ?_, ?_, ?_⟩
  · rw [hqueue']
    exact List.nodup_append.mpr ⟨hinv.nodup, List.nodup_singleton i, by
      rintro j hj k hk rfl
      exact hi (List.mem_singleton.mp hk ▸ hj)⟩
  · intro j
    rw [hqueue', List.mem_append, List.mem_singleton]
    by_cases hj : j = i
    · simp [hj, hwants']
    · rw [(step_other h hj).1, hinv.waits j]
      simp [hj]
  · rw [hs']
    exact hinv.excl
  · rw [hqueue', List.pairwise_append]
    refine ⟨horder hi, List.pairwise_singleton _ _, fun j hj k hk => ?_⟩
    obtain rfl := List.mem_singleton.mp hk
    have hne : j ≠ k := fun heq => hi (heq ▸ hj)
    rw [(step_other_nesting h hne).2, hwants', (step_other h hne).1, hheld']
    refine ⟨fun hn => congrArg some (hread hn), fun hheld => ?_⟩
    refine hinv.clear k hwants ?_ j hj
    rw [State.nesting, hclaims, htodo]
    obtain ⟨m', held, heq⟩ := List.exists_cons_of_ne_nil hheld
    rw [heq]
    rfl
  · intro j hj hn k hk
    have hne : j ≠ i := by
      rintro rfl
      rw [hwants'] at hj
      cases hj
    rw [(step_other h hne).1] at hj
    rw [(step_other_nesting h hne).2] at hn
    rw [hqueue', List.mem_append, List.mem_singleton] at hk
    obtain hk | rfl := hk
    · have hki : k ≠ i := fun heq => hi (heq ▸ hk)
      rw [(step_other h hki).1]
      exact hinv.clear j hj hn k hk
    · rw [hwants', hread hn]

theorem Inv.grant (hinv : Inv s) (h : s.step (.grant i) = some s') : Inv s' := by
  have hwell := hinv.of_step h
  have horder (q : List ι) (hq : q.Sublist s.queue) := hinv.order_of_step h hq
  obtain ⟨m, queue, hqueue, hwants, hfree, hs'⟩ := step_grant h
  obtain ⟨hi, hnodup⟩ := List.nodup_cons.mp (hqueue ▸ hinv.nodup)
  obtain ⟨hfirst, -⟩ := List.pairwise_cons.mp (hqueue ▸ hinv.order)
  have hwants' : s'.wants i = none := by rw [hs']; exact Function.update_self _ _ _
  have htodo' : s'.todo i = s.todo i := by rw [hs']
  have hqueue' : s'.queue = queue := by rw [hs']
  have hguards' : s'.guards = (i, m) :: s.guards := by rw [hs']
  have hclaims : s'.claims i = s.claims i := by
    rw [State.claims, State.claims, hwants', hwants, State.held, hguards', held_cons_self]
    rfl
  obtain ⟨hnested', hreads'⟩ := hwell
    (by rw [Event.task, hclaims, htodo']; exact hinv.nested i)
    (by
      intro m' hm'
      rw [Event.task, hwants'] at hm'
      cases hm')
  refine ⟨hqueue' ▸ hnodup, ?_, hnested', hreads', ?_, ?_, ?_⟩
  · intro j
    rw [hqueue']
    by_cases hj : j = i
    · simp [hj, hi, hwants']
    · rw [(step_other h hj).1, ← hinv.waits j, hqueue, List.mem_cons]
      simp [hj]
  · rw [hguards']
    cases m with
    | read =>
      left
      have hall : ∀ g ∈ s.guards, g.2 = Mode.read := by simpa [State.free] using hfree
      exact List.forall_mem_cons.mpr ⟨rfl, hall⟩
    | write =>
      right
      have hnil : s.guards = [] := by simpa [State.free] using hfree
      simp [hnil]
  · rw [hqueue']
    exact horder queue (hqueue ▸ List.sublist_cons_self i queue) hi
  · intro j hj hn k hk
    rw [hqueue'] at hk
    have hki : k ≠ i := fun heq => hi (heq ▸ hk)
    rw [(step_other h hki).1]
    by_cases hji : j = i
    · have hnest : s.nesting i := by
        rw [State.nesting, ← hclaims, ← htodo', ← State.nesting]
        exact hji ▸ hn
      exact (hfirst k hk).1 hnest
    · rw [(step_other h hji).1] at hj
      rw [(step_other_nesting h hji).2] at hn
      exact hinv.clear j hj hn k (hqueue ▸ List.mem_cons_of_mem i hk)

/-- Steps of a task that does not wait and that leave the queue alone. -/
theorem Inv.of_queue_eq (hinv : Inv s) {e : Event ι} (h : s.step e = some s')
    (hwants : s.wants e.task = none) (hwants' : s'.wants = s.wants) (hqueue' : s'.queue = s.queue)
    (hguards' : s'.guards.Sublist s.guards)
    (hnested : wellNested (s'.claims e.task) (s'.todo e.task))
    (hnesting : s'.nesting e.task → s.nesting e.task) : Inv s' := by
  have htask : e.task ∉ s.queue := fun hi => (hinv.waits _).mp hi hwants
  obtain ⟨hnested', hreads'⟩ := hinv.of_step h hnested (by
    intro m hm
    rw [hwants', hwants] at hm
    cases hm)
  refine ⟨hqueue' ▸ hinv.nodup, ?_, hnested', hreads', ?_, ?_, ?_⟩
  · rw [hqueue', hwants']
    exact hinv.waits
  · obtain hall | hlen := hinv.excl
    · exact .inl fun g hg => hall g (hguards'.subset hg)
    · exact .inr (Nat.le_trans hguards'.length_le hlen)
  · rw [hqueue']
    exact hinv.order_of_step h (List.Sublist.refl _) htask
  · intro j hj hn k hk
    rw [hwants'] at hj ⊢
    rw [hqueue'] at hk
    refine hinv.clear j hj ?_ k hk
    by_cases hje : j = e.task
    · rw [hje] at hn ⊢
      exact hnesting hn
    · rwa [(step_other_nesting h hje).2] at hn

theorem Inv.drop (hinv : Inv s) (h : s.step (.drop i) = some s') : Inv s' := by
  have hstep := hinv.of_queue_eq h
  obtain ⟨todo, hwants, htodo, hs'⟩ := step_drop h
  have hclaims : s.claims i = s.held i := by rw [State.claims, hwants]; rfl
  have hnested := hinv.nested i
  rw [hclaims, htodo] at hnested
  obtain ⟨m, held, hheld⟩ : ∃ m held, s.held i = m :: held := by
    refine List.exists_cons_of_ne_nil fun hnil => ?_
    rw [hnil] at hnested
    cases hnested
  have hclaims' : s'.claims i = held := by
    rw [State.claims, show s'.wants i = none by rw [hs']; exact hwants, State.held, hs',
      held_eraseP_self, List.map_tail, ← State.held, hheld]
    rfl
  have htodo' : s'.todo i = todo := by rw [hs']; exact Function.update_self _ _ _
  refine hstep hwants (by rw [hs']) (by rw [hs']) (by rw [hs']; exact List.eraseP_sublist) ?_ ?_
  · rw [Event.task, hclaims', htodo']
    rwa [hheld] at hnested
  · rw [Event.task, State.nesting, State.nesting, hclaims', htodo', hclaims, htodo, hheld]
    exact id

theorem Inv.leave (hinv : Inv s) (h : s.step (.leave i) = some s') : Inv s' := by
  have hstep := hinv.of_queue_eq h
  obtain ⟨hwants, hs'⟩ := step_leave h
  have hclaims' : s'.claims i = s.held i := by
    rw [State.claims, show s'.wants i = none by rw [hs']; exact hwants, hs']
    rfl
  have htodo' : s'.todo i = List.replicate (s.held i).length .drop := by
    rw [hs']
    exact Function.update_self _ _ _
  refine hstep hwants (by rw [hs']) (by rw [hs']) (by rw [hs']) ?_ ?_
  · rw [Event.task, hclaims', htodo']
    exact wellNested_replicate _
  · rw [Event.task, State.nesting, hclaims', htodo', nests_replicate]
    exact nofun

end Steps

theorem inv_of_reaches {programs : ι → List Op} (hprograms : ∀ i, wellNested [] (programs i))
    {s : State ι} (h : Reaches WriterClear (State.init programs) s) : Inv s := by
  induction h with
  | start => exact inv_init hprograms
  | @step s s' e _ hok hstep ih =>
    cases e with
    | queue i => exact ih.queue hstep hok
    | grant i => exact ih.grant hstep
    | drop i => exact ih.drop hstep
    | leave i => exact ih.leave hstep

/-! ## Progress -/

/-- A task that has a guard and does not wait can go on. -/
theorem Inv.goes_on {s : State ι} (hinv : Inv s) {i : ι} (hheld : s.held i ≠ [])
    (hwants : s.wants i = none) : ∃ e, s.step e ≠ none := by
  have hnested := hinv.nested i
  rw [State.claims, hwants] at hnested
  obtain ⟨op, todo, htodo⟩ := List.exists_cons_of_ne_nil (todo_of_held hnested hheld)
  cases op with
  | lock m => exact ⟨.queue i, by simp [State.step, hwants, htodo]⟩
  | drop => exact ⟨.drop i, by simp [State.step, hwants, htodo]⟩

theorem Inv.not_stuck {s : State ι} (hinv : Inv s) : ¬ s.Stuck := by
  rintro ⟨⟨i, hi⟩, hnone⟩
  obtain ⟨first, queue, hqueue⟩ := List.exists_cons_of_ne_nil
    (List.ne_nil_of_mem ((hinv.waits i).mpr hi))
  obtain ⟨m, hm⟩ := Option.ne_none_iff_exists'.mp
    ((hinv.waits first).mp (hqueue ▸ List.mem_cons_self))
  have hfree : ¬ s.free m := by
    intro hfree
    have := hnone (.grant first)
    simp [State.step, hqueue, hm, hfree] at this
  -- Some guard is in the way; its task does not wait, or it would come before the writer.
  obtain ⟨⟨j, m'⟩, hg, hconflict⟩ : ∃ g ∈ s.guards, m = .read → g.2 = .write := by
    cases m with
    | read =>
      obtain ⟨g, hg, hread⟩ : ∃ g ∈ s.guards, g.2 ≠ Mode.read := by simpa [State.free] using hfree
      exact ⟨g, hg, fun _ => by cases hg2 : g.2 <;> simp_all⟩
    | write =>
      obtain ⟨g, hg⟩ : ∃ g, g ∈ s.guards :=
        List.exists_mem_of_ne_nil _ (by simpa [State.free] using hfree)
      exact ⟨g, hg, nofun⟩
  have hheld : s.held j ≠ [] := List.ne_nil_of_mem (mem_held.mpr hg)
  cases hwants : s.wants j with
  | none =>
    obtain ⟨e, he⟩ := hinv.goes_on hheld hwants
    exact he (hnone e)
  | some m'' =>
    obtain ⟨rfl, hreads⟩ := hinv.reads j m'' hwants hheld
    have hread : m = .read := by
      have hj : j ∈ first :: queue := hqueue ▸ (hinv.waits j).mpr (by simp [hwants])
      obtain rfl | hj := List.mem_cons.mp hj
      · exact Option.some.inj (hm.symm.trans hwants)
      · have := ((List.pairwise_cons.mp (hqueue ▸ hinv.order)).1 j hj).2 hheld
        exact Option.some.inj (hm.symm.trans this)
    have := hreads m' (mem_held.mpr hg)
    cases this.symm.trans (hconflict hread)

/-- Where no writer asks while a task is about to take a second guard, nobody waits for ever. -/
theorem not_stuck {programs : ι → List Op} (hprograms : ∀ i, wellNested [] (programs i))
    {s : State ι} (h : Reaches WriterClear (State.init programs) s) : ¬ s.Stuck :=
  (inv_of_reaches hprograms h).not_stuck

end RwLock
