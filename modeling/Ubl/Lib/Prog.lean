import Mathlib

/-!
# Programs that share a state, one atomic act at a time

A `Prog ℓ σ ε α` is what an asynchronous function does between two suspension points, as a
tree: it ends with a value or an error, or updates the shared state and goes on with what it saw
there.  Each act bears a label of `ℓ` that says what kind of act it is.  `run` lets one program
run alone; a `Pool` runs any number of them, in any order of their acts, and new ones may arrive
at any time.

    run (x >>= f) s   is   run x s   and then   run (f a)              (run_bind)
    a thread of a pool may come to what its run comes to               (Pool.reaches_run)
    programs that promise `G` under `R` keep it in every pool          (Pool.Promising.act)
-/

inductive Prog (ℓ σ ε α : Type) where
  | ret (a : α)
  | fail (e : ε)
  /-- The update of the state, and what comes next in view of the state before it. -/
  | act (label : ℓ) (update : σ → σ) (next : σ → Prog ℓ σ ε α)

namespace Prog

variable {ℓ σ ε α β : Type}

protected def bind : Prog ℓ σ ε α → (α → Prog ℓ σ ε β) → Prog ℓ σ ε β
  | ret a, f => f a
  | fail e, _ => fail e
  | act label update next, f => act label update fun s => (next s).bind f

instance : Monad (Prog ℓ σ ε) where
  pure := ret
  bind := Prog.bind

def ofExcept : Except ε α → Prog ℓ σ ε α
  | .ok a => ret a
  | .error e => fail e

/-- One act that may fail; a failure may leave its mark on the state. -/
def atomic (label : ℓ) (f : σ → Except ε α × σ) : Prog ℓ σ ε α :=
  act label (fun s => (f s).2) fun s => ofExcept (f s).1

/-- One act that only looks at the state. -/
def reads (label : ℓ) (f : σ → Except ε α) : Prog ℓ σ ε α := atomic label fun s => (f s, s)

def modify (label : ℓ) (f : σ → σ) : Prog ℓ σ ε Unit := atomic label fun s => (.ok (), f s)

@[simp] theorem pure_eq_ret (a : α) : (pure a : Prog ℓ σ ε α) = ret a := rfl

@[simp] theorem ret_bind (a : α) (f : α → Prog ℓ σ ε β) : (ret a >>= f) = f a := rfl

@[simp] theorem fail_bind (e : ε) (f : α → Prog ℓ σ ε β) : (fail e >>= f) = fail e := rfl

theorem act_bind (label : ℓ) (update : σ → σ) (next : σ → Prog ℓ σ ε α)
    (f : α → Prog ℓ σ ε β) :
    (act label update next >>= f) = act label update fun s => next s >>= f := rfl

@[simp] theorem ofExcept_ok (a : α) : (ofExcept (.ok a) : Prog ℓ σ ε α) = ret a := rfl

@[simp] theorem ofExcept_error (e : ε) : (ofExcept (.error e) : Prog ℓ σ ε α) = fail e := rfl

/-! ## Alone -/

section Run

/-- The outcome of the program alone, from a state. -/
def run : Prog ℓ σ ε α → σ → Except ε α × σ
  | ret a, s => (.ok a, s)
  | fail e, s => (.error e, s)
  | act _ update next, s => (next s).run (update s)

/-- What follows a run, where it ends well. -/
def continueWith (f : α → Prog ℓ σ ε β) : Except ε α × σ → Except ε β × σ
  | (.ok a, s) => (f a).run s
  | (.error e, s) => (.error e, s)

@[simp] theorem run_ret (a : α) (s : σ) : (ret a : Prog ℓ σ ε α).run s = (.ok a, s) := rfl

@[simp] theorem run_fail (e : ε) (s : σ) : (fail e : Prog ℓ σ ε α).run s = (.error e, s) := rfl

@[simp] theorem continueWith_ok (f : α → Prog ℓ σ ε β) (a : α) (s : σ) :
    continueWith f (.ok a, s) = (f a).run s := rfl

@[simp] theorem continueWith_error (f : α → Prog ℓ σ ε β) (e : ε) (s : σ) :
    continueWith f (.error e, s) = (.error e, s) := rfl

theorem run_bind (x : Prog ℓ σ ε α) (f : α → Prog ℓ σ ε β) (s : σ) :
    (x >>= f).run s = continueWith f (x.run s) := by
  induction x generalizing s with
  | ret a => rfl
  | fail e => rfl
  | act label update next ih => exact ih s (update s)

theorem run_ofExcept (x : Except ε α) (s : σ) : (ofExcept x : Prog ℓ σ ε α).run s = (x, s) := by
  cases x <;> rfl

@[simp] theorem run_atomic (label : ℓ) (f : σ → Except ε α × σ) (s : σ) :
    (atomic label f).run s = f s :=
  run_ofExcept _ _

@[simp] theorem run_reads (label : ℓ) (f : σ → Except ε α) (s : σ) :
    (reads label f).run s = (f s, s) :=
  run_atomic _ _ _

/-- A run that ends well has gone through its parts. -/
theorem run_bind_ok {x : Prog ℓ σ ε α} {f : α → Prog ℓ σ ε β} {s s' : σ} {b : β}
    (h : (x >>= f).run s = (.ok b, s')) :
    ∃ a t, x.run s = (.ok a, t) ∧ (f a).run t = (.ok b, s') := by
  rw [run_bind] at h
  rcases hx : x.run s with ⟨r, t⟩
  rw [hx] at h
  cases r with
  | error e => cases h
  | ok a => exact ⟨a, t, rfl, h⟩

end Run

/-! ## Promises -/

section Promises

/-- Whatever the state has become in between: each act from a state with `R`, which may depend on
its label, is a change by `G`, and a value that comes out has `Q`. -/
def Promises (R : ℓ → σ → Prop) (G : σ → σ → Prop) (Q : α → Prop) : Prog ℓ σ ε α → Prop
  | ret a => Q a
  | fail _ => True
  | act label update next => ∀ s, R label s → G s (update s) ∧ (next s).Promises R G Q

variable {R : ℓ → σ → Prop} {G : σ → σ → Prop} {Q Q' : α → Prop} {P : β → Prop}

theorem promises_ofExcept {x : Except ε α} (h : ∀ a, x = .ok a → Q a) :
    (ofExcept x : Prog ℓ σ ε α).Promises R G Q := by
  cases x with
  | ok a => exact h a rfl
  | error e => trivial

theorem promises_atomic {label : ℓ} {f : σ → Except ε α × σ}
    (h : ∀ s, R label s → G s (f s).2 ∧ ∀ a, (f s).1 = .ok a → Q a) :
    (atomic label f).Promises R G Q :=
  fun s hs => ⟨(h s hs).1, promises_ofExcept (h s hs).2⟩

theorem promises_reads {label : ℓ} {f : σ → Except ε α} (hG : ∀ s, G s s)
    (h : ∀ s a, R label s → f s = .ok a → Q a) : (reads label f).Promises R G Q :=
  promises_atomic fun s hs => ⟨hG s, fun a => h s a hs⟩

theorem Promises.bind {x : Prog ℓ σ ε α} {f : α → Prog ℓ σ ε β} (hx : x.Promises R G Q)
    (hf : ∀ a, Q a → (f a).Promises R G P) : (x >>= f).Promises R G P := by
  induction x with
  | ret a => exact hf a hx
  | fail e => trivial
  | act label update next ih => exact fun s hs => ⟨(hx s hs).1, ih s (hx s hs).2⟩

theorem Promises.mono {x : Prog ℓ σ ε α} (hx : x.Promises R G Q) (hQ : ∀ a, Q a → Q' a) :
    x.Promises R G Q' := by
  induction x with
  | ret a => exact hQ a hx
  | fail e => trivial
  | act label update next ih => exact fun s hs => ⟨(hx s hs).1, ih s (hx s hs).2⟩

theorem Promises.changes {G' : σ → σ → Prop} {x : Prog ℓ σ ε α} (hx : x.Promises R G Q)
    (hG : ∀ s t, G s t → G' s t) : x.Promises R G' Q := by
  induction x with
  | ret a => exact hx
  | fail e => trivial
  | act label update next ih => exact fun s hs => ⟨hG _ _ (hx s hs).1, ih s (hx s hs).2⟩

/-- Alone, a program makes its changes one after the other. -/
theorem Promises.run {x : Prog ℓ σ ε α} (hx : x.Promises (fun _ _ => True) G Q)
    (hrefl : ∀ s, G s s) (htrans : ∀ s t u, G s t → G t u → G s u) (s : σ) :
    G s (x.run s).2 ∧ ∀ a, (x.run s).1 = .ok a → Q a := by
  induction x generalizing s with
  | ret a => exact ⟨hrefl s, fun b hb => Except.ok.inj hb ▸ hx⟩
  | fail e => exact ⟨hrefl s, fun b hb => (by cases hb)⟩
  | act label update next ih =>
    obtain ⟨hstep, hnext⟩ := hx s trivial
    obtain ⟨hG, hQ⟩ := ih s hnext (update s)
    exact ⟨htrans _ _ _ hstep hG, hQ⟩

/-! ## What the acts are -/

/-- Every act, from any state, is a change by `F` for its label. -/
def Acts (F : ℓ → σ → σ → Prop) : Prog ℓ σ ε α → Prop
  | ret _ => True
  | fail _ => True
  | act label update next => ∀ s, F label s (update s) ∧ (next s).Acts F

variable {F F' : ℓ → σ → σ → Prop}

theorem acts_ofExcept {x : Except ε α} : (ofExcept x : Prog ℓ σ ε α).Acts F := by
  cases x <;> trivial

theorem acts_atomic {label : ℓ} {f : σ → Except ε α × σ} (h : ∀ s, F label s (f s).2) :
    (atomic label f).Acts F :=
  fun s => ⟨h s, acts_ofExcept⟩

theorem Acts.bind {x : Prog ℓ σ ε α} {f : α → Prog ℓ σ ε β} (hx : x.Acts F)
    (hf : ∀ a, (f a).Acts F) : (x >>= f).Acts F := by
  induction x with
  | ret a => exact hf a
  | fail e => trivial
  | act label update next ih => exact fun s => ⟨(hx s).1, ih s (hx s).2⟩

/-- What is read is known to what follows. -/
theorem acts_reads_bind {label : ℓ} {f : σ → Except ε α} {g : α → Prog ℓ σ ε β}
    (h : ∀ s, F label s s) (hg : ∀ s a, f s = .ok a → (g a).Acts F) :
    (reads label f >>= g).Acts F := by
  intro s
  refine ⟨h s, ?_⟩
  change (ofExcept (f s) >>= g).Acts F
  cases hf : f s with
  | ok a => exact hg s a hf
  | error e => trivial

theorem Acts.mono {x : Prog ℓ σ ε α} (hx : x.Acts F) (h : ∀ label s t, F label s t → F' label s t) :
    x.Acts F' := by
  induction x with
  | ret a => trivial
  | fail e => trivial
  | act label update next ih => exact fun s => ⟨h _ _ _ (hx s).1, ih s (hx s).2⟩

theorem Acts.promises {x : Prog ℓ σ ε α} (hx : x.Acts F)
    (h : ∀ label s t, R label s → F label s t → G s t) : x.Promises R G (fun _ => True) := by
  induction x with
  | ret a => trivial
  | fail e => trivial
  | act label update next ih => exact fun s hs => ⟨h _ _ _ hs (hx s).1, ih s (hx s).2⟩

/-- What every act keeps, a run keeps. -/
theorem Acts.run {J : σ → Prop} {x : Prog ℓ σ ε α} (hx : x.Acts F)
    (hJ : ∀ label s t, F label s t → J s → J t) {s : σ} (h : J s) : J (x.run s).2 := by
  induction x generalizing s with
  | ret a => exact h
  | fail e => exact h
  | act label update next ih => exact ih s (hx s).2 (hJ _ _ _ (hx s).1 h)

end Promises

/-! ## Deadlines -/

section Deadlines

/-- The program with time for so many acts: where it needs more, it is dropped and has no value. -/
def within : Prog ℓ σ ε α → ℕ → Prog ℓ σ ε (Option α)
  | ret a, _ => ret (some a)
  | fail e, _ => fail e
  | act _ _ _, 0 => ret none
  | act label update next, n + 1 => act label update fun s => (next s).within n

/-- A program that is dropped has acted as it would have. -/
theorem Acts.within {F : ℓ → σ → σ → Prop} {x : Prog ℓ σ ε α} (hx : x.Acts F) (n : ℕ) :
    (x.within n).Acts F := by
  induction x generalizing n with
  | ret a => trivial
  | fail e => trivial
  | act label update next ih =>
    cases n with
    | zero => trivial
    | succ n => exact fun s => ⟨(hx s).1, ih s (hx s).2 n⟩

end Deadlines

/-! ## Acts with nothing but success after them -/

section SafeAfter

/-- Alone, the program ends with a value. -/
def EndsWell (x : Prog ℓ σ ε α) (s : σ) : Prop := ∃ a, (x.run s).1 = .ok a

/-- In the run of the program alone, what follows a change by `w` ends well. -/
def SafeAfter (w : σ → σ → Prop) : Prog ℓ σ ε α → σ → Prop
  | ret _, _ => True
  | fail _, _ => True
  | act _ update next, s =>
    (w s (update s) → (next s).EndsWell (update s)) ∧ (next s).SafeAfter w (update s)

variable {w : σ → σ → Prop} {F : ℓ → σ → σ → Prop} {J : σ → Prop}

/-- A run that fails has made none of these changes. -/
theorem SafeAfter.run_error {x : Prog ℓ σ ε α} {s : σ} {e : ε} (hx : x.Acts F)
    (hsafe : x.SafeAfter w s) (he : (x.run s).1 = .error e)
    (hJ : ∀ label s t, F label s t → ¬ w s t → J s → J t) (h : J s) : J (x.run s).2 := by
  induction x generalizing s with
  | ret a => exact h
  | fail e => exact h
  | act label update next ih =>
    refine ih s (hx s).2 hsafe.2 he (hJ _ _ _ (hx s).1 (fun hw => ?_) h)
    obtain ⟨a, ha⟩ := hsafe.1 hw
    exact absurd (he.symm.trans ha) nofun

end SafeAfter

/-! ## What may happen -/

section May

variable (R : ℓ → σ → Prop)

/-- The program may end with this value, where others see to it that every act is from a state
with `R`. -/
def MayReturn : Prog ℓ σ ε α → α → Prop
  | ret b, a => b = a
  | fail _, _ => False
  | act label _ next, a => ∃ s, R label s ∧ (next s).MayReturn a

/-- The program may come to an act whose label has `L`. -/
def MayAct (L : ℓ → Prop) : Prog ℓ σ ε α → Prop
  | ret _ => False
  | fail _ => False
  | act label _ next => ∃ s, R label s ∧ (L label ∨ (next s).MayAct L)

variable {R} {L : ℓ → Prop} {x : Prog ℓ σ ε α} {f : α → Prog ℓ σ ε β}

@[simp] theorem mayReturn_ret {a b : α} : (ret b : Prog ℓ σ ε α).MayReturn R a ↔ b = a := Iff.rfl

@[simp] theorem mayAct_ret {a : α} : ¬ (ret a : Prog ℓ σ ε α).MayAct R L := id

@[simp] theorem mayAct_fail {e : ε} : ¬ (fail e : Prog ℓ σ ε α).MayAct R L := id

theorem mayReturn_bind {b : β} :
    (x >>= f).MayReturn R b ↔ ∃ a, x.MayReturn R a ∧ (f a).MayReturn R b := by
  induction x with
  | ret a => simp
  | fail e => exact ⟨False.elim, fun h => h.choose_spec.1⟩
  | act label update next ih =>
    constructor
    · rintro ⟨s, hs, h⟩
      obtain ⟨a, ha, hb⟩ := (ih s).mp h
      exact ⟨a, ⟨s, hs, ha⟩, hb⟩
    · rintro ⟨a, ⟨s, hs, ha⟩, hb⟩
      exact ⟨s, hs, (ih s).mpr ⟨a, ha, hb⟩⟩

theorem mayAct_bind :
    (x >>= f).MayAct R L ↔ x.MayAct R L ∨ ∃ a, x.MayReturn R a ∧ (f a).MayAct R L := by
  induction x with
  | ret a => simp
  | fail e =>
    exact ⟨False.elim, fun h => h.elim id fun h => h.choose_spec.1⟩
  | act label update next ih =>
    constructor
    · rintro ⟨s, hs, hlabel | h⟩
      · exact .inl ⟨s, hs, .inl hlabel⟩
      · rcases (ih s).mp h with h | ⟨a, ha, h⟩
        · exact .inl ⟨s, hs, .inr h⟩
        · exact .inr ⟨a, ⟨s, hs, ha⟩, h⟩
    · rintro (⟨s, hs, hlabel | h⟩ | ⟨a, ⟨s, hs, ha⟩, h⟩)
      · exact ⟨s, hs, .inl hlabel⟩
      · exact ⟨s, hs, .inr ((ih s).mpr (.inl h))⟩
      · exact ⟨s, hs, .inr ((ih s).mpr (.inr ⟨a, ha, h⟩))⟩

theorem mayReturn_ofExcept {r : Except ε α} {a : α} :
    (ofExcept r : Prog ℓ σ ε α).MayReturn R a ↔ r = .ok a := by
  cases r with
  | ok b => simp
  | error e => exact ⟨False.elim, nofun⟩

theorem mayReturn_atomic {label : ℓ} {g : σ → Except ε α × σ} {a : α} :
    (atomic label g).MayReturn R a ↔ ∃ s, R label s ∧ (g s).1 = .ok a :=
  exists_congr fun _ => and_congr_right fun _ => mayReturn_ofExcept

theorem mayReturn_reads {label : ℓ} {g : σ → Except ε α} {a : α} :
    (reads label g).MayReturn R a ↔ ∃ s, R label s ∧ g s = .ok a :=
  mayReturn_atomic

/-- No act has such a label. -/
theorem Acts.not_mayAct (hx : x.Acts fun label _ _ => ¬ L label) : ¬ x.MayAct R L := by
  induction x with
  | ret a => exact id
  | fail e => exact id
  | act label update next ih =>
    rintro ⟨s, -, hlabel | h⟩
    · exact (hx s).1 hlabel
    · exact ih s (hx s).2 h

/-- A program that is dropped has not come further. -/
theorem MayAct.of_within {n : ℕ} (h : (x.within n).MayAct R L) : x.MayAct R L := by
  induction x generalizing n with
  | ret a => exact h
  | fail e => exact h
  | act label update next ih =>
    cases n with
    | zero => exact h.elim
    | succ n =>
      obtain ⟨s, hs, hlabel | h⟩ := h
      · exact ⟨s, hs, .inl hlabel⟩
      · exact ⟨s, hs, .inr (ih s h)⟩

theorem MayAct.exists_state (h : x.MayAct R L) : ∃ label s, R label s := by
  cases x with
  | ret a => exact h.elim
  | fail e => exact h.elim
  | act label update next =>
    obtain ⟨s, hs, -⟩ := h
    exact ⟨label, s, hs⟩

theorem not_mayAct_within_zero : ¬ (x.within 0).MayAct R L := by
  cases x <;> exact id

/-- The first act of the program, if it has any, has a label with `L`. -/
def Begins (L : ℓ → Prop) : Prog ℓ σ ε α → Prop
  | ret _ => True
  | fail _ => True
  | act label _ _ => L label

theorem Begins.bind (hx : x.Begins L) (hf : ∀ a, (f a).Begins L) : (x >>= f).Begins L := by
  cases x with
  | ret a => exact hf a
  | fail e => trivial
  | act label update next => exact hx

/-- Time for one act is enough. -/
theorem Begins.mayAct_within (hx : x.Begins L) {n : ℕ} :
    (x.within (n + 1)).MayAct R L ↔ x.MayAct R L := by
  refine ⟨MayAct.of_within, fun h => ?_⟩
  cases x with
  | ret a => exact h
  | fail e => exact h
  | act label update next =>
    obtain ⟨s, hs, -⟩ := h
    exact ⟨s, hs, .inl hx⟩

end May

end Prog

/-! ## Together -/

/-- A program on its way, and the call it is the body of. -/
structure Thread (κ ℓ σ ε α : Type) where
  call : κ
  started : Bool
  rest : Prog ℓ σ ε α

/-- The thread is between its first act and its end. -/
def Thread.InFlight {κ ℓ σ ε α : Type} (t : Thread κ ℓ σ ε α) : Prop :=
  t.started = true ∧ ∃ label update next, t.rest = .act label update next

structure Pool (κ ℓ σ ε α : Type) where
  threads : List (Thread κ ℓ σ ε α)
  shared : σ

namespace Pool

open Prog
open Relation (ReflTransGen)

variable {κ ℓ σ ε α : Type}

/-- Thread `i` makes its next act, with this label. -/
inductive Act (p : Pool κ ℓ σ ε α) (i : Nat) (label : ℓ) : Pool κ ℓ σ ε α → Prop
  | mk (call : κ) (started : Bool) (update : σ → σ) (next : σ → Prog ℓ σ ε α)
      (h : p.threads[i]? = some ⟨call, started, .act label update next⟩) :
      Act p i label ⟨p.threads.set i ⟨call, true, next p.shared⟩, update p.shared⟩

/-- What is left of a program with this outcome. -/
def ended : Except ε α → Prog ℓ σ ε α
  | .ok a => .ret a
  | .error e => .fail e

/-- A thread may run to its end while the others stand still; what it keeps it keeps on the
way. -/
theorem reaches_run {J : σ → Prop} (x : Prog ℓ σ ε α)
    (hx : x.Promises (fun _ s => J s) (fun _ s' => J s') (fun _ => True)) {p : Pool κ ℓ σ ε α}
    (hJ : J p.shared) {i : Nat} {call : κ} {started : Bool}
    (h : p.threads[i]? = some ⟨call, started, x⟩) :
    ∃ started', ReflTransGen (fun p p' => (∃ label, p.Act i label p') ∧ J p.shared) p
      ⟨p.threads.set i ⟨call, started', ended (x.run p.shared).1⟩, (x.run p.shared).2⟩ := by
  induction x generalizing p started with
  | ret a =>
    obtain ⟨hlt, hi⟩ := List.getElem?_eq_some_iff.mp h
    have hset : p.threads.set i ⟨call, started, .ret a⟩ = p.threads := by
      rw [← hi, List.set_getElem_self]
    exact ⟨started, by rw [run_ret, ended, hset]⟩
  | fail e =>
    obtain ⟨hlt, hi⟩ := List.getElem?_eq_some_iff.mp h
    have hset : p.threads.set i ⟨call, started, .fail e⟩ = p.threads := by
      rw [← hi, List.set_getElem_self]
    exact ⟨started, by rw [run_fail, ended, hset]⟩
  | act label update next ih =>
    obtain ⟨hkeeps, hnext⟩ := hx p.shared hJ
    have hlt := (List.getElem?_eq_some_iff.mp h).1
    have hset : (p.threads.set i ⟨call, true, next p.shared⟩)[i]? =
        some ⟨call, true, next p.shared⟩ := List.getElem?_set_self hlt
    obtain ⟨started', hrun⟩ := ih p.shared hnext (p := ⟨_, update p.shared⟩) hkeeps hset
    rw [List.set_set] at hrun
    exact ⟨started', .head ⟨⟨label, .mk call started update next h⟩, hJ⟩ hrun⟩

/-- A call comes in; it has not done anything yet. -/
def arrive (body : κ → Prog ℓ σ ε α) (p : Pool κ ℓ σ ε α) (call : κ) : Pool κ ℓ σ ε α :=
  { p with threads := p.threads ++ [⟨call, false, body call⟩] }

section Rules

variable {body : κ → Prog ℓ σ ε α} {R : ℓ → σ → Prop} {G : σ → σ → Prop} {Q : α → Prop}
  {P : κ → α → Prop} {p p' : Pool κ ℓ σ ε α}

/-- What is left of every thread promises what is promised for its call. -/
def PromisingEach (R : ℓ → σ → Prop) (G : σ → σ → Prop) (P : κ → α → Prop)
    (p : Pool κ ℓ σ ε α) : Prop :=
  ∀ t ∈ p.threads, t.rest.Promises R G (P t.call)

/-- An act where its rely holds is a change by `G`. -/
theorem PromisingEach.act (h : p.PromisingEach R G P) {i : Nat} {label : ℓ} (hR : R label p.shared)
    (hact : p.Act i label p') : p'.PromisingEach R G P ∧ G p.shared p'.shared := by
  cases hact with
  | mk call started update next hi =>
    obtain ⟨hG, hnext⟩ := h _ (List.mem_of_getElem? hi) p.shared hR
    refine ⟨fun t ht => ?_, hG⟩
    rcases List.mem_or_eq_of_mem_set ht with ht | rfl
    · exact h t ht
    · exact hnext

theorem PromisingEach.arrive (h : p.PromisingEach R G P) {call : κ}
    (hcall : (body call).Promises R G (P call)) : (p.arrive body call).PromisingEach R G P := by
  intro t ht
  rcases List.mem_append.mp ht with ht | ht
  · exact h t ht
  · obtain rfl := List.mem_singleton.mp ht
    exact hcall

/-- What is left of every thread promises what the bodies promise. -/
def Promising (R : ℓ → σ → Prop) (G : σ → σ → Prop) (Q : α → Prop) (p : Pool κ ℓ σ ε α) : Prop :=
  ∀ t ∈ p.threads, t.rest.Promises R G Q

theorem Promising.act (h : p.Promising R G Q) {i : Nat} {label : ℓ} (hR : R label p.shared)
    (hact : p.Act i label p') : p'.Promising R G Q ∧ G p.shared p'.shared := by
  have h : p.PromisingEach R G (fun _ => Q) := h
  exact h.act hR hact

theorem Promising.arrive (h : p.Promising R G Q) {call : κ} (hcall : (body call).Promises R G Q) :
    (p.arrive body call).Promising R G Q := by
  have h : p.PromisingEach R G (fun _ => Q) := h
  exact h.arrive hcall

end Rules

end Pool
