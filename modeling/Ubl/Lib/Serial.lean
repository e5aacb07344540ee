import Ubl.Lib.Prog

/-!
# Pools in which one program runs at a time

`Leads` follows one program through a run in which no other one acts, and counts: each act may
cost something.  Where no program starts while another is between its first act and its end, a
pool does what its programs do one after the other; so what every single one of them keeps, from
its start to its end, the pool keeps.

    each body leads from `I` to `I`, and nothing starts while another is in flight
        →  the results of the pool, the state and the count are in `I` whenever nothing is in
           flight                                                          (Pool.serial)

In any order of the acts, what comes into a growing state is owed to one of the calls
(`Pool.Run.owed`).
-/

namespace Prog

variable {ℓ σ ε α β : Type}

section Leads

/-- From a state and a count: as long as the acts are permitted, `S` holds, and an end has `Q`. -/
def Leads (P : ℓ → σ → Prop) (cost : ℓ → σ → σ → Nat) (S : σ → Nat → Prop)
    (Q : Except ε α → σ → Nat → Prop) : Prog ℓ σ ε α → σ → Nat → Prop
  | ret a, s, n => Q (.ok a) s n
  | fail e, s, n => Q (.error e) s n
  | act label update next, s, n => S s n ∧
    (P label s → (next s).Leads P cost S Q (update s) (n + cost label s (update s)))

variable {P : ℓ → σ → Prop} {cost : ℓ → σ → σ → Nat} {S : σ → Nat → Prop}
  {Q Q' : Except ε α → σ → Nat → Prop} {Q₂ : Except ε β → σ → Nat → Prop} {s : σ} {n : Nat}

theorem leads_ofExcept {x : Except ε α} (h : Q x s n) :
    (ofExcept x : Prog ℓ σ ε α).Leads P cost S Q s n := by
  cases x <;> exact h

theorem leads_atomic {label : ℓ} {f : σ → Except ε α × σ} (hS : S s n)
    (h : P label s → Q (f s).1 (f s).2 (n + cost label s (f s).2)) :
    (atomic label f).Leads P cost S Q s n :=
  ⟨hS, fun hP => leads_ofExcept (h hP)⟩

/-- A program, and then the next one where it ends well. -/
theorem Leads.bind {x : Prog ℓ σ ε α} {f : α → Prog ℓ σ ε β}
    (hx : x.Leads P cost S
      (fun r s n => match r with
        | .ok a => (f a).Leads P cost S Q₂ s n
        | .error e => Q₂ (.error e) s n) s n) :
    (x >>= f).Leads P cost S Q₂ s n := by
  induction x generalizing s n with
  | ret a => exact hx
  | fail e => exact hx
  | act label update next ih => exact ⟨hx.1, fun hP => ih s (hx.2 hP)⟩

theorem Leads.mono {x : Prog ℓ σ ε α} (hx : x.Leads P cost S Q s n)
    (hQ : ∀ r s n, Q r s n → Q' r s n) : x.Leads P cost S Q' s n := by
  induction x generalizing s n with
  | ret a => exact hQ _ _ _ hx
  | fail e => exact hQ _ _ _ hx
  | act label update next ih => exact ⟨hx.1, fun hP => ih s (hx.2 hP)⟩

/-- Fewer permissions. -/
theorem Leads.permit {P' : ℓ → σ → Prop} {x : Prog ℓ σ ε α} (hx : x.Leads P cost S Q s n)
    (hP : ∀ label s, P' label s → P label s) : x.Leads P' cost S Q s n := by
  induction x generalizing s n with
  | ret a => exact hx
  | fail e => exact hx
  | act label update next ih => exact ⟨hx.1, fun h => ih s (hx.2 (hP label s h))⟩

/-- Where everything is permitted, a run comes to its end. -/
theorem Leads.run {x : Prog ℓ σ ε α}
    (hx : x.Leads (fun _ _ => True) (fun _ _ _ => 0) (fun _ _ => True) Q s n) :
    Q (x.run s).1 (x.run s).2 n := by
  induction x generalizing s with
  | ret a => exact hx
  | fail e => exact hx
  | act label update next ih => exact ih s (hx.2 trivial)

/-- Every act keeps `J`, whatever the program has seen. -/
def Keeps (cost : ℓ → σ → σ → Nat) (J : σ → Nat → Prop) : Prog ℓ σ ε α → Prop
  | ret _ => True
  | fail _ => True
  | act label update next => ∀ s, (∀ n, J s n → J (update s) (n + cost label s (update s))) ∧
    (next s).Keeps cost J

variable {J : σ → Nat → Prop}

theorem keeps_ofExcept {x : Except ε α} : (ofExcept x : Prog ℓ σ ε α).Keeps cost J := by
  cases x <;> trivial

theorem keeps_atomic {label : ℓ} {f : σ → Except ε α × σ}
    (h : ∀ s n, J s n → J (f s).2 (n + cost label s (f s).2)) : (atomic label f).Keeps cost J :=
  fun s => ⟨h s, keeps_ofExcept⟩

theorem Keeps.bind {x : Prog ℓ σ ε α} {f : α → Prog ℓ σ ε β} (hx : x.Keeps cost J)
    (hf : ∀ a, (f a).Keeps cost J) : (x >>= f).Keeps cost J := by
  induction x with
  | ret a => exact hf a
  | fail e => trivial
  | act label update next ih => exact fun s => ⟨(hx s).1, ih s (hx s).2⟩

theorem Acts.keeps {F : ℓ → σ → σ → Prop} {x : Prog ℓ σ ε α} (hx : x.Acts F)
    (h : ∀ label s t, F label s t → ∀ n, J s n → J t (n + cost label s t)) : x.Keeps cost J := by
  induction x with
  | ret a => trivial
  | fail e => trivial
  | act label update next ih => exact fun s => ⟨h _ _ _ (hx s).1, ih s (hx s).2⟩

theorem Keeps.leads {x : Prog ℓ σ ε α} (hx : x.Keeps cost J) (hS : ∀ s n, J s n → S s n)
    (h : J s n) : x.Leads P cost S (fun r t m => J t m ∧ x.run s = (r, t)) s n := by
  induction x generalizing s n with
  | ret a => exact ⟨h, rfl⟩
  | fail e => exact ⟨h, rfl⟩
  | act label update next ih =>
    exact ⟨hS s n h, fun _ => ih s (hx s).2 ((hx s).1 n h)⟩

/-- A part that keeps `J`, and then a program that starts out from `J`. -/
theorem Keeps.leads_bind {x : Prog ℓ σ ε α} {f : α → Prog ℓ σ ε β} (hx : x.Keeps cost J)
    (hS : ∀ s n, J s n → S s n) (h : J s n)
    (herror : ∀ e t m, J t m → x.run s = (.error e, t) → Q₂ (.error e) t m)
    (hok : ∀ a t m, J t m → x.run s = (.ok a, t) → (f a).Leads P cost S Q₂ t m) :
    (x >>= f).Leads P cost S Q₂ s n := by
  refine ((hx.leads hS h).mono fun r t m hJ => ?_).bind
  cases r with
  | ok a => exact hok a t m hJ.1 hJ.2
  | error e => exact herror e t m hJ.1 hJ.2

/-- The run of a program alone, with the cost of its acts added to a count. -/
def spend (cost : ℓ → σ → σ → Nat) : Prog ℓ σ ε α → σ → Nat → Except ε α × σ × Nat
  | ret a, s, n => (.ok a, s, n)
  | fail e, s, n => (.error e, s, n)
  | act label update next, s, n =>
    (next s).spend cost (update s) (n + cost label s (update s))

/-- The cost does not matter to the run. -/
theorem spend_fst (cost : ℓ → σ → σ → Nat) (x : Prog ℓ σ ε α) (s : σ) (n : Nat) :
    (x.spend cost s n).1 = (x.run s).1 := by
  induction x generalizing s n with
  | ret a => rfl
  | fail e => rfl
  | act label update next ih => exact ih s _ _

end Leads

end Prog

namespace Pool

open Prog

variable {κ ℓ σ ε α : Type}

section

variable (body : κ → Prog ℓ σ ε α) (cost : ℓ → σ → σ → Nat)

/-- Runs from an empty pool, each act from a pool with `R`, with the cost of the acts. -/
inductive Run (R : Pool κ ℓ σ ε α → Nat → ℓ → Prop) (s₀ : σ) : Pool κ ℓ σ ε α → Nat → Prop
  | start : Run R s₀ ⟨[], s₀⟩ 0
  | arrives {p : Pool κ ℓ σ ε α} {n : Nat} (call : κ) (hrun : Run R s₀ p n) :
      Run R s₀ (p.arrive body call) n
  | acts {p p' : Pool κ ℓ σ ε α} {n i : Nat} {label : ℓ} (hrun : Run R s₀ p n)
      (hR : R p i label) (hact : p.Act i label p') :
      Run R s₀ p' (n + cost label p.shared p'.shared)

/-- The values that have come out. -/
def results (p : Pool κ ℓ σ ε α) : Set α := {a | ∃ t ∈ p.threads, t.rest = .ret a}

/-- Nothing starts while something is on its way, and an act is permitted to its call. -/
structure OneAtATime (allowed : κ → ℓ → σ → Prop) (p : Pool κ ℓ σ ε α) (i : Nat) (label : ℓ) :
    Prop where
  alone : ∀ t, p.threads[i]? = some t → t.started = false → ∀ u ∈ p.threads, ¬ u.InFlight
  permitted : ∀ t, p.threads[i]? = some t → allowed t.call label p.shared

/-- The end of a program that started out with these results. -/
def Extends (I : Set α → σ → Nat → Prop) (A : Set α) : Except ε α → σ → Nat → Prop
  | .ok a, s, n => I (insert a A) s n
  | .error _, s, n => I A s n

end

/-- A thread may run to its end while the others stand still. -/
theorem Run.finish {body : κ → Prog ℓ σ ε α} {cost : ℓ → σ → σ → Nat}
    {R : Pool κ ℓ σ ε α → Nat → ℓ → Prop} {s₀ : σ} (x : Prog ℓ σ ε α) {threads : List (Thread κ ℓ σ ε α)}
    {s : σ} {n i : Nat} {call : κ} {started : Bool} (hrun : Run body cost R s₀ ⟨threads, s⟩ n)
    (hi : threads[i]? = some ⟨call, started, x⟩)
    (hR : ∀ (t : Thread κ ℓ σ ε α) s label, t.call = call → R ⟨threads.set i t, s⟩ i label) :
    ∃ started', Run body cost R s₀
      ⟨threads.set i ⟨call, started', ended (x.spend cost s n).1⟩, (x.spend cost s n).2.1⟩
      (x.spend cost s n).2.2 := by
  have hset : threads.set i ⟨call, started, x⟩ = threads := by
    obtain ⟨hlt, hget⟩ := List.getElem?_eq_some_iff.mp hi
    rw [← hget, List.set_getElem_self]
  induction x generalizing threads s n started with
  | ret a => exact ⟨started, by rw [spend, ended, hset]; exact hrun⟩
  | fail e => exact ⟨started, by rw [spend, ended, hset]; exact hrun⟩
  | act label update next ih =>
    have hlt := (List.getElem?_eq_some_iff.mp hi).1
    have hallowed : R ⟨threads, s⟩ i label := hset ▸ hR ⟨call, started, _⟩ s label rfl
    have hstep := hrun.acts hallowed (.mk call started update next hi)
    obtain ⟨started', hend⟩ := ih s hstep (List.getElem?_set_self hlt)
      (fun t s label ht => by rw [List.set_set]; exact hR t s label ht) (by rw [List.set_set])
    rw [List.set_set] at hend
    exact ⟨started', hend⟩

/-- Where none is on its way, a call may come in and run to its end. -/
theorem Run.alone {body : κ → Prog ℓ σ ε α} {cost : ℓ → σ → σ → Nat} {allowed : κ → ℓ → σ → Prop}
    {s₀ s : σ} {threads : List (Thread κ ℓ σ ε α)} {n : Nat} {call : κ}
    (hrun : Run body cost (OneAtATime allowed) s₀ ⟨threads, s⟩ n)
    (hidle : ∀ t ∈ threads, ¬ t.InFlight) (hallowed : ∀ label s, allowed call label s) :
    ∃ started, Run body cost (OneAtATime allowed) s₀
      ⟨threads ++ [⟨call, started, ended ((body call).spend cost s n).1⟩],
        ((body call).spend cost s n).2.1⟩ ((body call).spend cost s n).2.2 := by
  have hset (t t' : Thread κ ℓ σ ε α) :
      (threads ++ [t']).set threads.length t = threads ++ [t] := by simp
  have harrived : Run body cost (OneAtATime allowed) s₀
      ⟨threads ++ [⟨call, false, body call⟩], s⟩ n := hrun.arrives call
  have hi : (threads ++ [(⟨call, false, body call⟩ : Thread κ ℓ σ ε α)])[threads.length]? =
      some ⟨call, false, body call⟩ := by simp
  obtain ⟨started, hend⟩ := Run.finish (body call) harrived hi
    fun t s label ht => by
      rw [hset]
      refine ⟨fun u hu hstarted v hv hflight => ?_, fun u hu => ?_⟩
      · obtain rfl : t = u := by simpa using hu
        rcases List.mem_append.mp hv with hv | hv
        · exact hidle v hv hflight
        · obtain rfl := List.mem_singleton.mp hv
          rw [hflight.1] at hstarted
          cases hstarted
      · obtain rfl : t = u := by simpa using hu
        exact ht ▸ hallowed label s
  rw [hset] at hend
  exact ⟨started, hend⟩

/-- What comes into the state with the acts of a program is owed to its call; so is, in a run,
whatever was not there from the start.  The state only grows, so all are below the last one. -/
theorem Run.owed {ι : Type} {body : κ → Prog ℓ σ ε α} {cost : ℓ → σ → σ → Nat}
    {R : Pool κ ℓ σ ε α → Nat → ℓ → Prop} {s₀ : σ} {p : Pool κ ℓ σ ε α} {n : Nat} (le : σ → σ → Prop)
    (htrans : ∀ s t u, le s t → le t u → le s u) (items : σ → Set ι) (O : κ → ι → Prop) (last : σ)
    (hgrows : ∀ call, (body call).Acts fun _ => le)
    (hbody : ∀ call, (body call).Promises (fun _ s => le s last)
      (fun s t => ∀ x ∈ items t, x ∈ items s ∨ O call x) (fun _ => True))
    (hrun : Run body cost R s₀ p n) (hlast : le p.shared last) :
    ∀ x ∈ items p.shared, x ∈ items s₀ ∨ ∃ t ∈ p.threads, O t.call x := by
  suffices h : (∀ t ∈ p.threads, t.rest.Acts fun _ => le) ∧ (le p.shared last →
      (∀ t ∈ p.threads, t.rest.Promises (fun _ s => le s last)
        (fun s s' => ∀ x ∈ items s', x ∈ items s ∨ O t.call x) (fun _ => True)) ∧
      ∀ x ∈ items p.shared, x ∈ items s₀ ∨ ∃ t ∈ p.threads, O t.call x) from (h.2 hlast).2
  clear hlast
  induction hrun with
  | start =>
    exact ⟨fun t ht => (by cases ht), fun _ => ⟨fun t ht => (by cases ht), fun x hx => .inl hx⟩⟩
  | @arrives p n call _ ih =>
    refine ⟨fun t ht => ?_, fun hlast => ⟨fun t ht => ?_, fun x hx => ?_⟩⟩
    · rcases List.mem_append.mp ht with ht | ht
      · exact ih.1 t ht
      · obtain rfl := List.mem_singleton.mp ht
        exact hgrows call
    · rcases List.mem_append.mp ht with ht | ht
      · exact (ih.2 hlast).1 t ht
      · obtain rfl := List.mem_singleton.mp ht
        exact hbody call
    · refine ((ih.2 hlast).2 x hx).imp id ?_
      rintro ⟨t, ht, hO⟩
      exact ⟨t, List.mem_append_left _ ht, hO⟩
  | @acts p p' n i label _ _ hact ih =>
    cases hact with
    | mk call started update next hi =>
      have hmem := List.mem_of_getElem? hi
      have hself : (⟨call, true, next p.shared⟩ : Thread κ ℓ σ ε α) ∈
          p.threads.set i ⟨call, true, next p.shared⟩ :=
        List.mem_set (List.getElem?_eq_some_iff.mp hi).1 _
      obtain ⟨hle, hnext⟩ := ih.1 _ hmem p.shared
      refine ⟨fun t ht => ?_, fun hlast => ?_⟩
      · rcases List.mem_or_eq_of_mem_set ht with ht | rfl
        · exact ih.1 t ht
        · exact hnext
      have hbefore : le p.shared last := htrans _ _ _ hle hlast
      obtain ⟨hpromises, howed⟩ := ih.2 hbefore
      obtain ⟨hchange, hnext⟩ := hpromises _ hmem p.shared hbefore
      refine ⟨fun t ht => ?_, fun x hx => ?_⟩
      · rcases List.mem_or_eq_of_mem_set ht with ht | rfl
        · exact hpromises t ht
        · exact hnext
      rcases hchange x hx with hx | hO
      · refine (howed x hx).imp id ?_
        rintro ⟨t, ht, hO⟩
        obtain ⟨j, hj⟩ := List.mem_iff_getElem?.mp ht
        by_cases hij : i = j
        · subst hij
          obtain rfl := Option.some.inj (hi.symm.trans hj)
          exact ⟨_, hself, hO⟩
        · exact ⟨t, List.mem_iff_getElem?.mpr ⟨j, by rw [List.getElem?_set_ne hij, hj]⟩, hO⟩
      · exact .inr ⟨_, hself, hO⟩

/-! ## The rule -/

section Serial

variable {body : κ → Prog ℓ σ ε α} {cost : ℓ → σ → σ → Nat} {allowed : κ → ℓ → σ → Prop}
  {S : σ → Nat → Prop} {I : Set α → σ → Nat → Prop} {p p' : Pool κ ℓ σ ε α} {n : Nat}

theorem mem_results_set {i : Nat} {t t' : Thread κ ℓ σ ε α} {s : σ} (hi : p.threads[i]? = some t)
    (hrest : ∀ a, t.rest ≠ .ret a) {a : α} :
    a ∈ (⟨p.threads.set i t', s⟩ : Pool κ ℓ σ ε α).results ↔ t'.rest = .ret a ∨ a ∈ p.results := by
  have hlt := (List.getElem?_eq_some_iff.mp hi).1
  constructor
  · rintro ⟨u, hu, hret⟩
    rcases List.mem_or_eq_of_mem_set hu with hu | rfl
    · exact .inr ⟨u, hu, hret⟩
    · exact .inl hret
  · rintro (hret | ⟨u, hu, hret⟩)
    · exact ⟨t', List.mem_set hlt t', hret⟩
    · obtain ⟨j, hj⟩ := List.mem_iff_getElem?.mp hu
      have hij : i ≠ j := by
        rintro rfl
        obtain rfl := Option.some.inj (hi.symm.trans hj)
        exact hrest a hret
      exact ⟨u, List.mem_iff_getElem?.mpr ⟨j, by rw [List.getElem?_set_ne hij, hj]⟩, hret⟩

/-- Between two acts: nothing is on its way, or one thread is and leads back to `I`. -/
structure Orderly (body : κ → Prog ℓ σ ε α) (cost : ℓ → σ → σ → Nat)
    (allowed : κ → ℓ → σ → Prop) (S : σ → Nat → Prop) (I : Set α → σ → Nat → Prop)
    (p : Pool κ ℓ σ ε α) (n : Nat) : Prop where
  fresh : ∀ t ∈ p.threads, t.started = false → t.rest = body t.call
  turn : ((∀ t ∈ p.threads, ¬ t.InFlight) ∧ I p.results p.shared n) ∨
    ∃ (i : Nat) (t : Thread κ ℓ σ ε α), p.threads[i]? = some t ∧
      (∀ j (u : Thread κ ℓ σ ε α), p.threads[j]? = some u → u.InFlight → j = i) ∧
      (∃ s m, I p.results s m) ∧
      t.rest.Leads (allowed t.call) cost S (Extends I p.results) p.shared n ∧ t.InFlight

theorem Orderly.arrives (h : Orderly body cost allowed S I p n) {call : κ}
    (hret : ∀ a, body call ≠ .ret a) :
    Orderly body cost allowed S I (p.arrive body call) n := by
  have hresults : (p.arrive body call).results = p.results := by
    ext a
    constructor
    · rintro ⟨u, hu, hrest⟩
      rcases List.mem_append.mp hu with hu | hu
      · exact ⟨u, hu, hrest⟩
      · obtain rfl := List.mem_singleton.mp hu
        exact absurd hrest (hret a)
    · rintro ⟨u, hu, hrest⟩
      exact ⟨u, List.mem_append_left _ hu, hrest⟩
  have hnew : ¬ (⟨call, false, body call⟩ : Thread κ ℓ σ ε α).InFlight := fun hf => (by cases hf.1)
  refine ⟨fun t ht hstarted => ?_, ?_⟩
  · rcases List.mem_append.mp ht with ht | ht
    · exact h.fresh t ht hstarted
    · obtain rfl := List.mem_singleton.mp ht
      rfl
  · rw [hresults]
    rcases h.turn with ⟨hidle, hI⟩ | ⟨i, t, hi, honly, hold, hleads, hflight⟩
    · refine .inl ⟨fun t ht => ?_, hI⟩
      rcases List.mem_append.mp ht with ht | ht
      · exact hidle t ht
      · obtain rfl := List.mem_singleton.mp ht
        exact hnew
    · have hlt := (List.getElem?_eq_some_iff.mp hi).1
      refine .inr ⟨i, t, (List.getElem?_append_left hlt).trans hi, fun j u hj hu => ?_, hold,
        hleads, hflight⟩
      by_cases hjlt : j < p.threads.length
      · exact honly j u ((List.getElem?_append_left hjlt).symm.trans hj) hu
      · rw [arrive, List.getElem?_append_right (Nat.le_of_not_lt hjlt)] at hj
        obtain rfl := List.mem_singleton.mp (List.mem_of_getElem? hj)
        exact absurd hu hnew

/-- The act of the thread whose turn it is. -/
theorem Orderly.ofLeads {i : Nat} {call : κ} {started : Bool} {label : ℓ} {update : σ → σ}
    {next : σ → Prog ℓ σ ε α} (hfresh : ∀ t ∈ p.threads, t.started = false → t.rest = body t.call)
    (hi : p.threads[i]? = some ⟨call, started, .act label update next⟩)
    (honly : ∀ j (u : Thread κ ℓ σ ε α), p.threads[j]? = some u → u.InFlight → j = i)
    (hold : ∃ s m, I p.results s m)
    (hleads : (next p.shared).Leads (allowed call) cost S (Extends I p.results)
      (update p.shared) n) :
    Orderly body cost allowed S I
      ⟨p.threads.set i ⟨call, true, next p.shared⟩, update p.shared⟩ n := by
  have hresults := fun a => @mem_results_set _ _ _ _ _ p i _ ⟨call, true, next p.shared⟩
    (update p.shared) hi (by simp) a
  have hlt := (List.getElem?_eq_some_iff.mp hi).1
  have hothers : ∀ j (u : Thread κ ℓ σ ε α), j ≠ i →
      (p.threads.set i ⟨call, true, next p.shared⟩)[j]? = some u → ¬ u.InFlight := by
    intro j u hne hj hu
    rw [List.getElem?_set_ne (Ne.symm hne)] at hj
    exact hne (honly j u hj hu)
  have hidle (hend : ¬ (⟨call, true, next p.shared⟩ : Thread κ ℓ σ ε α).InFlight) :
      ∀ u ∈ p.threads.set i ⟨call, true, next p.shared⟩, ¬ u.InFlight := by
    intro u hu
    obtain ⟨j, hj⟩ := List.mem_iff_getElem?.mp hu
    by_cases hji : j = i
    · subst hji
      rw [List.getElem?_set_self hlt] at hj
      obtain rfl := Option.some.inj hj
      exact hend
    · exact hothers j u hji hj
  refine ⟨fun t ht hstarted => ?_, ?_⟩
  · rcases List.mem_or_eq_of_mem_set ht with ht | rfl
    · exact hfresh t ht hstarted
    · cases hstarted
  · generalize hx : next p.shared = x at *
    cases x with
    | ret a =>
      have hset : (⟨p.threads.set i ⟨call, true, .ret a⟩, update p.shared⟩ :
          Pool κ ℓ σ ε α).results = insert a p.results := by
        ext b
        rw [hresults, Set.mem_insert_iff]
        simp [eq_comm]
      exact .inl ⟨hidle (by simp [Thread.InFlight]), hset ▸ hleads⟩
    | fail e =>
      have hset : (⟨p.threads.set i ⟨call, true, .fail e⟩, update p.shared⟩ :
          Pool κ ℓ σ ε α).results = p.results := by
        ext b
        rw [hresults]
        simp
      exact .inl ⟨hidle (by simp [Thread.InFlight]), hset ▸ hleads⟩
    | act label' update' next' =>
      have hset : (⟨p.threads.set i ⟨call, true, .act label' update' next'⟩, update p.shared⟩ :
          Pool κ ℓ σ ε α).results = p.results := by
        ext b
        rw [hresults]
        simp
      refine .inr ⟨i, _, List.getElem?_set_self hlt, fun j u hj hu => ?_, hset ▸ hold,
        hset ▸ hleads, rfl, _, _, _, rfl⟩
      by_contra hne
      exact hothers j u hne hj hu

variable (hbody : ∀ call A s n, I A s n →
    (body call).Leads (allowed call) cost S (Extends I A) s n)

include hbody

theorem Orderly.acts (h : Orderly body cost allowed S I p n) {i : Nat} {label : ℓ}
    (hR : OneAtATime allowed p i label) (hact : p.Act i label p') :
    Orderly body cost allowed S I p' (n + cost label p.shared p'.shared) := by
  cases hact with
  | mk call started update next hi =>
    have hpermitted := hR.permitted _ hi
    cases started with
    | false =>
      have hidle := hR.alone _ hi rfl
      have hrest := h.fresh _ (List.mem_of_getElem? hi) rfl
      have hI : I p.results p.shared n := by
        rcases h.turn with ⟨-, hI⟩ | ⟨j, u, hj, -, -, -, hu⟩
        · exact hI
        · exact absurd hu (hidle u (List.mem_of_getElem? hj))
      have hleads := hbody call _ _ _ hI
      rw [← hrest] at hleads
      refine .ofLeads h.fresh hi (fun j u hj hu => ?_) ⟨_, _, hI⟩ (hleads.2 hpermitted)
      exact absurd hu (hidle u (List.mem_of_getElem? hj))
    | true =>
      have hflight : (⟨call, true, .act label update next⟩ : Thread κ ℓ σ ε α).InFlight :=
        ⟨rfl, _, _, _, rfl⟩
      rcases h.turn with ⟨hidle, -⟩ | ⟨j, u, hj, honly, hold, hleads, -⟩
      · exact absurd hflight (hidle _ (List.mem_of_getElem? hi))
      · obtain rfl := honly i _ hi hflight
        obtain rfl := Option.some.inj (hi.symm.trans hj)
        exact .ofLeads h.fresh hi honly hold (hleads.2 hpermitted)

/-- The rule: what every body keeps alone, the pool keeps. -/
theorem serial (hret : ∀ call a, body call ≠ .ret a) (hS : ∀ A s n, I A s n → S s n) {s₀ : σ}
    (h0 : I ∅ s₀ 0) (hrun : Run body cost (OneAtATime allowed) s₀ p n) :
    (∃ s m, I p.results s m) ∧ S p.shared n := by
  have horderly : Orderly body cost allowed S I p n := by
    induction hrun with
    | start =>
      have hempty : (⟨[], s₀⟩ : Pool κ ℓ σ ε α).results = ∅ :=
        Set.eq_empty_iff_forall_notMem.mpr fun a ⟨t, ht, _⟩ => (by cases ht)
      exact ⟨fun t ht => (by cases ht), .inl ⟨fun t ht => (by cases ht), hempty ▸ h0⟩⟩
    | arrives call _ ih => exact ih.arrives (hret call)
    | acts _ hR hact ih => exact ih.acts hbody hR hact
  rcases horderly.turn with ⟨-, hI⟩ | ⟨i, t, -, -, hold, hleads, -, label, update, next, hrest⟩
  · exact ⟨⟨_, _, hI⟩, hS _ _ _ hI⟩
  · rw [hrest] at hleads
    exact ⟨hold, hleads.1⟩

end Serial

end Pool
