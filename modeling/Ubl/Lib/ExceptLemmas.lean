import Mathlib

/-!
# Peeling `Except` computations

`bind_eq_ok` takes a successful computation apart, `bind_ok` and `bind_error`
run one whose first part is known, and `ite_error_eq_ok` passes a guard that throws.
-/

namespace ExceptLemmas

variable {ε α β : Type}

@[simp] theorem bind_ok (a : α) (f : α → Except ε β) :
    ((Except.ok a : Except ε α) >>= f) = f a := rfl

@[simp] theorem bind_error (e : ε) (f : α → Except ε β) :
    ((Except.error e : Except ε α) >>= f) = .error e := rfl

@[simp] theorem pure_eq_ok (a : α) : (pure a : Except ε α) = .ok a := rfl

@[simp] theorem throw_eq_error (e : ε) : (throw e : Except ε α) = .error e := rfl

theorem bind_eq_ok {x : Except ε α} {f : α → Except ε β} {b : β} :
    (x >>= f) = .ok b ↔ ∃ a, x = .ok a ∧ f a = .ok b := by
  cases x with
  | error e => simp
  | ok a => simp

/-- A guard that throws has let its computation through. -/
theorem ite_error_eq_ok {c : Prop} [Decidable c] {e : ε} {x : Except ε β} {b : β} :
    (if c then .error e else x) = .ok b ↔ ¬ c ∧ x = .ok b := by
  split_ifs with h <;> simp [h]

section MapError

variable {ε' : Type} (g : ε → ε')

@[simp] theorem mapError_ok (a : α) : (Except.ok a : Except ε α).mapError g = .ok a := rfl

@[simp] theorem mapError_error (e : ε) : (Except.error e : Except ε α).mapError g = .error (g e) :=
  rfl

theorem mapError_bind (x : Except ε α) (f : α → Except ε β) :
    (x >>= f).mapError g = x.mapError g >>= fun a => (f a).mapError g := by
  cases x <;> rfl

end MapError

/-- A pass over a list in which nothing fails. -/
theorem mapM_eq_ok {f : α → Except ε β} {g : α → β} {l : List α} (h : ∀ a ∈ l, f a = .ok (g a)) :
    l.mapM f = .ok (l.map g) := by
  induction l with
  | nil => rfl
  | cons a l ih =>
    rw [List.mapM_cons, h a List.mem_cons_self, bind_ok,
      ih fun a ha => h a (List.mem_cons_of_mem _ ha)]
    rfl

/-- A pass over a list whose results are known one by one. -/
theorem exists_mapM_eq_ok {f : α → Except ε β} {P : α → β → Prop} {l : List α}
    (h : ∀ a ∈ l, ∃ b, f a = .ok b ∧ P a b) : ∃ bs, l.mapM f = .ok bs ∧ List.Forall₂ P l bs := by
  induction l with
  | nil => exact ⟨[], rfl, .nil⟩
  | cons a l ih =>
    obtain ⟨b, hb, hP⟩ := h a List.mem_cons_self
    obtain ⟨bs, hbs, hall⟩ := ih fun a ha => h a (List.mem_cons_of_mem _ ha)
    refine ⟨b :: bs, ?_, .cons hP hall⟩
    rw [List.mapM_cons, hb, bind_ok, hbs]
    rfl

end ExceptLemmas
