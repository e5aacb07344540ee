import Ubl.Lib.ExceptLemmas

/-!
# Two fallible computations side by side

`Agree E R x y`: both fail, with errors related by `E`, or both succeed, with results related by
`R`.  Computations that agree step by step agree as a whole (`Agree.bind`).
-/

namespace ExceptRel

open ExceptLemmas

variable {ε ε' α α' β β' : Type} {E : ε → ε' → Prop}

inductive Agree (E : ε → ε' → Prop) (R : α → α' → Prop) : Except ε α → Except ε' α' → Prop where
  | ok {a : α} {a' : α'} (h : R a a') : Agree E R (.ok a) (.ok a')
  | error {e : ε} {e' : ε'} (h : E e e') : Agree E R (.error e) (.error e')

theorem Agree.bind {R : α → α' → Prop} {S : β → β' → Prop} {x : Except ε α} {x' : Except ε' α'}
    {f : α → Except ε β} {f' : α' → Except ε' β'} (h : Agree E R x x')
    (hf : ∀ a a', R a a' → Agree E S (f a) (f' a')) : Agree E S (x >>= f) (x' >>= f') := by
  cases h with
  | ok h => exact hf _ _ h
  | error h => exact .error h

/-- Both go the same way. -/
theorem Agree.ite {R : α → α' → Prop} {c : Prop} [Decidable c] {x y : Except ε α}
    {x' y' : Except ε' α'} (hx : Agree E R x x') (hy : Agree E R y y') :
    Agree E R (if c then x else y) (if c then x' else y') := by
  split_ifs
  · exact hx
  · exact hy

theorem Agree.with_eq {R : α → α' → Prop} {x : Except ε α} {x' : Except ε' α'}
    (h : Agree E R x x') : Agree E (fun a a' => x = .ok a ∧ x' = .ok a' ∧ R a a') x x' := by
  cases h with
  | ok h => exact .ok ⟨rfl, rfl, h⟩
  | error h => exact .error h

theorem Agree.exists_ok {R : α → α' → Prop} {x : Except ε α} {x' : Except ε' α'} {a : α}
    (h : Agree E R x x') (hx : x = .ok a) : ∃ a', x' = .ok a' ∧ R a a' := by
  subst hx
  cases h with
  | ok h => exact ⟨_, rfl, h⟩

theorem Agree.swap {R : α → α' → Prop} {x : Except ε α} {x' : Except ε' α'} (h : Agree E R x x') :
    Agree (fun e' e => E e e') (fun a' a => R a a') x' x := by
  cases h with
  | ok h => exact .ok h
  | error h => exact .error h

/-- Where one succeeds whenever the other does, with related results. -/
theorem agree_of_ok {R : α → α' → Prop} {x : Except ε α} {x' : Except ε' α'}
    (h : ∀ a, x = .ok a → ∃ a', x' = .ok a' ∧ R a a') (h' : ∀ a', x' = .ok a' → ∃ a, x = .ok a) :
    Agree (fun _ _ => True) R x x' := by
  cases x with
  | ok a =>
    obtain ⟨a', rfl, ha⟩ := h a rfl
    exact .ok ha
  | error e =>
    cases x' with
    | error e' => exact .error trivial
    | ok a' =>
      obtain ⟨a, ha⟩ := h' a' rfl
      cases ha

end ExceptRel
