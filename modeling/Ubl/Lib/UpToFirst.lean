import Mathlib.Data.List.Basic

/-!
# Passes that stop at the first hit

A loop that collects its results and stops at the first one with `p` has collected
`upToFirst p` of them: all, or those up to the hit.

    ∀ b ∈ before, ¬ p b → p a → upToFirst p (before ++ a :: after) = before ++ [a]
-/

namespace UpToFirst

variable {α β : Type} (p : α → Prop) [DecidablePred p]

/-- The elements up to the first with `p`, and that one. -/
def upToFirst : List α → List α
  | [] => []
  | a :: l => if p a then [a] else a :: upToFirst l

variable {p} {l : List α}

theorem upToFirst_of_none (h : ∀ a ∈ l, ¬ p a) : upToFirst p l = l := by
  induction l with
  | nil => rfl
  | cons a l ih =>
    rw [upToFirst, if_neg (h a List.mem_cons_self), ih fun b hb => h b (List.mem_cons_of_mem _ hb)]

/-- The hit is the last element. -/
theorem upToFirst_of_first {before after : List α} {a : α} (h : ∀ b ∈ before, ¬ p b) (ha : p a) :
    upToFirst p (before ++ a :: after) = before ++ [a] := by
  induction before with
  | nil => exact if_pos ha
  | cons b before ih =>
    rw [List.cons_append, upToFirst, if_neg (h b List.mem_cons_self),
      ih fun c hc => h c (List.mem_cons_of_mem _ hc), List.cons_append]

end UpToFirst
