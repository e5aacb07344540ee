import Mathlib.Data.List.Basic

/-!
# Texts under tags

A key that serves several purposes signs the tag of a purpose and then a text, or a digest of the
two.  Where no tag is the beginning of another and no tagged text is as long as a digest, the
message tells the purpose, the way and the text:

    x.message tag hash = y.message tag hash  →  x = y                  (eq_of_message_eq)
-/

namespace Tagged

variable {π α : Type}

/-- A text for a purpose, as it is or hashed. -/
structure Entry (π α : Type) where
  purpose : π
  hashed : Bool
  text : List α

/-- The tag of one purpose is the beginning of no other. -/
def PrefixFree (tag : π → List α) : Prop := ∀ p q, tag p <+: tag q → p = q

section

variable (tag : π → List α) (hash : List α → List α)

def Entry.tagged (e : Entry π α) : List α := tag e.purpose ++ e.text

def Entry.message (e : Entry π α) : List α :=
  if e.hashed then hash (e.tagged tag) else e.tagged tag

end

variable {tag : π → List α} {hash : List α → List α}

theorem PrefixFree.append_inj (h : PrefixFree tag) {p q : π} {s t : List α}
    (heq : tag p ++ s = tag q ++ t) : p = q ∧ s = t := by
  obtain rfl : p = q := by
    have hp : tag p <+: tag q ++ t := heq ▸ List.prefix_append _ _
    rcases List.prefix_or_prefix_of_prefix hp (List.prefix_append (tag q) t) with hle | hge
    · exact h p q hle
    · exact (h q p hge).symm
  exact ⟨rfl, List.append_cancel_left heq⟩

/-- Of two signed texts that differ, the messages do too, if the digests are of one length, the
tagged texts of another, and there is no collision. -/
theorem eq_of_message_eq (hfree : PrefixFree tag) {n : Nat} (hlength : ∀ m, (hash m).length = n)
    {x y : Entry π α} (hx : (x.tagged tag).length ≠ n) (hy : (y.tagged tag).length ≠ n)
    (hcollision : hash (y.tagged tag) = hash (x.tagged tag) → y.tagged tag = x.tagged tag)
    (h : y.message tag hash = x.message tag hash) : y = x := by
  obtain ⟨p, xhashed, s⟩ := x
  obtain ⟨q, yhashed, t⟩ := y
  have hsame : q = p ∧ t = s → yhashed = xhashed → (⟨q, yhashed, t⟩ : Entry π α) =
      ⟨p, xhashed, s⟩ := by
    rintro ⟨rfl, rfl⟩ rfl
    rfl
  cases xhashed <;> cases yhashed
  · exact hsame (hfree.append_inj h) rfl
  · exact absurd ((congrArg List.length h).symm.trans (hlength _)) hx
  · exact absurd ((congrArg List.length h).trans (hlength _)) hy
  · exact hsame (hfree.append_inj (hcollision h)) rfl

end Tagged
