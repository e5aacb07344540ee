import Mathlib

/-!
# Texts cut at a byte

A text is cut at a position that counts bytes, and can be cut only between two of its characters.

    splitAt mid cs = some (xs, ys) ↔ cs = xs ++ ys ∧ width xs = mid     (splitAt_eq_some)

So the last byte can be cut off if and only if it is all of the last character (`splitAt_last`).
-/

namespace ByteSplit

/-- The bytes of a text. -/
def width (cs : List Char) : ℕ := (cs.map Char.utf8Size).sum

/-- The parts before and after a position, which has to be a boundary of characters. -/
def splitAt : ℕ → List Char → Option (List Char × List Char)
  | 0, cs => some ([], cs)
  | _ + 1, [] => none
  | mid + 1, c :: cs =>
    if c.utf8Size ≤ mid + 1 then
      (splitAt (mid + 1 - c.utf8Size) cs).map fun parts => (c :: parts.1, parts.2)
    else none

@[simp] theorem width_nil : width [] = 0 := rfl

@[simp] theorem width_cons (c : Char) (cs : List Char) : width (c :: cs) = c.utf8Size + width cs := by
  simp [width]

@[simp] theorem width_append (xs ys : List Char) : width (xs ++ ys) = width xs + width ys := by
  simp [width]

theorem splitAt_eq_some {mid : ℕ} {cs xs ys : List Char} :
    splitAt mid cs = some (xs, ys) ↔ cs = xs ++ ys ∧ width xs = mid := by
  induction cs generalizing mid xs with
  | nil =>
    cases mid <;> cases xs <;> simp [splitAt, eq_comm]
  | cons c cs ih =>
    have hpos := c.utf8Size_pos
    cases mid with
    | zero =>
      cases xs with
      | nil => simp [splitAt, eq_comm]
      | cons x xs =>
        have := x.utf8Size_pos
        simp [splitAt]
        omega
    | succ mid =>
      unfold splitAt
      cases xs with
      | nil => simp
      | cons x xs =>
        simp only [Option.ite_none_right_eq_some, Option.map_eq_some_iff]
        constructor
        · rintro ⟨hle, ⟨xs', ys'⟩, hparts, heq⟩
          cases heq
          obtain ⟨rfl, hwidth⟩ := ih.mp hparts
          refine ⟨rfl, ?_⟩
          rw [width_cons, hwidth]
          omega
        · rintro ⟨heq, hwidth⟩
          obtain ⟨rfl, rfl⟩ := List.cons_eq_cons.mp heq
          rw [width_cons] at hwidth
          exact ⟨by omega, (xs, ys), ih.mpr ⟨rfl, by omega⟩, rfl⟩

/-- The last byte is cut off a text. -/
def splitLast (cs : List Char) : Option (List Char × List Char) := splitAt (width cs - 1) cs

@[simp] theorem splitLast_nil : splitLast [] = some ([], []) := rfl

theorem splitLast_append (cs : List Char) (c : Char) :
    splitLast (cs ++ [c]) = if c.utf8Size = 1 then some (cs, [c]) else none := by
  have hpos := c.utf8Size_pos
  unfold splitLast
  split_ifs with hsize
  · exact splitAt_eq_some.mpr ⟨rfl, by simp [hsize]⟩
  · refine Option.eq_none_iff_forall_ne_some.mpr ?_
    rintro ⟨xs, ys⟩ hparts
    obtain ⟨heq, hwidth⟩ := splitAt_eq_some.mp hparts
    rw [width_append, width_cons, width_nil] at hwidth
    rcases List.eq_nil_or_concat ys with rfl | ⟨ys', y, rfl⟩
    · rw [← List.append_nil xs, ← heq] at hwidth
      simp at hwidth
      omega
    · rw [List.concat_eq_append, ← List.append_assoc] at heq
      obtain ⟨rfl, -⟩ := List.append_inj' heq rfl
      rw [width_append] at hwidth
      omega

/-- A text cannot lose its last byte where its last character is not of ASCII. -/
theorem splitLast_eq_none_iff {cs : List Char} :
    splitLast cs = none ↔ ∃ c ∈ cs.getLast?, 127 < c.toNat := by
  rcases List.eq_nil_or_concat cs with rfl | ⟨cs, c, rfl⟩
  · simp
  · rw [List.concat_eq_append, splitLast_append, List.getLast?_concat]
    simp [Char.utf8Size_eq_one_iff, UInt32.le_iff_toNat_le]

end ByteSplit
