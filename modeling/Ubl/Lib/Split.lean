import Mathlib.Data.List.Basic

/-!
# Texts in pieces

A list is cut at one element (`List.splitOn`) or at every occurrence of a list (`splitText`), from
left to right and without overlaps.  What a cut comes to is decided by where the separator first
occurs:

    s ∉ xs → splitText (s :: ss) (xs ++ (s :: ss) ++ ys) = xs :: splitText (s :: ss) ys

`cutText` stops at the first occurrence of a list, `cutLast` at the last one of an element.
-/

namespace Split

variable {α : Type} [BEq α] [LawfulBEq α]

omit [BEq α] [LawfulBEq α] in
/-- The place where an element first occurs cuts a list in one way only. -/
theorem eq_of_first {a : α} {xs xs' ys ys' : List α} (hx : a ∉ xs) (hx' : a ∉ xs')
    (h : xs ++ a :: ys = xs' ++ a :: ys') : xs = xs' ∧ ys = ys' := by
  induction xs generalizing xs' with
  | nil =>
    cases xs' with
    | nil => exact ⟨rfl, (List.cons.inj h).2⟩
    | cons x' xs' =>
      obtain rfl : a = x' := (List.cons.inj h).1
      exact absurd List.mem_cons_self hx'
  | cons x xs ih =>
    cases xs' with
    | nil =>
      obtain rfl : x = a := (List.cons.inj h).1
      exact absurd List.mem_cons_self hx
    | cons x' xs' =>
      obtain ⟨rfl, htail⟩ := List.cons.inj h
      obtain ⟨rfl, rfl⟩ := ih (fun ha => hx (List.mem_cons_of_mem _ ha))
        (fun ha => hx' (List.mem_cons_of_mem _ ha)) htail
      exact ⟨rfl, rfl⟩

theorem not_mem_of_mem_splitOn {a : α} {xs piece : List α} (h : piece ∈ xs.splitOn a) :
    a ∉ piece := by
  induction xs generalizing piece with
  | nil =>
    rw [List.splitOn_nil, List.mem_singleton] at h
    exact h ▸ List.not_mem_nil
  | cons x xs ih =>
    rw [List.splitOn_cons_eq_if_modifyHead] at h
    split_ifs at h with hx
    · obtain rfl | h := List.mem_cons.mp h
      · exact List.not_mem_nil
      · exact ih h
    · -- the first piece of the rest grows by `x`
      obtain ⟨first, rest, hsplit⟩ := List.exists_cons_of_ne_nil (List.splitOn_ne_nil a xs)
      rw [hsplit, List.modifyHead_cons] at h
      obtain rfl | h := List.mem_cons.mp h
      · intro ha
        obtain rfl | ha := List.mem_cons.mp ha
        · exact hx BEq.rfl
        · exact ih (hsplit ▸ List.mem_cons_self) ha
      · exact ih (hsplit ▸ List.mem_cons_of_mem first h)

/-- The pieces are those without the separator that make up the list. -/
theorem splitOn_eq_iff {a : α} {xs : List α} {pieces : List (List α)} :
    xs.splitOn a = pieces ↔
      pieces ≠ [] ∧ (∀ piece ∈ pieces, a ∉ piece) ∧ xs = [a].intercalate pieces := by
  constructor
  · rintro rfl
    exact ⟨List.splitOn_ne_nil a xs, fun _ => not_mem_of_mem_splitOn,
      (List.intercalate_splitOn a).symm⟩
  · rintro ⟨hne, hpieces, rfl⟩
    exact List.splitOn_intercalate a hpieces hne

omit [BEq α] [LawfulBEq α] in
theorem intercalate_append {sep : List α} {xs ys : List (List α)} (hx : xs ≠ []) (hy : ys ≠ []) :
    sep.intercalate (xs ++ ys) = sep.intercalate xs ++ sep ++ sep.intercalate ys := by
  induction xs with
  | nil => exact absurd rfl hx
  | cons x xs ih =>
    cases xs with
    | nil => simp [List.intercalate_cons_of_ne_nil hy]
    | cons x' xs =>
      rw [List.cons_append, List.intercalate_cons_of_ne_nil (by simp), ih (by simp),
        List.intercalate_cons_cons]
      simp

/-- The pieces around a separator. -/
theorem splitOn_append_cons (a : α) (xs ys : List α) :
    (xs ++ a :: ys).splitOn a = xs.splitOn a ++ ys.splitOn a := by
  have hx := List.splitOn_ne_nil a xs
  refine splitOn_eq_iff.mpr ⟨by simp [hx], fun piece h => ?_, ?_⟩
  · exact (List.mem_append.mp h).elim not_mem_of_mem_splitOn not_mem_of_mem_splitOn
  · rw [intercalate_append hx (List.splitOn_ne_nil a ys), List.intercalate_splitOn,
      List.intercalate_splitOn, List.append_assoc, List.singleton_append]

/-- The pieces of one list start those of another where the lists are equal or the second goes on
with a separator. -/
theorem splitOn_prefix_iff {a : α} {xs ys : List α} :
    xs.splitOn a <+: ys.splitOn a ↔ ys = xs ∨ xs ++ [a] <+: ys := by
  constructor
  · rintro ⟨rest, hrest⟩
    have hys : [a].intercalate (ys.splitOn a) = ys := List.intercalate_splitOn a
    rw [← hrest] at hys
    by_cases hnil : rest = []
    · rw [hnil, List.append_nil, List.intercalate_splitOn] at hys
      exact .inl hys.symm
    · rw [intercalate_append (List.splitOn_ne_nil a xs) hnil, List.intercalate_splitOn] at hys
      exact .inr ⟨_, hys⟩
  · rintro (rfl | ⟨rest, rfl⟩)
    · exact List.prefix_refl _
    · rw [List.append_assoc, List.singleton_append, splitOn_append_cons]
      exact List.prefix_append _ _

/-- `skip` elements belong to a separator, `piece` is what came after the last one. -/
def splitFrom (sep : List α) : Nat → List α → List α → List (List α)
  | _, piece, [] => [piece]
  | skip + 1, piece, _ :: xs => splitFrom sep skip piece xs
  | 0, piece, x :: xs =>
    if sep.isPrefixOf (x :: xs) then piece :: splitFrom sep (sep.length - 1) [] xs
    else splitFrom sep 0 (piece ++ [x]) xs

def splitText (sep xs : List α) : List (List α) := splitFrom sep 0 [] xs

variable {s : α} {ss xs ys piece : List α}

omit [LawfulBEq α] in
theorem splitFrom_skip {skip : Nat} (h : xs.length = skip) :
    splitFrom (s :: ss) skip piece (xs ++ ys) = splitFrom (s :: ss) 0 piece ys := by
  induction xs generalizing skip with
  | nil => rw [← h]; rfl
  | cons x xs ih =>
    obtain rfl := h
    exact ih rfl

/-- At a separator. -/
theorem splitFrom_sep : splitFrom (s :: ss) 0 piece ((s :: ss) ++ ys) =
    piece :: splitText (s :: ss) ys := by
  have hprefix : (s :: ss).isPrefixOf (s :: (ss ++ ys)) = true :=
    List.isPrefixOf_iff_prefix.mpr (List.prefix_append (s :: ss) ys)
  rw [List.cons_append, splitFrom, if_pos hprefix]
  exact congrArg (piece :: ·) (splitFrom_skip rfl)

/-- Not at a separator. -/
theorem splitFrom_cons {x : α} (h : ¬ (s :: ss) <+: x :: xs) :
    splitFrom (s :: ss) 0 piece (x :: xs) = splitFrom (s :: ss) 0 (piece ++ [x]) xs := by
  rw [splitFrom, if_neg (mt List.isPrefixOf_iff_prefix.mp h)]

/-- Where the first element of the separator does not occur. -/
theorem splitFrom_append (h : s ∉ xs) :
    splitFrom (s :: ss) 0 piece (xs ++ ys) = splitFrom (s :: ss) 0 (piece ++ xs) ys := by
  induction xs generalizing piece with
  | nil => rw [List.nil_append, List.append_nil]
  | cons x xs ih =>
    obtain ⟨hx, hxs⟩ := not_or.mp (mt List.mem_cons.mpr h)
    have hnot : ¬ (s :: ss) <+: x :: (xs ++ ys) := fun hp => hx (List.cons_prefix_cons.mp hp).1
    rw [List.cons_append, splitFrom_cons hnot, ih hxs, List.append_assoc, List.singleton_append]

theorem splitText_append (h : s ∉ xs) :
    splitText (s :: ss) (xs ++ ((s :: ss) ++ ys)) = xs :: splitText (s :: ss) ys := by
  rw [splitText, splitFrom_append h, splitFrom_sep, List.nil_append]

theorem splitText_of_not_mem (h : s ∉ xs) : splitText (s :: ss) xs = [xs] := by
  have hsplit : splitFrom (s :: ss) 0 [] (xs ++ []) = _ := splitFrom_append h
  rw [List.append_nil, List.nil_append] at hsplit
  rw [splitText, hsplit, splitFrom]

/-! ## One cut -/

/-- What stands before and behind the first occurrence of `sep`. -/
def cutText (sep : List α) : List α → Option (List α × List α)
  | [] => if sep.isEmpty then some ([], []) else none
  | x :: xs =>
    if sep.isPrefixOf (x :: xs) then some ([], (x :: xs).drop sep.length)
    else (cutText sep xs).map (Prod.map (x :: ·) id)

theorem cutText_sep : cutText (s :: ss) ((s :: ss) ++ ys) = some ([], ys) := by
  have hprefix : (s :: ss).isPrefixOf (s :: (ss ++ ys)) = true :=
    List.isPrefixOf_iff_prefix.mpr (List.prefix_append (s :: ss) ys)
  rw [List.cons_append, cutText, if_pos hprefix, List.length_cons, List.drop_succ_cons,
    List.drop_left]

theorem cutText_cons {x : α} (h : ¬ (s :: ss) <+: x :: xs) :
    cutText (s :: ss) (x :: xs) = (cutText (s :: ss) xs).map (Prod.map (x :: ·) id) := by
  rw [cutText, if_neg (mt List.isPrefixOf_iff_prefix.mp h)]

/-- Where the first element of the separator does not occur. -/
theorem cutText_append (h : s ∉ xs) :
    cutText (s :: ss) (xs ++ ys) = (cutText (s :: ss) ys).map (Prod.map (xs ++ ·) id) := by
  induction xs with
  | nil =>
    rw [List.nil_append]
    cases cutText (s :: ss) ys <;> rfl
  | cons x xs ih =>
    obtain ⟨hx, hxs⟩ := not_or.mp (mt List.mem_cons.mpr h)
    have hnot : ¬ (s :: ss) <+: x :: (xs ++ ys) := fun hp => hx (List.cons_prefix_cons.mp hp).1
    rw [List.cons_append, cutText_cons hnot, ih hxs]
    cases cutText (s :: ss) ys <;> rfl

/-- A separator that is a word between two marks does not occur where another word stands between
marks. -/
theorem cutText_word {word : List α} (hword : s ∉ word) (hxs : s ∉ xs) (hne : xs ≠ word) :
    cutText (s :: (word ++ [s])) (s :: (xs ++ s :: ys)) =
      (cutText (s :: (word ++ [s])) (s :: ys)).map (Prod.map (s :: xs ++ ·) id) := by
  have hnot : ¬ (s :: (word ++ [s])) <+: s :: (xs ++ s :: ys) := by
    rintro ⟨rest, hrest⟩
    have htail : word ++ s :: rest = xs ++ s :: ys := by
      simpa using (List.cons.inj hrest).2
    exact hne (eq_of_first hword hxs htail).1.symm
  rw [cutText_cons hnot, cutText_append hxs]
  cases cutText (s :: (word ++ [s])) (s :: ys) <;> rfl

theorem cutText_word_self (word : List α) :
    cutText (s :: (word ++ [s])) (s :: (word ++ s :: ys)) = some ([], ys) := by
  have hsep := @cutText_sep α _ _ s (word ++ [s]) ys
  rwa [List.cons_append, List.append_assoc, List.singleton_append] at hsep

/-- What stands before and behind the last `a`. -/
def cutLast (a : α) (xs : List α) : Option (List α × List α) :=
  match xs.reverse.dropWhile (· != a) with
  | [] => none
  | _ :: before => some (before.reverse, (xs.reverse.takeWhile (· != a)).reverse)

theorem takeWhile_dropWhile_ne {a : α} (h : a ∉ xs) :
    (xs ++ a :: ys).takeWhile (· != a) = xs ∧ (xs ++ a :: ys).dropWhile (· != a) = a :: ys := by
  have hne : ∀ x ∈ xs, (x != a) = true := by
    intro x hx
    rw [bne_iff_ne]
    rintro rfl
    exact h hx
  rw [List.takeWhile_append_of_pos hne, List.dropWhile_append_of_pos hne]
  simp

theorem cutLast_append {a : α} (h : a ∉ ys) : cutLast a (xs ++ a :: ys) = some (xs, ys) := by
  have hreverse : (xs ++ a :: ys).reverse = ys.reverse ++ a :: xs.reverse := by simp
  have hys : a ∉ ys.reverse := by simpa using h
  obtain ⟨htake, hdrop⟩ := @takeWhile_dropWhile_ne α _ _ ys.reverse xs.reverse a hys
  rw [cutLast, hreverse, htake, hdrop]
  simp

/-- `rsplitn`: at most `n` pieces, from the last one on. -/
def rsplitn (a : α) : Nat → List α → List (List α)
  | 0, _ => []
  | 1, xs => [xs]
  | n + 2, xs =>
    match cutLast a xs with
    | none => [xs]
    | some (before, last) => last :: rsplitn a (n + 1) before

end Split
