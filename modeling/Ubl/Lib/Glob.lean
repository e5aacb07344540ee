import Ubl.Lib.Split
import Mathlib.Data.List.Infix
import Mathlib.Order.Basic

/-!
# Patterns with a wildcard

One element of the alphabet is the wildcard and stands for any run of elements; every other
element stands for itself.  A text matches a pattern exactly when the pieces of the pattern
between its wildcards stand in it one after the other, the first at its start and the last at
its end:

    Matches star pattern text ↔ Spread (pattern.splitOn star) text          (matches_iff_spread)
-/

namespace Glob

variable {α : Type}

inductive Matches (star : α) : List α → List α → Prop
  | nil : Matches star [] []
  | self {x : α} {pattern text : List α} (hx : x ≠ star) (h : Matches star pattern text) :
      Matches star (x :: pattern) (x :: text)
  | stop {pattern text : List α} (h : Matches star pattern text) :
      Matches star (star :: pattern) text
  | more {x : α} {pattern text : List α} (h : Matches star (star :: pattern) text) :
      Matches star (star :: pattern) (x :: text)

variable {star : α} {pattern text : List α}

/-- The wildcard stands for a run and the rest of the pattern for the rest of the text. -/
theorem matches_star_iff : Matches star (star :: pattern) text ↔
    ∃ run rest, text = run ++ rest ∧ Matches star pattern rest := by
  constructor
  · intro h
    induction text with
    | nil =>
      cases h with
      | stop h => exact ⟨[], [], rfl, h⟩
    | cons x text ih =>
      cases h with
      | self hx _ => exact absurd rfl hx
      | stop h => exact ⟨[], x :: text, rfl, h⟩
      | more h =>
        obtain ⟨run, rest, rfl, hrest⟩ := ih h
        exact ⟨x :: run, rest, rfl, hrest⟩
  · rintro ⟨run, rest, rfl, hrest⟩
    induction run with
    | nil => exact .stop hrest
    | cons x run ih => exact .more ih

/-- What stands before the first wildcard stands for itself. -/
theorem matches_append_iff {before : List α} (hbefore : star ∉ before) :
    Matches star (before ++ pattern) text ↔
      ∃ rest, text = before ++ rest ∧ Matches star pattern rest := by
  induction before generalizing text with
  | nil => simp
  | cons x before ih =>
    obtain ⟨hx, hrest⟩ := not_or.mp (mt List.mem_cons.mpr hbefore)
    constructor
    · intro h
      cases h with
      | self _ htail =>
        obtain ⟨rest, rfl, hpattern⟩ := (ih hrest).mp htail
        exact ⟨rest, rfl, hpattern⟩
      | stop _ => exact absurd rfl hx
      | more _ => exact absurd rfl hx
    · rintro ⟨rest, rfl, h⟩
      exact .self (Ne.symm hx) ((ih hrest).mpr ⟨rest, rfl, h⟩)

theorem matches_nil_iff : Matches star [] text ↔ text = [] := by
  constructor
  · intro h
    cases h
    rfl
  · rintro rfl
    exact .nil

/-- A pattern without a wildcard matches itself only. -/
theorem matches_iff_eq (hpattern : star ∉ pattern) : Matches star pattern text ↔ text = pattern := by
  have happend : Matches star (pattern ++ []) text ↔
      ∃ rest, text = pattern ++ rest ∧ Matches star [] rest := matches_append_iff hpattern
  rw [List.append_nil] at happend
  simp only [matches_nil_iff] at happend
  simpa using happend

/-- Every element of the pattern apart from the wildcard is in the text. -/
theorem mem_of_matches (h : Matches star pattern text) {x : α} (hx : x ∈ pattern)
    (hne : x ≠ star) : x ∈ text := by
  induction h with
  | nil => exact hx
  | self _ _ ih =>
    rcases List.mem_cons.mp hx with rfl | hx
    · exact List.mem_cons_self
    · exact List.mem_cons_of_mem _ (ih hx)
  | stop _ ih =>
    rcases List.mem_cons.mp hx with rfl | hx
    · exact absurd rfl hne
    · exact ih hx
  | more _ ih => exact List.mem_cons_of_mem _ (ih hx)

/-- The elements of the pattern apart from the wildcards each take one of the text. -/
theorem length_filter_le_of_matches [DecidableEq α] (h : Matches star pattern text) :
    (pattern.filter (· ≠ star)).length ≤ text.length := by
  induction h with
  | nil => exact Nat.le_refl _
  | self hx _ ih =>
    rw [List.filter_cons_of_pos (by simpa using hx)]
    exact Nat.succ_le_succ ih
  | stop _ ih => simpa using ih
  | more _ ih => exact Nat.le_succ_of_le ih

/-- Wildcards alone match every text. -/
theorem matches_stars (hne : pattern ≠ []) (hall : ∀ x ∈ pattern, x = star) :
    Matches star pattern text := by
  induction pattern with
  | nil => exact absurd rfl hne
  | cons x pattern ih =>
    obtain rfl := hall x List.mem_cons_self
    refine matches_star_iff.mpr ?_
    by_cases hnil : pattern = []
    · subst hnil
      exact ⟨text, [], by simp, .nil⟩
    · exact ⟨[], text, rfl, ih hnil fun y hy => hall y (List.mem_cons_of_mem _ hy)⟩

/-! ## Pieces -/

/-- The pieces stand in the text in order, with runs between them. -/
def Spread : List (List α) → List α → Prop
  | [], text => text = []
  | [piece], text => text = piece
  | piece :: piece' :: pieces, text =>
    ∃ run rest, text = piece ++ (run ++ rest) ∧ Spread (piece' :: pieces) rest

theorem spread_cons_iff {piece : List α} {pieces : List (List α)} (hne : pieces ≠ []) :
    Spread (piece :: pieces) text ↔ ∃ run rest, text = piece ++ (run ++ rest) ∧ Spread pieces rest := by
  obtain ⟨piece', pieces, rfl⟩ := List.exists_cons_of_ne_nil hne
  rfl

/-- The first piece is in the text. -/
theorem infix_of_spread {piece : List α} {pieces : List (List α)}
    (h : Spread (piece :: pieces) text) : piece <:+: text := by
  cases pieces with
  | nil =>
    obtain rfl : text = piece := h
    exact List.infix_refl _
  | cons piece' pieces =>
    obtain ⟨run, rest, rfl, -⟩ := h
    exact (List.prefix_append _ _).isInfix

/-- Two pieces: they start and end the text and do not overlap in it. -/
theorem spread_pair_iff {before after : List α} : Spread [before, after] text ↔
    before <+: text ∧ after <:+ text ∧ before.length + after.length ≤ text.length := by
  constructor
  · rintro ⟨run, rest, rfl, rfl⟩
    refine ⟨List.prefix_append _ _, ?_, ?_⟩
    · rw [← List.append_assoc]
      exact List.suffix_append _ _
    · simp only [List.length_append]
      omega
  · rintro ⟨⟨tail, rfl⟩, hsuffix, hlen⟩
    rw [List.length_append] at hlen
    obtain ⟨run, rfl⟩ := List.suffix_of_suffix_length_le hsuffix (List.suffix_append before tail)
      (by omega)
    exact ⟨run, after, rfl, rfl⟩

variable [BEq α] [LawfulBEq α]

theorem matches_iff_spread : Matches star pattern text ↔ Spread (pattern.splitOn star) text := by
  induction hn : pattern.length using Nat.strongRecOn generalizing pattern text with
  | _ n ih =>
    subst hn
    by_cases hmem : star ∈ pattern
    · obtain ⟨before, after, rfl, hbefore⟩ := List.eq_append_cons_of_mem hmem
      have hsingle : before.splitOn star = [before] :=
        Split.splitOn_eq_iff.mpr ⟨by simp, by simpa using hbefore, by simp⟩
      have hlen : after.length < (before ++ star :: after).length := by
        simp only [List.length_append, List.length_cons]
        omega
      rw [matches_append_iff hbefore, Split.splitOn_append_cons, hsingle, List.singleton_append,
        spread_cons_iff (List.splitOn_ne_nil star after)]
      simp only [matches_star_iff, ih _ hlen rfl]
      constructor
      · rintro ⟨_, rfl, run, rest, rfl, h⟩
        exact ⟨run, rest, rfl, h⟩
      · rintro ⟨run, rest, rfl, h⟩
        exact ⟨_, rfl, run, rest, rfl, h⟩
    · have hsingle : pattern.splitOn star = [pattern] :=
        Split.splitOn_eq_iff.mpr ⟨by simp, by simpa using hmem, by simp⟩
      rw [matches_iff_eq hmem, hsingle]
      rfl

end Glob
