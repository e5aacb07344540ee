import Ubl.Auth.World
import Ubl.Eventstore.Store
import Ubl.Lib.Glob

/-!
# Type filters as patterns

`matches_type_glob` looks at what stands before and behind the first star.  With a second star
it only asks for the text before the first, and with one star it lets the two texts overlap; the
pattern means more than that (`matchesTypeGlob_agrees_iff`).
-/

namespace Ubl.Eventstore

open Ubl.Nrf (splitParts)
open Ubl.Auth (splitParts_eq_iff)
open Glob (Matches Spread)

theorem splitParts_append_star {pattern : String} {before after : List Char}
    (hpattern : pattern.toList = before ++ '*' :: after) (hbefore : '*' ∉ before) :
    splitParts '*' pattern = String.ofList before :: splitParts '*' (String.ofList after) := by
  obtain ⟨hne, hwhole, hjoin⟩ :=
    splitParts_eq_iff.mp (rfl : splitParts '*' (String.ofList after) = _)
  obtain ⟨part, parts, hparts⟩ := List.exists_cons_of_ne_nil hne
  rw [String.toList_ofList] at hjoin
  rw [splitParts_eq_iff, hparts]
  rw [hparts] at hwhole hjoin
  refine ⟨by simp, ?_, ?_⟩
  · rw [List.forall_mem_cons, String.toList_ofList]
    exact ⟨hbefore, hwhole⟩
  · rw [hpattern, hjoin]
    simp only [List.map_cons, List.intercalate_cons_cons]
    simp

theorem matchesTypeGlob_iff {pattern text : String} (hne : pattern ≠ "*")
    {before after : List Char} (hpattern : pattern.toList = before ++ '*' :: after)
    (hbefore : '*' ∉ before) : matchesTypeGlob text pattern = true ↔
      if '*' ∈ after then before <:+: text.toList
      else before <+: text.toList ∧ after <:+ text.toList := by
  have hstar : '*' ∈ pattern.toList := by simp [hpattern]
  obtain ⟨hnil, hwhole, hjoin⟩ :=
    splitParts_eq_iff.mp (rfl : splitParts '*' (String.ofList after) = _)
  rw [String.toList_ofList] at hjoin
  rw [matchesTypeGlob, if_pos hstar, if_neg hne, splitParts_append_star hpattern hbefore]
  rcases hparts : splitParts '*' (String.ofList after) with _ | ⟨part, _ | ⟨part', parts⟩⟩
  · exact absurd hparts hnil
  · have hafter : part.toList = after := by
      rw [hjoin, hparts]
      simp
    have hnostar : '*' ∉ after := hafter ▸ hwhole part (by simp [hparts])
    rw [if_neg hnostar, Bool.and_eq_true, List.isPrefixOf_iff_prefix, List.isSuffixOf_iff_suffix,
      String.toList_ofList, hafter]
  · have hsecond : '*' ∈ after := by
      rw [hjoin, hparts, List.map_cons, List.map_cons, List.intercalate_cons_cons]
      simp
    rw [if_pos hsecond, List.any_eq_true, List.infix_iff_prefix_suffix, String.toList_ofList]
    simp only [List.mem_tails, List.isPrefixOf_iff_prefix, and_comm]

/-- The condition under which a pattern is read as it is meant: a second star comes with pieces
that are all in their places if the first is in the text at all, and around a single star the
two pieces do not overlap. -/
def ReadsAsGlob (pattern text : String) : Prop :=
  ∀ before after, pattern.toList = before ++ '*' :: after → '*' ∉ before →
    if '*' ∈ after then
      before <:+: text.toList → Spread (before :: after.splitOn '*') text.toList
    else
      before <+: text.toList → after <:+ text.toList →
        before.length + after.length ≤ text.toList.length

/-- What is said of every way to split at the first star is said of the one way there is. -/
theorem forall_first_star_iff {pattern : String} {before after : List Char}
    {P : List Char → List Char → Prop} (hpattern : pattern.toList = before ++ '*' :: after)
    (hbefore : '*' ∉ before) :
    (∀ before after, pattern.toList = before ++ '*' :: after → '*' ∉ before → P before after) ↔
      P before after := by
  constructor
  · intro h
    exact h before after hpattern hbefore
  · intro h before' after' hpattern' hbefore'
    rw [hpattern] at hpattern'
    obtain ⟨rfl, rfl⟩ := Split.eq_of_first hbefore hbefore' hpattern'
    exact h

theorem spread_splitOn_iff {before after text : List Char} (hbefore : '*' ∉ before) :
    Spread (before :: after.splitOn '*') text ↔ Matches '*' (before ++ '*' :: after) text := by
  have hsplit : before.splitOn '*' = [before] :=
    Split.splitOn_eq_iff.mpr ⟨by simp, by simpa using hbefore, by simp⟩
  rw [Glob.matches_iff_spread, Split.splitOn_append_cons, hsplit, List.singleton_append]

theorem matchesTypeGlob_agrees_on_iff (pattern text : String) :
    (matchesTypeGlob text pattern = true ↔ Matches '*' pattern.toList text.toList) ↔
      ReadsAsGlob pattern text := by
  by_cases hstar : '*' ∈ pattern.toList
  · obtain ⟨before, after, hpattern, hbefore⟩ := List.eq_append_cons_of_mem hstar
    rw [ReadsAsGlob, forall_first_star_iff hpattern hbefore, hpattern, ← spread_splitOn_iff hbefore]
    by_cases hglob : pattern = "*"
    · -- the star by itself passes every text
      subst hglob
      obtain ⟨rfl, rfl⟩ : before = [] ∧ after = [] := by
        have hnil : [] ++ '*' :: [] = before ++ '*' :: after := hpattern
        exact (Split.eq_of_first (by simp) hbefore hnil).imp Eq.symm Eq.symm
      simp [matchesTypeGlob, Glob.spread_pair_iff]
    · rw [matchesTypeGlob_iff hglob hpattern hbefore]
      split_ifs with hsecond
      · constructor
        · intro h
          exact h.mp
        · intro h
          exact ⟨h, Glob.infix_of_spread⟩
      · have hafter_split : after.splitOn '*' = [after] :=
          Split.splitOn_eq_iff.mpr ⟨by simp, by simpa using hsecond, by simp⟩
        rw [hafter_split, Glob.spread_pair_iff]
        constructor
        · intro h hstart hend
          exact (h.mp ⟨hstart, hend⟩).2.2
        · intro h
          exact ⟨fun hends => ⟨hends.1, hends.2, h hends.1 hends.2⟩,
            fun hspread => ⟨hspread.1, hspread.2.1⟩⟩
  · -- no star on either side
    refine iff_of_true ?_ fun before after hpattern _ => absurd (by simp [hpattern]) hstar
    rw [Glob.matches_iff_eq hstar, matchesTypeGlob, if_neg hstar, decide_eq_true_eq]
    exact String.toList_inj.symm

/-- The patterns that are read as they are meant whatever the text: two stars are in stars alone,
and around a single star no end of the text before is a start of the text behind. -/
def ReadsAlways (pattern : String) : Prop :=
  ∀ before after, pattern.toList = before ++ '*' :: after → '*' ∉ before →
    if '*' ∈ after then ∀ c ∈ pattern.toList, c = '*'
    else ∀ overlap, overlap <:+ before → overlap <+: after → overlap = []

theorem apart_iff {before after : List Char} :
    (∀ text : List Char, before <+: text → after <:+ text →
        before.length + after.length ≤ text.length) ↔
      ∀ overlap, overlap <:+ before → overlap <+: after → overlap = [] := by
  constructor
  · rintro h overlap ⟨start, rfl⟩ ⟨stop, rfl⟩
    -- the shortest text that starts and ends so shares the overlap
    have hlen := h (start ++ overlap ++ stop) (List.prefix_append _ _)
      (by rw [List.append_assoc]; exact List.suffix_append _ _)
    simp only [List.length_append] at hlen
    exact List.eq_nil_of_length_eq_zero (by omega)
  · rintro h _ ⟨tail, rfl⟩ ⟨start, hstart⟩
    rcases List.append_eq_append_iff.mp hstart with ⟨overlap, rfl, rfl⟩ | ⟨run, rfl, rfl⟩
    · obtain rfl := h overlap (List.suffix_append _ _) (List.prefix_append _ _)
      simp
    · simp only [List.length_append]
      omega

/-- If a second star leaves the text before the first as the only thing asked for, then there was
nothing else to ask for. -/
theorem stars_of_infix_matches {before after : List Char} (hbefore : '*' ∉ before)
    (h : ∀ text, before <:+: text → Matches '*' (before ++ '*' :: after) text) :
    ∀ c ∈ before ++ '*' :: after, c = '*' := by
  have hnil : before = [] := by
    cases before with
    | nil => rfl
    | cons x rest =>
      -- a text that has `before` in it and does not start with it
      cases h ('*' :: x :: rest) (List.suffix_cons _ _).isInfix with
      | self hx _ => exact absurd rfl hx
      | stop _ => exact absurd List.mem_cons_self hbefore
      | more _ => exact absurd List.mem_cons_self hbefore
  subst hnil
  have hlen := Glob.length_filter_le_of_matches (h [] List.nil_infix)
  have hfilter := List.eq_nil_of_length_eq_zero (Nat.le_zero.mp hlen)
  simpa [List.filter_eq_nil_iff] using hfilter

theorem readsAsGlob_forall_iff (pattern : String) :
    (∀ text, ReadsAsGlob pattern text) ↔ ReadsAlways pattern := by
  by_cases hstar : '*' ∈ pattern.toList
  · obtain ⟨before, after, hpattern, hbefore⟩ := List.eq_append_cons_of_mem hstar
    simp only [ReadsAsGlob, ReadsAlways, forall_first_star_iff hpattern hbefore]
    by_cases hsecond : '*' ∈ after
    · simp only [if_pos hsecond, spread_splitOn_iff hbefore, hpattern]
      constructor
      · intro h
        exact stars_of_infix_matches hbefore fun text => by simpa using h (String.ofList text)
      · intro h text _
        exact Glob.matches_stars (by simp) h
    · simp only [if_neg hsecond, ← apart_iff]
      constructor
      · intro h text
        simpa using h (String.ofList text)
      · intro h text
        exact h text.toList
  · exact iff_of_true (fun _ _ _ hpattern => absurd (by simp [hpattern]) hstar)
      fun _ _ hpattern => absurd (by simp [hpattern]) hstar

/-- The filter and the pattern agree exactly on the texts that `ReadsAsGlob` allows, and for the
patterns of `ReadsAlways` these are all texts. -/
theorem matchesTypeGlob_agrees_iff (pattern : String) :
    (∀ text, (matchesTypeGlob text pattern = true ↔ Matches '*' pattern.toList text.toList) ↔
        ReadsAsGlob pattern text) ∧
      ((∀ text, matchesTypeGlob text pattern = true ↔ Matches '*' pattern.toList text.toList) ↔
        ReadsAlways pattern) := by
  refine ⟨matchesTypeGlob_agrees_on_iff pattern, ?_⟩
  simp only [matchesTypeGlob_agrees_on_iff]
  exact readsAsGlob_forall_iff pattern

/-- `*token*` passes a type without the word in it. -/
theorem matchesTypeGlob_two_stars : matchesTypeGlob "ubl/document" "*token*" = true ∧
    ¬ Matches '*' "*token*".toList "ubl/document".toList := by
  refine ⟨?_, fun h => ?_⟩
  · have hpattern : "*token*".toList = [] ++ '*' :: "token*".toList := rfl
    rw [matchesTypeGlob_iff (by decide) hpattern (by simp), if_pos (by decide)]
    exact List.nil_infix
  · exact absurd (Glob.mem_of_matches h (x := 'k') (by decide) (by decide)) (by decide)

end Ubl.Eventstore
