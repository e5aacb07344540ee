import Mathlib.Data.List.Nodup
import Mathlib.Data.Set.Finite.Lattice
import Mathlib.Logic.Relation

/-!
# Walks in layers

A graph is given by what stands above each element.  A walk from some roots reads them, then all
that stands above them, layer by layer, and names an element as often as it meets it:

    level 0 = roots,   level (n + 1) = (level n).flatMap above

It never names one twice exactly when no element is named twice by the roots and by what they
reach (`namedOnce_iff`).  Then, where the graph is finite, it comes to an empty layer
(`exists_level_nil`) and has met every element before all that stands above it (`sublist_upTo`).
-/

namespace Layers

variable {α : Type} (above : α → List α) (roots : List α)

def level : Nat → List α
  | 0 => roots
  | n + 1 => (level n).flatMap above

/-- The first `n` layers. -/
def upTo : Nat → List α
  | 0 => []
  | n + 1 => upTo n ++ level above roots n

def Reached (x : α) : Prop := ∃ n, x ∈ level above roots n

/-- `y` stands above `x`, be it directly or not. -/
def Above (y x : α) : Prop := Relation.TransGen (fun a b => b ∈ above a) x y

/-- Something that is reached stands above itself. -/
def Cyclic : Prop := ∃ x, Reached above roots x ∧ Above above x x

/-- The roots and what stands above the reached elements: no element is named twice. -/
structure NamedOnce : Prop where
  nodup : roots.Nodup
  nodup_above : ∀ x, Reached above roots x → (above x).Nodup
  /-- What is above an element is no root. -/
  fresh : ∀ x y, Reached above roots x → y ∈ above x → y ∉ roots
  /-- What is above two elements makes them one. -/
  unique : ∀ x y z, Reached above roots x → Reached above roots y → z ∈ above x → z ∈ above y →
    x = y

variable {above roots} {x y z : α} {n m : Nat}

theorem mem_level_succ : y ∈ level above roots (n + 1) ↔
    ∃ x ∈ level above roots n, y ∈ above x := List.mem_flatMap

theorem mem_upTo : x ∈ upTo above roots n ↔ ∃ m, m < n ∧ x ∈ level above roots m := by
  induction n with
  | zero => simp [upTo]
  | succ n ih =>
    rw [upTo, List.mem_append, ih]
    constructor
    · rintro (⟨m, hm, hx⟩ | hx)
      · exact ⟨m, by omega, hx⟩
      · exact ⟨n, by omega, hx⟩
    · rintro ⟨m, hm, hx⟩
      by_cases h : m = n
      · exact .inr (h ▸ hx)
      · exact .inl ⟨m, by omega, hx⟩

theorem upTo_initial (h : n ≤ m) : upTo above roots n <+: upTo above roots m := by
  induction m with
  | zero =>
    obtain rfl : n = 0 := by omega
    exact List.prefix_rfl
  | succ m ih =>
    by_cases hn : n = m + 1
    · exact hn ▸ List.prefix_rfl
    · exact (ih (by omega)).trans (List.prefix_append _ _)

/-- After an empty layer there is nothing. -/
theorem level_nil_of_le (h : level above roots n = []) (hle : n ≤ m) :
    level above roots m = [] := by
  induction m with
  | zero =>
    obtain rfl : n = 0 := by omega
    exact h
  | succ m ih =>
    by_cases hn : n = m + 1
    · exact hn ▸ h
    · rw [level, ih (by omega), List.flatMap_nil]

theorem reached_iff_mem_upTo (h : level above roots n = []) :
    Reached above roots x ↔ x ∈ upTo above roots n := by
  rw [mem_upTo]
  constructor
  · rintro ⟨m, hm⟩
    refine ⟨m, ?_, hm⟩
    by_contra hle
    rw [level_nil_of_le h (by omega)] at hm
    exact absurd hm List.not_mem_nil
  · rintro ⟨m, -, hm⟩
    exact ⟨m, hm⟩

theorem upTo_of_level_nil (h : level above roots n = []) (hle : n ≤ m) :
    upTo above roots m = upTo above roots n := by
  induction m with
  | zero =>
    obtain rfl : n = 0 := by omega
    rfl
  | succ m ih =>
    by_cases hn : n = m + 1
    · exact hn ▸ rfl
    · rw [upTo, level_nil_of_le h (by omega), List.append_nil, ih (by omega)]

/-- What stands above an element is in a later layer. -/
theorem exists_level_of_above (hx : x ∈ level above roots n) (h : Above above y x) :
    ∃ m, n < m ∧ y ∈ level above roots m := by
  induction h with
  | single hy => exact ⟨n + 1, by omega, mem_level_succ.mpr ⟨x, hx, hy⟩⟩
  | tail _ hy ih =>
    obtain ⟨m, hm, hb⟩ := ih
    exact ⟨m + 1, by omega, mem_level_succ.mpr ⟨_, hb, hy⟩⟩

/-- A cycle has no last layer. -/
theorem not_cyclic_of_level_nil (h : level above roots n = []) : ¬ Cyclic above roots := by
  rintro ⟨x, ⟨i, hi⟩, hx⟩
  have hlater (k : Nat) : ∃ m, k ≤ m ∧ x ∈ level above roots m := by
    induction k with
    | zero => exact ⟨i, Nat.zero_le i, hi⟩
    | succ k ih =>
      obtain ⟨m, hle, hm⟩ := ih
      obtain ⟨m', hlt, hm'⟩ := exists_level_of_above hm hx
      exact ⟨m', by omega, hm'⟩
  obtain ⟨m, hle, hm⟩ := hlater n
  rw [level_nil_of_le h hle] at hm
  exact List.not_mem_nil hm

/-! ## Elements named once -/

namespace NamedOnce

variable (h : NamedOnce above roots)

include h

theorem level_nodup (n : Nat) : (level above roots n).Nodup := by
  induction n with
  | zero => exact h.nodup
  | succ n ih =>
    refine List.nodup_flatMap.mpr ⟨fun x hx => h.nodup_above x ⟨n, hx⟩, ?_⟩
    refine ih.imp_of_mem fun {a b} ha hb hab z hza hzb => ?_
    exact hab (h.unique a b z ⟨n, ha⟩ ⟨n, hb⟩ hza hzb)

/-- No element is in two layers: one step down it would be in two earlier ones. -/
theorem level_disjoint (hlt : n < m) (hn : x ∈ level above roots n) :
    x ∉ level above roots m := by
  induction n generalizing m x with
  | zero =>
    intro hm
    obtain ⟨m, rfl⟩ : ∃ k, m = k + 1 := ⟨m - 1, by omega⟩
    obtain ⟨b, hb, hxb⟩ := mem_level_succ.mp hm
    exact h.fresh b x ⟨m, hb⟩ hxb hn
  | succ n ih =>
    intro hm
    obtain ⟨m, rfl⟩ : ∃ k, m = k + 1 := ⟨m - 1, by omega⟩
    obtain ⟨a, ha, hxa⟩ := mem_level_succ.mp hn
    obtain ⟨b, hb, hxb⟩ := mem_level_succ.mp hm
    obtain rfl := h.unique a b x ⟨n, ha⟩ ⟨m, hb⟩ hxa hxb
    exact ih (by omega) ha hb

theorem upTo_nodup (n : Nat) : (upTo above roots n).Nodup := by
  induction n with
  | zero => exact List.nodup_nil
  | succ n ih =>
    refine List.nodup_append'.mpr ⟨ih, h.level_nodup n, fun x hx => ?_⟩
    obtain ⟨m, hm, hx⟩ := mem_upTo.mp hx
    exact h.level_disjoint hm hx

end NamedOnce

/-- A walk that names no element twice shows that none is named twice. -/
theorem namedOnce_of_nodup (h : ∀ n, (upTo above roots n).Nodup) : NamedOnce above roots := by
  have hlevel (n : Nat) : (level above roots n).Nodup := (List.nodup_append'.mp (h (n + 1))).2.1
  have happart {n m : Nat} {x : α} (hlt : n < m) (hn : x ∈ level above roots n) :
      x ∉ level above roots m :=
    (List.nodup_append'.mp (h (m + 1))).2.2 (mem_upTo.mpr ⟨n, hlt, hn⟩)
  refine ⟨hlevel 0, ?_, ?_, ?_⟩
  · rintro x ⟨n, hx⟩
    exact (List.nodup_flatMap.mp (hlevel (n + 1))).1 x hx
  · rintro x y ⟨n, hx⟩ hy hroot
    exact happart (Nat.succ_pos n) hroot (mem_level_succ.mpr ⟨x, hx, hy⟩)
  · rintro x y z ⟨n, hx⟩ ⟨m, hy⟩ hzx hzy
    have hzn := mem_level_succ.mpr ⟨x, hx, hzx⟩
    have hzm := mem_level_succ.mpr ⟨y, hy, hzy⟩
    obtain rfl : n = m := by
      by_contra hne
      obtain hlt | hlt : n < m ∨ m < n := by omega
      · exact happart (Nat.succ_lt_succ hlt) hzn hzm
      · exact happart (Nat.succ_lt_succ hlt) hzm hzn
    by_contra hxy
    have hpair := (List.nodup_flatMap.mp (hlevel (n + 1))).2
    have : Std.Symm (Function.onFun List.Disjoint above) := ⟨fun _ _ hab => hab.symm⟩
    exact hpair.forall hx hy hxy hzx hzy

theorem namedOnce_iff : NamedOnce above roots ↔ ∀ n, (upTo above roots n).Nodup :=
  ⟨fun h n => h.upTo_nodup n, namedOnce_of_nodup⟩

theorem namedOnce_of_level_nil (hnil : level above roots n = [])
    (hnodup : (upTo above roots n).Nodup) : NamedOnce above roots := by
  refine namedOnce_of_nodup fun m => ?_
  by_cases hle : n ≤ m
  · rwa [upTo_of_level_nil hnil hle]
  · exact hnodup.sublist (upTo_initial (by omega)).sublist

/-! ## Finite graphs -/

/-- If no layer were empty, the walk would name more elements than there are. -/
theorem exists_level_nil (hfin : {x | above x ≠ []}.Finite) (h : NamedOnce above roots) :
    ∃ n, level above roots n = [] := by
  classical
  by_contra hnone
  push Not at hnone
  let named : Finset α := roots.toFinset ∪ hfin.toFinset.biUnion fun x => (above x).toFinset
  have hsub (n : Nat) : (upTo above roots n).toFinset ⊆ named := by
    intro x hx
    obtain ⟨m, -, hx⟩ := mem_upTo.mp (List.mem_toFinset.mp hx)
    cases m with
    | zero => exact Finset.mem_union_left _ (List.mem_toFinset.mpr hx)
    | succ m =>
      obtain ⟨a, -, ha⟩ := mem_level_succ.mp hx
      refine Finset.mem_union_right _ (Finset.mem_biUnion.mpr ⟨a, ?_, List.mem_toFinset.mpr ha⟩)
      exact hfin.mem_toFinset.mpr (List.ne_nil_of_mem ha)
  have hlength (n : Nat) : n ≤ (upTo above roots n).length := by
    induction n with
    | zero => exact Nat.zero_le _
    | succ n ih =>
      have hpos := List.length_pos_iff.mpr (hnone n)
      rw [upTo, List.length_append]
      omega
  have hcard := Finset.card_le_card (hsub (named.card + 1))
  rw [List.toFinset_card_of_nodup (h.upTo_nodup _)] at hcard
  have hlen := hlength (named.card + 1)
  omega

/-- An element comes before all that stands above it. -/
theorem sublist_upTo (hnil : level above roots n = []) (hx : Reached above roots x)
    (hyx : Above above y x) : [x, y].Sublist (upTo above roots n) := by
  obtain ⟨i, hi⟩ := hx
  obtain ⟨j, hij, hj⟩ := exists_level_of_above hi hyx
  have hjn : j < n := by
    by_contra hle
    rw [level_nil_of_le hnil (by omega)] at hj
    exact absurd hj List.not_mem_nil
  have hfirst : [x].Sublist (upTo above roots j) :=
    List.singleton_sublist.mpr (mem_upTo.mpr ⟨i, hij, hi⟩)
  have hsecond : [y].Sublist (level above roots j) := List.singleton_sublist.mpr hj
  exact (hfirst.append hsecond).trans (upTo_initial hjn).sublist

end Layers
