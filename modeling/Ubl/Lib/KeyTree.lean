import Mathlib.Data.List.Lex
import Ubl.Lib.AssocMap

/-!
# Ordered trees

A `KeyTree` is a map that is kept in the order of its keys, as an embedded database keeps it: the
entries are ascending, by construction.  A tree is determined by its look-ups (`KeyTree.ext_get`), and
over lists a prefix or a lower bound selects entries in their order.
-/

open AssocMap

/-- A map in the order of its keys. -/
structure KeyTree (κ ν : Type) [LinearOrder κ] where
  entries : List (κ × ν)
  ascending : Ascending entries

namespace KeyTree

variable {κ ν : Type} [LinearOrder κ]

def empty : KeyTree κ ν := ⟨[], List.Pairwise.nil⟩

instance : Inhabited (KeyTree κ ν) := ⟨empty⟩

def get (t : KeyTree κ ν) (k : κ) : Option ν := t.entries.lookup k

def contains (t : KeyTree κ ν) (k : κ) : Bool := (t.get k).isSome

def insert (k : κ) (v : ν) (t : KeyTree κ ν) : KeyTree κ ν :=
  ⟨sortedInsert k v t.entries, sortedInsert_ascending k v t.ascending⟩

def remove (k : κ) (t : KeyTree κ ν) : KeyTree κ ν :=
  ⟨t.entries.filter fun e => e.1 ≠ k, t.ascending.filter _⟩

/-- Each value is replaced, or goes. -/
def filterMap {ν' : Type} (f : ν → Option ν') (t : KeyTree κ ν) : KeyTree κ ν' :=
  ⟨t.entries.filterMap fun e => (f e.2).map fun v => (e.1, v), by
    refine t.ascending.filterMap _ fun a b hab a' ha' b' hb' => ?_
    obtain ⟨_, -, rfl⟩ := Option.map_eq_some_iff.mp ha'
    obtain ⟨_, -, rfl⟩ := Option.map_eq_some_iff.mp hb'
    exact hab⟩

/-- What is held, in the order of the keys. -/
def values (t : KeyTree κ ν) : List ν := t.entries.map Prod.snd

/-- The keys from `start` on, in their order. -/
def range (t : KeyTree κ ν) (start : κ) : List κ := (keys t.entries).filter fun k => start ≤ k

theorem mem_entries {t : KeyTree κ ν} {k : κ} {v : ν} : (k, v) ∈ t.entries ↔ t.get k = some v :=
  (lookup_iff_mem t.ascending.distinctKeys).symm

theorem mem_keys_iff {t : KeyTree κ ν} {k : κ} : k ∈ keys t.entries ↔ t.contains k := by
  rw [contains, get, lookup_isSome]

@[simp] theorem get_empty (k : κ) : (empty : KeyTree κ ν).get k = none := rfl

@[simp] theorem contains_empty (k : κ) : (empty : KeyTree κ ν).contains k = false := rfl

theorem get_insert (k : κ) (v : ν) (t : KeyTree κ ν) (k' : κ) :
    (t.insert k v).get k' = if k' = k then some v else t.get k' :=
  lookup_sortedInsert k v t.entries k'

theorem get_remove (k : κ) (t : KeyTree κ ν) (k' : κ) :
    (t.remove k).get k' = if k' = k then none else t.get k' := by
  split_ifs with h
  · subst h
    refine lookup_none fun hmem => ?_
    obtain ⟨v, hv⟩ := AssocMap.mem_keys.mp hmem
    simpa using (List.mem_filter.mp hv).2
  · cases hget : t.get k' with
    | none =>
      refine lookup_none fun hmem => ?_
      obtain ⟨v, hv⟩ := AssocMap.mem_keys.mp hmem
      rw [mem_entries.mp (List.mem_filter.mp hv).1] at hget
      cases hget
    | some v =>
      exact mem_entries.mp (List.mem_filter.mpr ⟨mem_entries.mpr hget, by simpa using h⟩)

theorem get_filterMap {ν' : Type} (f : ν → Option ν') (t : KeyTree κ ν) (k : κ) :
    (t.filterMap f).get k = (t.get k).bind f := by
  ext v
  rw [← mem_entries, Option.bind_eq_some_iff, filterMap, List.mem_filterMap]
  simp only [← mem_entries, Option.map_eq_some_iff, Prod.mk.injEq, Prod.exists]
  constructor
  · rintro ⟨_, w, hw, _, hv, rfl, rfl⟩
    exact ⟨w, hw, hv⟩
  · rintro ⟨w, hw, hv⟩
    exact ⟨k, w, hw, v, hv, rfl, rfl⟩

@[simp] theorem contains_insert (k : κ) (v : ν) (t : KeyTree κ ν) (k' : κ) :
    (t.insert k v).contains k' ↔ k' = k ∨ t.contains k' := by
  rw [contains, get_insert]
  split_ifs with h <;> simp [h, contains]

@[simp] theorem contains_remove (k : κ) (t : KeyTree κ ν) (k' : κ) :
    (t.remove k).contains k' ↔ k' ≠ k ∧ t.contains k' := by
  rw [contains, get_remove]
  split_ifs with h <;> simp [h, contains]

/-- A tree is determined by its look-ups. -/
theorem ext_get {t u : KeyTree κ ν} (h : ∀ k, t.get k = u.get k) : t = u := by
  obtain ⟨entries, ht⟩ := t
  obtain ⟨entries', hu⟩ := u
  obtain rfl : entries = entries' := ht.ext_lookup hu h
  rfl

/-- A set of keys is determined by its members. -/
theorem ext_contains {t u : KeyTree κ Unit} (h : ∀ k, t.contains k ↔ u.contains k) : t = u := by
  refine ext_get fun k => ?_
  have hk := h k
  unfold contains at hk
  cases ht : t.get k <;> cases hu : u.get k <;> simp_all

theorem mem_range {t : KeyTree κ ν} {start k : κ} :
    k ∈ t.range start ↔ t.contains k ∧ start ≤ k := by
  rw [range, List.mem_filter, mem_keys_iff, decide_eq_true_eq]

theorem keys_pairwise (t : KeyTree κ ν) : (keys t.entries).Pairwise (· < ·) :=
  List.pairwise_map.mpr t.ascending

theorem mem_values {t : KeyTree κ ν} {v : ν} : v ∈ t.values ↔ ∃ k, t.get k = some v := by
  simp [values, ← mem_entries]

/-- A scan that reads from each key the record of that key reads the records in their order. -/
theorem filterMap_eq_of_keys {ρ : Type} {keys : List κ} {read : κ → Option ρ} {keyOf : ρ → κ}
    {records : List ρ} (hkeys : keys.Pairwise (· < ·))
    (hread : ∀ k ∈ keys, ∀ r, read k = some r → k = keyOf r)
    (hrecords : records.Pairwise fun r r' => keyOf r < keyOf r')
    (hmem : ∀ r, r ∈ records ↔ ∃ k ∈ keys, read k = some r) : keys.filterMap read = records := by
  have hfound : (keys.filterMap read).Pairwise fun r r' => keyOf r < keyOf r' := by
    refine List.pairwise_filterMap.mpr (hkeys.imp_of_mem fun {k k'} hk hk' hlt r hr r' hr' => ?_)
    rw [← hread k hk r hr, ← hread k' hk' r' hr']
    exact hlt
  have nodup {l : List ρ} (hl : l.Pairwise fun r r' => keyOf r < keyOf r') : l.Nodup :=
    hl.imp fun {r r'} hlt (heq : r = r') => lt_irrefl (keyOf r') (heq ▸ hlt)
  refine List.Perm.eq_of_pairwise (fun r r' _ _ hlt hgt => absurd hlt (lt_asymm hgt)) hfound hrecords ?_
  refine (List.perm_ext_iff_of_nodup (nodup hfound) (nodup hrecords)).mpr fun r => ?_
  rw [List.mem_filterMap, hmem]

/-- Up to a limit a scan loses nothing just if what it would find there is what it can find. -/
theorem take_filter_eq_iff {ρ : Type} (p : ρ → Bool) {l : List ρ} {n : ℕ} :
    (l.filter p).take n = l.take n ↔ ∀ r ∈ l.take n, p r = true := by
  constructor
  · intro h r hr
    exact List.of_mem_filter (List.mem_of_mem_take (h ▸ hr))
  · intro h
    induction l generalizing n with
    | nil => rfl
    | cons r l ih =>
      cases n with
      | zero => rw [List.take_zero, List.take_zero]
      | succ n =>
        rw [List.filter_cons_of_pos (h r List.mem_cons_self), List.take_succ_cons,
          List.take_succ_cons, ih fun r' hr' => h r' (List.mem_cons_of_mem _ hr')]

/-! ## Keys that are lists -/

/-- Byte strings are kept in the order of their bytes. -/
instance : LinearOrder UInt8 where
  le_refl := UInt8.le_refl
  le_trans _ _ _ := UInt8.le_trans
  le_antisymm _ _ := UInt8.le_antisymm
  le_total := UInt8.le_total
  lt_iff_le_not_ge a b := by
    simp only [UInt8.lt_iff_toNat_lt, UInt8.le_iff_toNat_le]
    omega
  toDecidableLE := inferInstance

section Order

variable {α : Type} [LinearOrder α]

/-- Texts of one length are compared first. -/
theorem append_lt_append_iff {xs xs' ys ys' : List α} (h : xs.length = xs'.length) :
    xs ++ ys < xs' ++ ys' ↔ xs < xs' ∨ xs = xs' ∧ ys < ys' := by
  induction xs generalizing xs' with
  | nil =>
    obtain rfl := List.eq_nil_of_length_eq_zero h.symm
    simp
  | cons x xs ih =>
    cases xs' with
    | nil => cases h
    | cons x' xs' =>
      simp only [List.cons_append, List.cons_lt_cons_iff, ih (Nat.succ.inj h), List.cons.injEq]
      tauto

theorem append_lt_append_left_iff {p xs ys : List α} : p ++ xs < p ++ ys ↔ xs < ys := by
  rw [append_lt_append_iff rfl]
  simp

theorem append_le_append_left_iff {p xs ys : List α} : p ++ xs ≤ p ++ ys ↔ xs ≤ ys := by
  rw [← not_lt, append_lt_append_left_iff, not_lt]

/-- What stands between two keys with a prefix has it too. -/
theorem prefix_of_between {p s k t : List α} (hs : p ++ s ≤ k) (ht : k ≤ p ++ t) : p <+: k := by
  induction p generalizing k with
  | nil => exact List.nil_prefix
  | cons a p ih =>
    cases k with
    | nil => exact absurd hs (by simp)
    | cons b k =>
      rw [← not_lt, List.cons_append, List.cons_lt_cons_iff, not_or, not_and] at hs ht
      obtain rfl : a = b := le_antisymm (not_lt.mp hs.1) (not_lt.mp ht.1)
      exact List.cons_prefix_cons.mpr ⟨rfl, ih (not_lt.mp (hs.2 rfl)) (not_lt.mp (ht.2 rfl))⟩

/-- A range that starts at a prefix holds the keys with that prefix in front. -/
theorem takeWhile_range [BEq α] [LawfulBEq α] {t : KeyTree (List α) ν} (p s : List α) :
    (t.range (p ++ s)).takeWhile p.isPrefixOf = (t.range (p ++ s)).filter p.isPrefixOf := by
  have hsorted : (t.range (p ++ s)).Pairwise (· < ·) := t.keys_pairwise.filter _
  have hle : ∀ k ∈ t.range (p ++ s), p ++ s ≤ k := fun k hk => (mem_range.mp hk).2
  generalize t.range (p ++ s) = keys at hsorted hle
  induction keys with
  | nil => rfl
  | cons k keys ih =>
    obtain ⟨hlt, hsorted⟩ := List.pairwise_cons.mp hsorted
    by_cases hk : p.isPrefixOf k = true
    · rw [List.takeWhile_cons_of_pos hk, List.filter_cons_of_pos hk,
        ih hsorted fun k' hk' => hle k' (List.mem_cons_of_mem _ hk')]
    · have hnone : ∀ k' ∈ keys, ¬ p.isPrefixOf k' = true := by
        intro k' hk' hprefix
        obtain ⟨t, rfl⟩ := List.isPrefixOf_iff_prefix.mp hprefix
        exact hk (List.isPrefixOf_iff_prefix.mpr
          (prefix_of_between (hle k List.mem_cons_self) (hlt _ hk').le))
      rw [List.takeWhile_cons_of_neg hk, List.filter_cons_of_neg hk,
        List.filter_eq_nil_iff.mpr hnone]

end Order

section Prefix

variable {α : Type} [DecidableEq α] [LinearOrder (List α)]

/-- The keys that begin with `p`, in their order. -/
def scanPrefix (t : KeyTree (List α) ν) (p : List α) : List (List α) :=
  (keys t.entries).filter p.isPrefixOf

theorem mem_scanPrefix {t : KeyTree (List α) ν} {p k : List α} :
    k ∈ t.scanPrefix p ↔ t.contains k ∧ p <+: k := by
  rw [scanPrefix, List.mem_filter, mem_keys_iff, List.isPrefixOf_iff_prefix]

omit [LinearOrder (List α)] in
/-- What stands before the first separator is read off. -/
theorem split_first {s : α} {xs xs' ys ys' : List α} (h : s ∉ xs) (h' : s ∉ xs')
    (heq : xs ++ s :: ys = xs' ++ s :: ys') : xs = xs' ∧ ys = ys' := by
  have hfirst {zs rest : List α} (hzs : s ∉ zs) : (zs ++ s :: rest).takeWhile (· ≠ s) = zs := by
    rw [List.takeWhile_append_of_pos fun c hc => by simpa using ne_of_mem_of_not_mem hc hzs]
    simp
  have hxs : xs = xs' := by rw [← hfirst h, heq, hfirst h']
  rw [hxs] at heq
  exact ⟨hxs, (List.cons.inj (List.append_cancel_left heq)).2⟩

omit [LinearOrder (List α)] in
/-- What stands behind the last separator is read off. -/
theorem split_last {s : α} {xs xs' ys ys' : List α} (h : s ∉ ys) (h' : s ∉ ys')
    (heq : xs ++ s :: ys = xs' ++ s :: ys') : xs = xs' ∧ ys = ys' := by
  have hreverse : ys.reverse ++ s :: xs.reverse = ys'.reverse ++ s :: xs'.reverse := by
    simpa using congrArg List.reverse heq
  obtain ⟨hys, hxs⟩ := split_first (by simpa using h) (by simpa using h') hreverse
  exact ⟨List.reverse_injective hxs, List.reverse_injective hys⟩

end Prefix

end KeyTree
