import Mathlib

/-!
# Maps as association lists

Two maps over arbitrary keys and values, both written as the list of their
entries in iteration order:

* the *sorted* map: `sortedInsert` keeps the keys strictly ascending (`Ascending`);
  a list of ascending keys is determined by its set of entries (`Ascending.eq_of_perm`);
* the *insertion-ordered* map: `insertBack` replaces the value of a key in place
  or appends a new entry; the keys stay distinct (`DistinctKeys`).

Look-up is `List.lookup` on both.
-/

namespace AssocMap

variable {κ ν μ : Type*}

def keys (l : List (κ × ν)) : List κ := l.map Prod.fst

@[simp] theorem keys_nil : keys ([] : List (κ × ν)) = [] := rfl

@[simp] theorem keys_cons (e : κ × ν) (l : List (κ × ν)) : keys (e :: l) = e.1 :: keys l := rfl

theorem mem_keys {l : List (κ × ν)} {k : κ} : k ∈ keys l ↔ ∃ v, (k, v) ∈ l := by
  simp [keys]

theorem mem_keys_of_mem {l : List (κ × ν)} {e : κ × ν} (h : e ∈ l) : e.1 ∈ keys l :=
  List.mem_map_of_mem h

/-- No key twice. -/
def DistinctKeys (l : List (κ × ν)) : Prop := (keys l).Nodup

theorem DistinctKeys.append_new {k : κ} (v : ν) {l : List (κ × ν)} (hl : DistinctKeys l)
    (h : k ∉ keys l) : DistinctKeys (l ++ [(k, v)]) := by
  unfold DistinctKeys keys at *
  rw [List.map_append]
  refine List.Nodup.append hl (List.nodup_singleton _) ?_
  rw [List.disjoint_comm]
  simpa using h

/-! ## Look-up -/

section Lookup

variable [BEq κ] [LawfulBEq κ]

theorem lookup_cons_eq [DecidableEq κ] (k : κ) (v : ν) (l : List (κ × ν)) (k' : κ) :
    ((k, v) :: l).lookup k' = if k' = k then some v else l.lookup k' := by
  rw [List.lookup_cons]
  cases h : k' == k with
  | true => rw [if_pos (eq_of_beq h)]
  | false => rw [if_neg (beq_eq_false_iff_ne.mp h)]

theorem mem_of_lookup {l : List (κ × ν)} {k : κ} {v : ν} (h : l.lookup k = some v) :
    (k, v) ∈ l := by
  obtain ⟨l₁, l₂, rfl, -⟩ := List.lookup_eq_some_iff.mp h
  simp

theorem lookup_of_mem {l : List (κ × ν)} (hl : DistinctKeys l) {k : κ} {v : ν}
    (h : (k, v) ∈ l) : l.lookup k = some v := by
  induction l with
  | nil => cases h
  | cons e l ih =>
    obtain ⟨hne, hl'⟩ := List.nodup_cons.mp hl
    rcases List.mem_cons.mp h with rfl | h
    · simp
    · have hk : (k == e.1) = false := by
        apply beq_eq_false_iff_ne.mpr
        rintro rfl
        exact hne (mem_keys.mpr ⟨v, h⟩)
      rw [List.lookup_cons, hk]
      exact ih hl' h

theorem lookup_iff_mem {l : List (κ × ν)} (hl : DistinctKeys l) {k : κ} {v : ν} :
    l.lookup k = some v ↔ (k, v) ∈ l :=
  ⟨mem_of_lookup, lookup_of_mem hl⟩

theorem lookup_isSome {l : List (κ × ν)} {k : κ} : (l.lookup k).isSome ↔ k ∈ keys l := by
  induction l with
  | nil => simp
  | cons e l ih =>
    rw [List.lookup_cons, keys_cons, List.mem_cons]
    cases hk : k == e.1 with
    | true => simp [eq_of_beq hk]
    | false => simpa [beq_eq_false_iff_ne.mp hk] using ih

theorem lookup_none {l : List (κ × ν)} {k : κ} (h : k ∉ keys l) : l.lookup k = none := by
  rw [← lookup_isSome, Option.not_isSome_iff_eq_none] at h
  exact h

end Lookup

/-! ## The sorted map -/

section Sorted

variable [LinearOrder κ]

/-- Keys strictly ascending. -/
def Ascending (l : List (κ × ν)) : Prop := l.Pairwise fun a b => a.1 < b.1

instance (l : List (κ × ν)) : Decidable (Ascending l) :=
  inferInstanceAs (Decidable (l.Pairwise fun a b => a.1 < b.1))

/-- Insert into a sorted map, replacing the value of a key that is there. -/
def sortedInsert (k : κ) (v : ν) : List (κ × ν) → List (κ × ν)
  | [] => [(k, v)]
  | e :: l =>
    if k < e.1 then (k, v) :: e :: l
    else if k = e.1 then (k, v) :: l
    else e :: sortedInsert k v l

theorem sortedInsert_nil (k : κ) (v : ν) : sortedInsert k v [] = [(k, v)] := rfl

theorem sortedInsert_cons (k : κ) (v : ν) (e : κ × ν) (l : List (κ × ν)) :
    sortedInsert k v (e :: l) = if k < e.1 then (k, v) :: e :: l
      else if k = e.1 then (k, v) :: l else e :: sortedInsert k v l := rfl

theorem Ascending.distinctKeys {l : List (κ × ν)} (h : Ascending l) : DistinctKeys l := by
  unfold DistinctKeys keys
  rw [List.nodup_iff_pairwise_ne, List.pairwise_map]
  exact h.imp fun hab => ne_of_lt hab

theorem mem_sortedInsert {k : κ} {v : ν} {l : List (κ × ν)} {e : κ × ν}
    (h : e ∈ sortedInsert k v l) : e = (k, v) ∨ e ∈ l := by
  induction l with
  | nil => simpa [sortedInsert_nil] using h
  | cons f l ih =>
    rw [sortedInsert_cons] at h
    split_ifs at h with h1 h2
    · exact List.mem_cons.mp h
    · rcases List.mem_cons.mp h with h | h
      · exact Or.inl h
      · exact Or.inr (List.mem_cons_of_mem _ h)
    · rcases List.mem_cons.mp h with h | h
      · exact Or.inr (h ▸ List.mem_cons_self)
      · exact (ih h).imp id (List.mem_cons_of_mem _)

theorem sortedInsert_ascending (k : κ) (v : ν) {l : List (κ × ν)} (h : Ascending l) :
    Ascending (sortedInsert k v l) := by
  induction l with
  | nil => exact List.pairwise_singleton _ _
  | cons f l ih =>
    obtain ⟨hf, hl⟩ := List.pairwise_cons.mp h
    rw [sortedInsert_cons]
    split_ifs with h1 h2
    · refine List.pairwise_cons.mpr ⟨fun e he => ?_, h⟩
      rcases List.mem_cons.mp he with rfl | he
      · exact h1
      · exact lt_trans h1 (hf e he)
    · subst h2
      exact List.pairwise_cons.mpr ⟨hf, hl⟩
    · refine List.pairwise_cons.mpr ⟨fun e he => ?_, ih hl⟩
      rcases mem_sortedInsert he with rfl | he
      · exact lt_of_le_of_ne (not_lt.mp h1) (Ne.symm h2)
      · exact hf e he

/-- Inserting a new key adds exactly its entry. -/
theorem sortedInsert_perm {k : κ} (v : ν) {l : List (κ × ν)} (h : k ∉ keys l) :
    (sortedInsert k v l).Perm ((k, v) :: l) := by
  induction l with
  | nil => exact List.Perm.refl _
  | cons f l ih =>
    rw [keys_cons, List.mem_cons, not_or] at h
    rw [sortedInsert_cons]
    split_ifs with h1 h2
    · exact List.Perm.refl _
    · exact absurd h2 h.1
    · exact ((ih h.2).cons f).trans (List.Perm.swap _ _ _)

theorem lookup_sortedInsert [BEq κ] [LawfulBEq κ] (k : κ) (v : ν) (l : List (κ × ν)) (k' : κ) :
    (sortedInsert k v l).lookup k' = if k' = k then some v else l.lookup k' := by
  induction l with
  | nil => rw [sortedInsert_nil, lookup_cons_eq]
  | cons e l ih =>
    obtain ⟨k₀, v₀⟩ := e
    rw [sortedInsert_cons]
    by_cases h1 : k < k₀
    · rw [if_pos h1, lookup_cons_eq]
    rw [if_neg h1]
    by_cases h2 : k = k₀
    · subst h2
      rw [if_pos rfl, lookup_cons_eq, lookup_cons_eq]
      split_ifs <;> rfl
    · rw [if_neg h2, lookup_cons_eq, ih, lookup_cons_eq]
      split_ifs with h3 h4
      · exact absurd (h4.symm.trans h3) h2
      all_goals rfl

theorem mem_keys_sortedInsert {k k' : κ} {v : ν} {l : List (κ × ν)} :
    k' ∈ keys (sortedInsert k v l) ↔ k' = k ∨ k' ∈ keys l := by
  rw [← lookup_isSome, lookup_sortedInsert, ← lookup_isSome]
  split_ifs with h <;> simp [h]

/-- Inserting a key above all others appends its entry. -/
theorem sortedInsert_last {k : κ} (v : ν) {l : List (κ × ν)} (h : ∀ e ∈ l, e.1 < k) :
    sortedInsert k v l = l ++ [(k, v)] := by
  induction l with
  | nil => rfl
  | cons f l ih =>
    have hf := h f List.mem_cons_self
    rw [sortedInsert_cons, if_neg (not_lt.mpr hf.le), if_neg (ne_of_gt hf),
      ih fun e he => h e (List.mem_cons_of_mem _ he), List.cons_append]

/-- Two ascending lists with the same entries are the same list. -/
theorem Ascending.eq_of_perm {l₁ l₂ : List (κ × ν)} (h₁ : Ascending l₁) (h₂ : Ascending l₂)
    (h : l₁.Perm l₂) : l₁ = l₂ :=
  List.Perm.eq_of_pairwise (fun _ _ _ _ hab hba => absurd hab (not_lt.mpr hba.le)) h₁ h₂ h

/-- A sorted map is determined by its look-ups. -/
theorem Ascending.ext_lookup [BEq κ] [LawfulBEq κ] {l₁ l₂ : List (κ × ν)} (h₁ : Ascending l₁)
    (h₂ : Ascending l₂) (h : ∀ k, l₁.lookup k = l₂.lookup k) : l₁ = l₂ := by
  have nodup {l : List (κ × ν)} (hl : Ascending l) : l.Nodup :=
    hl.imp fun hab heq => absurd (congrArg Prod.fst heq) (ne_of_lt hab)
  refine h₁.eq_of_perm h₂ ((List.perm_ext_iff_of_nodup (nodup h₁) (nodup h₂)).mpr ?_)
  rintro ⟨k, v⟩
  rw [← lookup_iff_mem h₁.distinctKeys, ← lookup_iff_mem h₂.distinctKeys, h k]

theorem length_sortedInsert_le (k : κ) (v : ν) (l : List (κ × ν)) :
    (sortedInsert k v l).length ≤ l.length + 1 := by
  induction l with
  | nil => simp [sortedInsert_nil]
  | cons e l ih =>
    rw [sortedInsert_cons]
    split_ifs
    · simp
    · simp
    · simpa using ih

end Sorted

/-! ## The insertion-ordered map -/

section Insertion

variable [DecidableEq κ]

/-- Insert into an insertion-ordered map: in place for a key that is there,
at the back for a new one. -/
def insertBack (k : κ) (v : ν) : List (κ × ν) → List (κ × ν)
  | [] => [(k, v)]
  | e :: l => if e.1 = k then (k, v) :: l else e :: insertBack k v l

theorem insertBack_nil (k : κ) (v : ν) : insertBack k v [] = [(k, v)] := rfl

theorem insertBack_cons (k : κ) (v : ν) (e : κ × ν) (l : List (κ × ν)) :
    insertBack k v (e :: l) = if e.1 = k then (k, v) :: l else e :: insertBack k v l := rfl

theorem insertBack_new {k : κ} (v : ν) {l : List (κ × ν)} (h : k ∉ keys l) :
    insertBack k v l = l ++ [(k, v)] := by
  induction l with
  | nil => rfl
  | cons e l ih =>
    rw [keys_cons, List.mem_cons, not_or] at h
    rw [insertBack_cons, if_neg (Ne.symm h.1), ih h.2, List.cons_append]

theorem mem_insertBack {k : κ} {v : ν} {l : List (κ × ν)} {e : κ × ν}
    (h : e ∈ insertBack k v l) : e = (k, v) ∨ e ∈ l := by
  induction l with
  | nil => simpa [insertBack_nil] using h
  | cons f l ih =>
    rw [insertBack_cons] at h
    split_ifs at h
    · rcases List.mem_cons.mp h with h | h
      · exact Or.inl h
      · exact Or.inr (List.mem_cons_of_mem _ h)
    · rcases List.mem_cons.mp h with h | h
      · exact Or.inr (h ▸ List.mem_cons_self)
      · exact (ih h).imp id (List.mem_cons_of_mem _)

theorem lookup_insertBack {k : κ} {v : ν} {l : List (κ × ν)} {k' : κ} :
    (insertBack k v l).lookup k' = if k' = k then some v else l.lookup k' := by
  induction l with
  | nil => rw [insertBack_nil, lookup_cons_eq]
  | cons e l ih =>
    obtain ⟨k₁, v₁⟩ := e
    rw [insertBack_cons]
    split_ifs with h₁ h₂ h₂
    · rw [lookup_cons_eq, if_pos h₂]
    · rw [lookup_cons_eq, if_neg h₂, lookup_cons_eq, if_neg (fun heq => h₂ (heq.trans h₁))]
    · rw [lookup_cons_eq, ih, if_pos h₂, if_neg (h₂ ▸ Ne.symm h₁)]
    · rw [lookup_cons_eq, lookup_cons_eq, ih, if_neg h₂]

theorem DistinctKeys.insertBack (k : κ) (v : ν) {l : List (κ × ν)} (hl : DistinctKeys l) :
    DistinctKeys (insertBack k v l) := by
  induction l with
  | nil => exact List.nodup_singleton _
  | cons f l ih =>
    obtain ⟨hf, hl'⟩ := List.nodup_cons.mp hl
    rw [insertBack_cons]
    split_ifs with h
    · subst h
      exact List.nodup_cons.mpr ⟨hf, hl'⟩
    · refine List.nodup_cons.mpr ⟨fun hmem => ?_, ih hl'⟩
      obtain ⟨w, hw⟩ := mem_keys.mp hmem
      rcases mem_insertBack hw with heq | hw
      · exact h (congrArg Prod.fst heq)
      · exact hf (mem_keys.mpr ⟨w, hw⟩)

end Insertion

/-! ## Entries for some of the keys -/

section Entries

variable {value : κ → Option ν}

/-- The entries of the keys that have a value, in the order of the keys. -/
def entriesOf (ks : List κ) (value : κ → Option ν) : List (κ × ν) :=
  ks.filterMap fun k => (value k).map fun v => (k, v)

theorem mem_entriesOf {ks : List κ} {e : κ × ν} :
    e ∈ entriesOf ks value ↔ e.1 ∈ ks ∧ value e.1 = some e.2 := by
  simp only [entriesOf, List.mem_filterMap, Option.map_eq_some_iff]
  constructor
  · rintro ⟨k, hk, v, hv, rfl⟩
    exact ⟨hk, hv⟩
  · rintro ⟨hk, hv⟩
    exact ⟨e.1, hk, e.2, hv, rfl⟩

theorem keys_entriesOf_sublist (ks : List κ) (value : κ → Option ν) :
    (keys (entriesOf ks value)).Sublist ks := by
  induction ks with
  | nil => exact List.Sublist.refl _
  | cons k ks ih =>
    cases hv : value k with
    | none =>
      rw [entriesOf, List.filterMap_cons_none (by rw [hv, Option.map_none])]
      exact ih.cons k
    | some v =>
      rw [entriesOf, List.filterMap_cons_some (by rw [hv, Option.map_some])]
      exact ih.cons_cons k

theorem distinctKeys_entriesOf {ks : List κ} (h : ks.Nodup) : DistinctKeys (entriesOf ks value) :=
  h.sublist (keys_entriesOf_sublist ks value)

theorem lookup_entriesOf [DecidableEq κ] {ks : List κ} (h : ks.Nodup) {k : κ} (hk : k ∈ ks) :
    (entriesOf ks value).lookup k = value k := by
  cases hv : value k with
  | some v =>
    exact (lookup_iff_mem (distinctKeys_entriesOf h)).mpr (mem_entriesOf.mpr ⟨hk, hv⟩)
  | none =>
    rw [Option.eq_none_iff_forall_ne_some]
    intro v hlookup
    have hmem := (mem_entriesOf.mp (mem_of_lookup hlookup)).2
    exact absurd (hv.symm.trans hmem) nofun

theorem entriesOf_congr {ks : List κ} {value' : κ → Option ν} (h : ∀ k ∈ ks, value k = value' k) :
    entriesOf ks value = entriesOf ks value' :=
  List.filterMap_congr fun k hk => by rw [h k hk]

end Entries

end AssocMap
