import Mathlib.Data.List.Nodup
import Mathlib.Data.List.Perm.Basic
import Mathlib.Logic.Function.Basic

/-!
# Secondary indexes

Records are stored under their ids, and an index says under which keys an id is entered.  The index
may hold more than it should (entries of records that were overwritten), never less:

* `Covers`: every record stored is entered under each of its keys;
* a store and an index that move together keep covering (`Covers.insert`, `Covers.erase`);
* to look up the ids an index gives and to keep what matches is to scan everything and to keep what
  matches (`perm_of_candidates`): whatever is entered too much is filtered out again.

Where a key leads to one id, nothing filters and the index has to say neither too much nor too little:

* `Inverts`: every entry leads to a record of its key, every record's key has an entry;
* then a look-up is exact (`Inverts.exact`), and a move of the store and the index keeps it so exactly
  when no entry of the old record is left and no other record's is taken (`exact_put_iff`,
  `exact_erase_iff`).
-/

namespace SecondaryIndex

variable {ι κ ρ : Type} {stored stored' : ι → Option ρ} {keysOf : ρ → κ → Prop}
  {has has' : κ → ι → Prop}

/-- The stored records are entered under their keys. -/
def Covers (stored : ι → Option ρ) (keysOf : ρ → κ → Prop) (has : κ → ι → Prop) : Prop :=
  ∀ ⦃i r⦄, stored i = some r → ∀ ⦃k⦄, keysOf r k → has k i

theorem covers_empty : Covers (fun _ => none) keysOf has := nofun

/-- A record is stored, over one that was there or not, and entered under its keys. -/
theorem Covers.insert (h : Covers stored keysOf has) {i : ι} {r : ρ}
    (hstored : ∀ j r', stored' j = some r' → (j = i ∧ r' = r) ∨ stored j = some r')
    (hkeep : ∀ k j, has k j → has' k j) (hnew : ∀ k, keysOf r k → has' k i) :
    Covers stored' keysOf has' := by
  intro j r' hj k hk
  rcases hstored j r' hj with ⟨rfl, rfl⟩ | hj
  · exact hnew k hk
  · exact hkeep k j (h hj hk)

/-- The record of one id goes, and no entry of another id. -/
theorem Covers.erase (h : Covers stored keysOf has) {i : ι}
    (hstored : ∀ j r, stored' j = some r → j ≠ i ∧ stored j = some r)
    (hkeep : ∀ k j r, stored j = some r → j ≠ i → has k j → has' k j) :
    Covers stored' keysOf has' := by
  intro j r hj k hk
  obtain ⟨hne, hj⟩ := hstored j r hj
  exact hkeep k j r hj hne (h hj hk)

/-- Looking up the candidates finds what a scan finds. -/
theorem perm_of_candidates {id : ρ → ι} {all : List ρ} {ids : List ι} {p : ρ → Bool}
    (hall : all.Nodup) (hids : ids.Nodup) (hmem : ∀ r, r ∈ all ↔ stored (id r) = some r)
    (hid : ∀ i r, stored i = some r → id r = i) (hcandidates : ∀ r ∈ all, p r → id r ∈ ids) :
    ((ids.filterMap stored).filter p).Perm (all.filter p) := by
  have hfound : (ids.filterMap stored).Nodup := by
    refine hids.filterMap fun i j r hi hj => ?_
    rw [← hid i r hi, ← hid j r hj]
  refine (List.perm_ext_iff_of_nodup (hfound.filter _) (hall.filter _)).mpr fun r => ?_
  simp only [List.mem_filter, List.mem_filterMap, hmem]
  constructor
  · rintro ⟨⟨i, -, hi⟩, hp⟩
    obtain rfl := hid i r hi
    exact ⟨hi, hp⟩
  · rintro ⟨hr, hp⟩
    exact ⟨⟨id r, hcandidates r ((hmem r).mpr hr) hp, hr⟩, hp⟩

/-! ## One id under each key -/

section Unique

variable {keyOf : ρ → κ} {index : κ → Option ι}

structure Inverts (stored : ι → Option ρ) (keyOf : ρ → κ) (index : κ → Option ι) : Prop where
  sound : ∀ ⦃k i⦄, index k = some i → ∃ r, stored i = some r ∧ keyOf r = k
  complete : ∀ ⦃i r⦄, stored i = some r → ∃ j, index (keyOf r) = some j

/-- The record an entry leads to. -/
def lookUp (stored : ι → Option ρ) (index : κ → Option ι) (k : κ) : Option ρ :=
  (index k).bind stored

/-- A key finds a record just when one has it, and what it finds has it. -/
def Exact (stored : ι → Option ρ) (keyOf : ρ → κ) (index : κ → Option ι) : Prop :=
  ∀ k, ((lookUp stored index k).isSome ↔ ∃ i r, stored i = some r ∧ keyOf r = k) ∧
    ∀ r, lookUp stored index k = some r → keyOf r = k

theorem inverts_empty : Inverts (fun _ : ι => none) keyOf fun _ => none := ⟨nofun, nofun⟩

theorem Inverts.exact (h : Inverts stored keyOf index) : Exact stored keyOf index := by
  intro k
  refine ⟨⟨fun hsome => ?_, ?_⟩, fun r hr => ?_⟩
  · obtain ⟨r, hr⟩ := Option.isSome_iff_exists.mp hsome
    obtain ⟨i, hi, -⟩ := Option.bind_eq_some_iff.mp hr
    obtain ⟨r, hr, hk⟩ := h.sound hi
    exact ⟨i, r, hr, hk⟩
  · rintro ⟨i, r, hr, rfl⟩
    obtain ⟨j, hj⟩ := h.complete hr
    obtain ⟨r', hr', -⟩ := h.sound hj
    rw [lookUp, hj, Option.bind_some, hr']
    rfl
  · obtain ⟨i, hi, hr⟩ := Option.bind_eq_some_iff.mp hr
    obtain ⟨r', hr', hk⟩ := h.sound hi
    rw [hr] at hr'
    exact Option.some.inj hr' ▸ hk

variable [DecidableEq ι] [DecidableEq κ]

/-- The entry of an overwritten record's key leads elsewhere, when the key is not the new one. -/
theorem Inverts.put (h : Inverts stored keyOf index) {i : ι} {r : ρ}
    (hold : ∀ old, stored i = some old → keyOf old ≠ keyOf r → index (keyOf old) ≠ some i) :
    Inverts (Function.update stored i (some r)) keyOf
      (Function.update index (keyOf r) (some i)) := by
  constructor
  · intro k j hj
    rw [Function.update_apply] at hj
    split_ifs at hj with hk
    · obtain rfl := Option.some.inj hj
      exact ⟨r, Function.update_self .., hk.symm⟩
    · obtain ⟨r', hr', rfl⟩ := h.sound hj
      refine ⟨r', ?_, rfl⟩
      rwa [Function.update_of_ne]
      rintro rfl
      exact hold r' hr' hk hj
  · intro j r' hr'
    rw [Function.update_apply]
    split_ifs with hk
    · exact ⟨i, rfl⟩
    · rw [Function.update_apply] at hr'
      split_ifs at hr'
      · exact absurd (congrArg keyOf (Option.some.inj hr').symm) hk
      · exact h.complete hr'

theorem exact_put_iff (h : Inverts stored keyOf index) {i : ι} {r : ρ} :
    Exact (Function.update stored i (some r)) keyOf (Function.update index (keyOf r) (some i)) ↔
      ∀ old, stored i = some old → keyOf old ≠ keyOf r → index (keyOf old) ≠ some i := by
  refine ⟨fun hexact old _ hk hi => hk ?_, fun hold => (h.put hold).exact⟩
  -- the entry left behind leads to the new record
  refine ((hexact (keyOf old)).2 r ?_).symm
  rw [lookUp, Function.update_of_ne hk, hi, Option.bind_some, Function.update_self]

/-- No other record has the key whose entry goes. -/
theorem Inverts.erase (h : Inverts stored keyOf index) {i : ι} {r : ρ} (hi : stored i = some r)
    (hother : ∀ j r', stored j = some r' → j ≠ i → keyOf r' ≠ keyOf r) :
    Inverts (Function.update stored i none) keyOf (Function.update index (keyOf r) none) := by
  constructor
  · intro k j hj
    rw [Function.update_apply] at hj
    split_ifs at hj with hk
    obtain ⟨r', hr', rfl⟩ := h.sound hj
    refine ⟨r', ?_, rfl⟩
    rwa [Function.update_of_ne]
    rintro rfl
    rw [hi] at hr'
    exact hk (congrArg keyOf (Option.some.inj hr').symm)
  · intro j r' hr'
    rw [Function.update_apply] at hr'
    split_ifs at hr' with hj
    rw [Function.update_of_ne (hother j r' hr' hj)]
    exact h.complete hr'

theorem exact_erase_iff (h : Inverts stored keyOf index) {i : ι} {r : ρ} (hi : stored i = some r) :
    Exact (Function.update stored i none) keyOf (Function.update index (keyOf r) none) ↔
      ∀ j r', stored j = some r' → j ≠ i → keyOf r' ≠ keyOf r := by
  refine ⟨fun hexact j r' hr' hj hk => ?_, fun hother => (h.erase hi hother).exact⟩
  have hsome := (hexact (keyOf r)).1.mpr ⟨j, r', by rwa [Function.update_of_ne hj], hk⟩
  rw [lookUp, Function.update_self] at hsome
  cases hsome

end Unique

end SecondaryIndex
