import Ubl.Lib.Paging
import Ubl.Chipstore.Query
import Ubl.Chipstore.Refinement

/-!
# The pages of a query

Every call of `query_chips` sorts what it finds anew, by the time of creation only.  Chips of one
time stay as the iteration gave them: that of the map of all chips is the same until the map is
changed, that of a set of candidates, which is made for the call, is another in every call.  So the
pages of a query that goes through the indexes make up the result unless one ends between chips of
one time.

    Partitions (run ops) query limit ↔
      (query.NamesIndex → no page ends in a tie)                       (pages_partition_iff)
-/

namespace Ubl.Chipstore

open Paging ExceptLemmas
open ChipStore (matchesQuery)

/-! ## Iteration -/

/-- Some ids come first, as they stand. -/
def HashOrder.first (ids : List String) (hids : ids.Nodup) : HashOrder where
  toList s := ids.filter (· ∈ s) ++ sorted.toList (s.filter (· ∉ ids))
  nodup s := by
    refine List.nodup_append.mpr ⟨hids.filter _, sorted.nodup _, ?_⟩
    rintro cid hcid _ hcid' rfl
    exact (Finset.mem_filter.mp ((sorted.mem_toList _ _).mp hcid')).2 (List.mem_of_mem_filter hcid)
  mem_toList s cid := by
    rw [List.mem_append, List.mem_filter, decide_eq_true_iff, sorted.mem_toList, Finset.mem_filter]
    tauto

/-- The query names a type, a tag or an executor. -/
def ChipQuery.NamesIndex (query : ChipQuery) : Prop :=
  query.chipType.isSome ∨ query.tags ≠ [] ∨ query.executorDid.isSome

theorem ChipQuery.namesIndex_iff (query : ChipQuery) : query.NamesIndex ↔
    ¬ (query.chipType.isNone && query.tags.isEmpty && query.executorDid.isNone) = true := by
  unfold NamesIndex
  cases query.chipType <;> cases query.tags <;> cases query.executorDid <;> simp

/-- The page of the query, by its number. -/
def ChipQuery.page (query : ChipQuery) (limit k : ℕ) : ChipQuery :=
  { query with limit := some limit, offset := some (k * limit) }

namespace InMemoryBackend

/-- `query_chips` where the map of the chips and the set of the candidates come in some orders. -/
def queryChipsIn (map set : HashOrder) (b : InMemoryBackend) (query : ChipQuery) :
    Except ChipStoreError QueryResult := do
  let results := match ← b.candidateCidsFromIndexes query with
    | some cids => ((set.toList cids).filterMap b.chips.get).filter (matchesQuery query)
    | none => ((map.toList (AssocMap.keys b.chips.entries).toFinset).filterMap b.chips.get).filter
        (matchesQuery query)
  .ok (applyPagination results query)

variable (b : InMemoryBackend) (query : ChipQuery) (limit : ℕ)

/-- All that matches. -/
def matching : List StoredChip := b.scanAll.filter (matchesQuery query)

/-- In every order of the map, and of the candidates in each call, the pages have every chip that
matches once, if there are enough of them. -/
def Partitions : Prop :=
  ∀ (map : HashOrder) (sets : ℕ → HashOrder) (count : ℕ),
    (b.matching query).length ≤ count * limit →
    ∃ results : ℕ → QueryResult,
      (∀ k, b.queryChipsIn map (sets k) (query.page limit k) = .ok (results k)) ∧
      ((List.range count).flatMap fun k => (results k).chips).Perm (b.matching query)

variable {b query limit}

theorem filterMap_keys (b : InMemoryBackend) :
    (AssocMap.keys b.chips.entries).filterMap b.chips.get = b.scanAll := by
  rw [AssocMap.keys, List.filterMap_map, scanAll, KeyTree.values, ← List.filterMap_eq_map]
  exact List.filterMap_congr fun e he => KeyTree.mem_entries.mp he

/-- In the order of the keys this is the query of the backend. -/
theorem queryChipsIn_sorted : b.queryChipsIn .sorted .sorted query = b.queryChips query := by
  have hkeys : (AssocMap.keys b.chips.entries).toFinset.sort (· ≤ ·) =
      AssocMap.keys b.chips.entries :=
    (List.toFinset_sort _ b.chips.ascending.distinctKeys).mpr
      (b.chips.keys_pairwise.imp fun hlt => hlt.le)
  unfold queryChipsIn queryChips HashOrder.sorted
  simp only [hkeys, filterMap_keys]
  rfl

/-- A query looks for candidates just if it names an index. -/
theorem candidates_isSome {candidates : Option (Finset String)}
    (h : b.candidateCidsFromIndexes query = .ok candidates) :
    candidates.isSome ↔ query.NamesIndex := by
  unfold candidateCidsFromIndexes candidateCids at h
  split at h
  · rename_i hnone
    obtain rfl := Except.ok.inj h
    simp [query.namesIndex_iff, hnone]
  · rename_i hnamed
    obtain ⟨_, -, h⟩ := bind_eq_ok.mp h
    obtain ⟨_, -, h⟩ := bind_eq_ok.mp h
    obtain ⟨_, -, h⟩ := bind_eq_ok.mp h
    obtain rfl := Except.ok.inj h
    exact iff_of_true rfl (query.namesIndex_iff.mpr hnamed)

/-- A page of what a call finds. -/
theorem applyPagination_page (results : List StoredChip) (query : ChipQuery) (limit k : ℕ) :
    (applyPagination results (query.page limit k)).chips =
      Paging.page limit k (results.insertionSort fun a b => b.createdAt ≤ a.createdAt) := rfl

theorem sorted_insertionSort (results : List StoredChip) :
    Sorted StoredChip.createdAt (results.insertionSort fun a b => b.createdAt ≤ a.createdAt) :=
  List.pairwise_insertionSort _ results

/-- Without candidates every call finds the same. -/
theorem Inv.queryChipsIn_map (h : b.Inv) (hnone : ¬ query.NamesIndex) (map : HashOrder) :
    ∃ results : List StoredChip, results.Perm (b.matching query) ∧ ∀ (set : HashOrder) (k : ℕ),
      b.queryChipsIn map set (query.page limit k) =
        .ok (applyPagination results (query.page limit k)) := by
  refine ⟨_, h.perm_matching (map.nodup (AssocMap.keys b.chips.entries).toFinset)
    fun chip hchip _ => ?_, fun set k => ?_⟩
  · rw [map.mem_toList, List.mem_toFinset, KeyTree.mem_keys_iff, KeyTree.contains,
      h.mem_scanAll.mp hchip]
    rfl
  · obtain ⟨candidates, hcandidates, -⟩ := h.candidates (query.page limit k)
    have hsome := candidates_isSome hcandidates
    cases candidates with
    | none =>
      unfold queryChipsIn
      rw [hcandidates]
      rfl
    | some cids => exact absurd (hsome.mp rfl) hnone

/-- The candidates of a call, in its order. -/
theorem Inv.queryChipsIn_set (h : b.Inv) (hnamed : query.NamesIndex) :
    ∃ cids : Finset String, (∀ chip ∈ b.matching query, chip.cid ∈ cids) ∧
      ∀ (map set : HashOrder) (k : ℕ), b.queryChipsIn map set (query.page limit k) =
        .ok (applyPagination (((set.toList cids).filterMap b.chips.get).filter (matchesQuery query))
          (query.page limit k)) := by
  obtain ⟨candidates, hcandidates, hmem⟩ := h.candidates query
  have hsome := candidates_isSome hcandidates
  cases candidates with
  | none => cases hsome.mpr hnamed
  | some cids =>
    refine ⟨cids, fun chip hchip => ?_, fun map set k => ?_⟩
    · obtain ⟨hchip, hmatch⟩ := List.mem_filter.mp hchip
      exact hmem cids rfl chip hchip hmatch
    · have hpage : b.candidateCidsFromIndexes (query.page limit k) = .ok (some cids) := hcandidates
      unfold queryChipsIn
      rw [hpage]
      rfl

/-- In the order that has them first, a call finds the chips that match as they are listed. -/
theorem Inv.filter_first (h : b.Inv) {l : List StoredChip} (hl : l.Perm (b.matching query))
    (hids : (l.map StoredChip.cid).Nodup) {cids : Finset String}
    (hcids : ∀ chip ∈ b.matching query, chip.cid ∈ cids) :
    (((HashOrder.first (l.map StoredChip.cid) hids).toList cids).filterMap b.chips.get).filter
      (matchesQuery query) = l := by
  have hstored : ∀ chip ∈ l, b.chips.get chip.cid = some chip ∧ matchesQuery query chip = true := by
    intro chip hchip
    obtain ⟨hscan, hmatch⟩ := List.mem_filter.mp (hl.mem_iff.mp hchip)
    exact ⟨h.mem_scanAll.mp hscan, hmatch⟩
  have hfirst : (l.map StoredChip.cid).filter (· ∈ cids) = l.map StoredChip.cid := by
    rw [List.filter_eq_self, List.forall_mem_map]
    exact fun chip hchip => by simpa using hcids chip (hl.mem_iff.mp hchip)
  have hfound : (l.map StoredChip.cid).filterMap b.chips.get = l := by
    have hget : ∀ chip ∈ l, (b.chips.get ∘ StoredChip.cid) chip = some chip :=
      fun chip hchip => (hstored chip hchip).1
    rw [List.filterMap_map, List.filterMap_congr hget, List.filterMap_some]
  have hrest : ((HashOrder.sorted.toList (cids.filter (· ∉ l.map StoredChip.cid))).filterMap
      b.chips.get).filter (matchesQuery query) = [] := by
    rw [List.filter_eq_nil_iff]
    intro chip hchip hmatch
    obtain ⟨cid, hcid, hget⟩ := List.mem_filterMap.mp hchip
    obtain rfl := h.cid_eq cid chip hget
    refine (Finset.mem_filter.mp ((HashOrder.sorted.mem_toList _ _).mp hcid)).2
      (List.mem_map_of_mem ?_)
    exact hl.mem_iff.mpr (List.mem_filter.mpr ⟨h.mem_scanAll.mpr hget, hmatch⟩)
  unfold HashOrder.first
  simp only
  rw [List.filterMap_append, List.filter_append, hfirst, hfound, hrest, List.append_nil]
  exact List.filter_eq_self.mpr fun chip hchip => (hstored chip hchip).2

theorem Inv.nodup_matching (h : b.Inv) : ((b.matching query).map StoredChip.cid).Nodup :=
  h.nodup_scanAll.sublist (List.filter_sublist.map _)

/-- Where a page starts in a tie, some orders of the candidates repeat a chip. -/
theorem Inv.not_partitions (h : b.Inv) (hnamed : query.NamesIndex) (hlimit : 1 ≤ limit) {k : ℕ}
    (htie : TieAt StoredChip.createdAt (b.matching query) (k * limit)) :
    ¬ b.Partitions query limit := by
  intro hpages
  obtain ⟨cids, hcids, hquery⟩ := h.queryChipsIn_set hnamed
  let l := (b.matching query).insertionSort fun a b => b.createdAt ≤ a.createdAt
  have hl : l.Perm (b.matching query) := List.perm_insertionSort _ _
  obtain ⟨l', hl', hsorted', hnot⟩ := exists_not_perm h.nodup_matching.of_map
    (sorted_insertionSort _) hl hlimit htie
  have hids {l : List StoredChip} (hl : l.Perm (b.matching query)) :
      (l.map StoredChip.cid).Nodup := (hl.map _).nodup_iff.mpr h.nodup_matching
  obtain ⟨results, hresults, hperm⟩ := hpages .sorted
    (fun j => if j = k then .first _ (hids hl') else .first _ (hids hl))
    ((b.matching query).length + k + 1) (by nlinarith)
  refine hnot ((b.matching query).length + k + 1) (by omega) ?_
  suffices hpage : ∀ j, (results j).chips = Paging.page limit j (if j = k then l' else l) by
    simpa only [hpage] using hperm
  intro j
  have hfound := hresults j
  rw [hquery, Except.ok.injEq] at hfound
  rw [← hfound, applyPagination_page]
  split_ifs
  · rw [h.filter_first hl' (hids hl') hcids, List.Pairwise.insertionSort_eq hsorted']
  · rw [h.filter_first hl (hids hl) hcids, List.Pairwise.insertionSort_eq (sorted_insertionSort _)]

theorem Inv.partitions_of_map (h : b.Inv) (hnone : ¬ query.NamesIndex) :
    b.Partitions query limit := by
  intro map sets count hcount
  obtain ⟨found, hfound, hquery⟩ := h.queryChipsIn_map hnone map
  refine ⟨_, fun k => hquery (sets k) k, ?_⟩
  simp only [applyPagination_page]
  have hsort := (List.perm_insertionSort (fun a b : StoredChip => b.createdAt ≤ a.createdAt)
    found).trans hfound
  rw [flatMap_page, List.take_of_length_le (hsort.length_eq.trans_le hcount)]
  exact hsort

theorem Inv.partitions_of_set (h : b.Inv) (hnamed : query.NamesIndex)
    (hties : ∀ k, ¬ TieAt StoredChip.createdAt (b.matching query) (k * limit)) :
    b.Partitions query limit := by
  intro map sets count hcount
  obtain ⟨cids, hcids, hquery⟩ := h.queryChipsIn_set hnamed
  refine ⟨_, fun k => hquery map (sets k) k, ?_⟩
  simp only [applyPagination_page]
  refine flatMap_page_perm (fun k => (List.perm_insertionSort _ _).trans ?_)
    (fun k => sorted_insertionSort _) hties hcount
  refine h.perm_matching ((sets k).nodup cids) fun chip hchip hmatch => ?_
  exact ((sets k).mem_toList cids chip.cid).mpr (hcids chip (List.mem_filter.mpr ⟨hchip, hmatch⟩))

/-- The pages make up the result unless the query goes through the indexes and one of them ends
between chips of one time. -/
theorem pages_partition_iff (ops : List StoreOp) (query : ChipQuery) (limit : ℕ)
    (hlimit : 1 ≤ limit) : (run ops).Partitions query limit ↔
      (query.NamesIndex →
        ∀ k, ¬ TieAt StoredChip.createdAt ((run ops).matching query) (k * limit)) := by
  have h := (inv_run ops).1
  constructor
  · exact fun hpages hnamed k htie => h.not_partitions hnamed hlimit htie hpages
  · intro hties
    by_cases hnamed : query.NamesIndex
    · exact h.partitions_of_set hnamed (hties hnamed)
    · exact h.partitions_of_map hnamed

/-- Two chips, a page for each, and the query goes through the indexes. -/
theorem pages_partition_iff_sample :
    (run [.putChip sampleTwin, .putChip sampleAgain]).Partitions
      (tagQuery "ubl/document" "type:ubl/document" none) 1 := by
  refine (pages_partition_iff [.putChip sampleTwin, .putChip sampleAgain] _ 1 (Nat.le_refl 1)).mpr
    fun _ k => not_tieAt_of_nodup ?_
  have hmatching : (run [.putChip sampleTwin, .putChip sampleAgain]).matching
      (tagQuery "ubl/document" "type:ubl/document" none) = [sampleAgain, sampleTwin] := by
    with_unfolding_all rfl
  rw [hmatching]
  decide

/-- Two chips of one time: where the second call has the candidates in the other order, one chip comes
twice. -/
theorem twins_repeated : ¬ ∀ (ops : List StoreOp) (query : ChipQuery) (limit : ℕ), 1 ≤ limit →
    (run ops).Partitions query limit := by
  intro h
  have hmatching : (run [.putChip sampleStored, .putChip sampleTwin]).matching
      (tagQuery sampleStored.chipType "type:ubl/document" none) = [sampleStored, sampleTwin] := by
    with_unfolding_all rfl
  refine (inv_run [.putChip sampleStored, .putChip sampleTwin]).1.not_partitions (.inl rfl)
    (Nat.le_refl 1) (k := 1) ?_ (h _ (tagQuery sampleStored.chipType "type:ubl/document" none) 1 (Nat.le_refl 1))
  rw [hmatching]
  exact ⟨sampleStored.createdAt, by decide, by decide⟩

end InMemoryBackend

end Ubl.Chipstore
