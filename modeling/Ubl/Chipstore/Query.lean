import Ubl.Lib.KeyTree
import Ubl.Chipstore.Store

/-!
# What a query by tag finds

A tag is a name, a colon and a value, so it says of a chip what a field of its data says
(`field_of_tag`).  In a store whose puts have all come to the indexes, newest last in time, a query
for a type and a tag finds the chips of that type and value, the newest first, up to its limit
(`tagQuery_eq`).
-/

namespace Ubl.Chipstore

/-! ## Tags -/

/-- The name of a tag is what comes before its first colon. -/
theorem tag_inj {f f' v v' : String} (hf : ':' ∉ f.toList) (hf' : ':' ∉ f'.toList)
    (h : f ++ ":" ++ v = f' ++ ":" ++ v') : f = f' ∧ v = v' := by
  have hlist : f.toList ++ ':' :: v.toList = f'.toList ++ ':' :: v'.toList := by
    have := congrArg String.toList h
    simp only [String.toList_append, List.append_assoc] at this
    exact this
  obtain ⟨hname, hvalue⟩ := KeyTree.split_first hf hf' hlist
  exact ⟨String.toList_injective hname, String.toList_injective hvalue⟩

/-- The tags that are no fields of the data. -/
def derivedTags : List String := ["type", "id", "world", "app", "tenant", "date"]

theorem not_mem_colon {f : String} (hf : f ∈ taggedFields ++ derivedTags) : ':' ∉ f.toList := by
  revert f
  decide

section

variable {lib : StoreLib} {data : Json} {chipType : String}

/-- What a tag comes from. -/
theorem mem_extractTags {tag : String} (h : tag ∈ extractTags lib data chipType) :
    ∃ name v, name ∈ taggedFields ++ derivedTags ∧ tag = name ++ ":" ++ v ∧
      (name = "type" → v = chipType) ∧ (name ∉ derivedTags → strField data name = some v) := by
  have derived (name v : String) (hname : name ∈ derivedTags) (hv : name = "type" → v = chipType) :
      ∃ name' v', name' ∈ taggedFields ++ derivedTags ∧ name ++ ":" ++ v = name' ++ ":" ++ v' ∧
        (name' = "type" → v' = chipType) ∧
        (name' ∉ derivedTags → strField data name' = some v') :=
    ⟨name, v, List.mem_append_right _ hname, rfl, hv, fun hn => absurd hname hn⟩
  simp only [extractTags, List.mem_append, List.mem_singleton, List.mem_filterMap,
    Option.map_eq_some_iff, Option.mem_toList] at h
  obtain (((rfl | ⟨name, hname, v, hv, rfl⟩) | ⟨v, -, rfl⟩) | h) | ⟨v, -, rfl⟩ := h
  · exact derived "type" chipType (by decide) fun _ => rfl
  · refine ⟨name, v, List.mem_append_left _ hname, rfl, ?_, fun _ => hv⟩
    rintro rfl
    exact absurd hname (by decide)
  · exact derived "id" v (by decide) (by simp)
  · cases hworld : strField data "@world" with
    | none => simp [hworld] at h
    | some world =>
      simp only [hworld, Option.map_some, Option.getD_some, worldTags, List.mem_append,
        List.mem_singleton] at h
      obtain (rfl | h) | h := h
      · exact derived "world" world (by decide) (by simp)
      · split at h
        · split_ifs at h
          · obtain rfl := List.mem_singleton.mp h
            exact derived "app" _ (by decide) (by simp)
          · cases h
        · cases h
      · split at h
        · split_ifs at h
          · obtain rfl := List.mem_singleton.mp h
            exact derived "tenant" _ (by decide) (by simp)
          · cases h
        · cases h
  · exact derived "date" v (by decide) (by simp)

theorem tag_of_field {field v : String} (hfield : field ∈ taggedFields)
    (h : strField data field = some v) : field ++ ":" ++ v ∈ extractTags lib data chipType := by
  simp only [extractTags, List.mem_append, List.mem_filterMap, Option.map_eq_some_iff]
  exact .inl (.inl (.inl (.inr ⟨field, hfield, v, h, rfl⟩)))

theorem tag_of_type : "type" ++ ":" ++ chipType ∈ extractTags lib data chipType := by
  simp only [extractTags, List.mem_append, List.mem_singleton]
  exact .inl (.inl (.inl (.inl rfl)))

/-- A field that gives its name to no other tag is read off the tag. -/
theorem field_of_tag {field v : String} (hfield : field ∈ taggedFields)
    (hderived : field ∉ derivedTags) (h : field ++ ":" ++ v ∈ extractTags lib data chipType) :
    strField data field = some v := by
  obtain ⟨name, v', hname, heq, -, hvalue⟩ := mem_extractTags h
  obtain ⟨rfl, rfl⟩ := tag_inj (not_mem_colon (List.mem_append_left _ hfield))
    (not_mem_colon hname) heq
  exact hvalue hderived

theorem type_of_tag {chipType' : String}
    (h : "type" ++ ":" ++ chipType' ∈ extractTags lib data chipType) : chipType' = chipType := by
  obtain ⟨name, v', hname, heq, htype, -⟩ := mem_extractTags h
  obtain ⟨rfl, rfl⟩ := tag_inj (not_mem_colon (by decide)) (not_mem_colon hname) heq
  exact htype rfl

end

/-! ## Stores in order -/

/-- The type and the tags of a chip are those of its data. -/
def StoredChip.Tagged (lib : StoreLib) (chip : StoredChip) : Prop :=
  chip.chipType = chipTypeOf chip.chipData ∧
    chip.tags = extractTags lib chip.chipData chip.chipType

/-- All puts have come to the indexes with the tags of their data, and none is dated before an
earlier one. -/
structure ChipStore.InOrder (lib : StoreLib) (store : ChipStore) : Prop where
  indexed : ∀ put ∈ store, put.indexed = true
  tagged : ∀ put ∈ store, put.chip.Tagged lib
  dated : store.Pairwise fun newer older => older.chip.createdAt ≤ newer.chip.createdAt

theorem values_sublist (store : ChipStore) : (store.values).Sublist (store.map Put.chip) := by
  induction store with
  | nil => exact List.Sublist.slnil
  | cons put store ih => exact (List.filter_sublist.trans ih).cons_cons _

/-- The chips of a type with a value in a field, newest first. -/
def ChipStore.holders (store : ChipStore) (chipType field v : String) : List StoredChip :=
  store.values.filter fun chip => chip.chipType = chipType ∧ strField chip.chipData field = some v

theorem mem_holders {store : ChipStore} {chipType field v : String} {chip : StoredChip} :
    chip ∈ store.holders chipType field v ↔
      chip ∈ store.values ∧ chip.chipType = chipType ∧ strField chip.chipData field = some v := by
  simp [ChipStore.holders]

/-- Chips of a type with a tag. -/
def tagQuery (chipType tag : String) (limit : Option Nat) : ChipQuery where
  chipType := some chipType
  tags := [tag]
  createdAfter := none
  createdBefore := none
  executorDid := none
  limit := limit
  offset := none

/-- What a query finds is stored, and what was asked for. -/
theorem of_mem_query {store : ChipStore} {query : ChipQuery} {chip : StoredChip}
    (h : chip ∈ (store.query query).1) :
    chip ∈ store.values ∧ ChipStore.matchesQuery query chip = true := by
  obtain ⟨hvalue, h⟩ := List.mem_filter.mp (mem_matching h)
  exact ⟨hvalue, (Bool.and_eq_true_iff.mp h).2⟩

/-- What is held is a candidate, whatever is asked for, once all puts have come to the indexes. -/
theorem matching_of_indexed {store : ChipStore} (h : ∀ put ∈ store, put.indexed = true)
    (query : ChipQuery) :
    store.matching query = store.values.filter (ChipStore.matchesQuery query) := by
  refine List.filter_congr fun chip hchip => ?_
  obtain ⟨put, hput, rfl⟩ := exists_put_of_mem_values hchip
  have hindex (has : StoredChip → Bool) (hhas : has put.chip) :
      store.indexHas has put.chip.cid :=
    List.any_eq_true.mpr ⟨put, hput, by simp [h put hput, hhas]⟩
  rw [Bool.and_eq_right_iff_imp]
  intro hmatch
  simp only [ChipStore.matchesQuery, Bool.and_eq_true] at hmatch
  obtain ⟨⟨⟨⟨htype, htags⟩, -⟩, -⟩, hdid⟩ := hmatch
  simp only [ChipStore.isCandidate, Bool.and_eq_true]
  refine ⟨⟨?_, ?_⟩, ?_⟩
  · cases hq : query.chipType with
    | none => rfl
    | some t =>
      rw [hq] at htype
      exact hindex (fun chip => chip.chipType == t) htype
  · exact List.all_eq_true.mpr fun tag htag =>
      hindex _ (List.all_eq_true.mp htags tag htag)
  · cases hq : query.executorDid with
    | none => rfl
    | some did =>
      rw [hq] at hdid
      exact hindex (fun chip => chip.executionMetadata.executorDid == did) hdid

theorem filter_tagQuery_of_tagged {lib : StoreLib} {store : ChipStore}
    (htagged : ∀ put ∈ store, put.chip.Tagged lib) {chipType field v : String}
    (hfield : field ∈ taggedFields) (hderived : field ∉ derivedTags) (limit : Option Nat) :
    store.values.filter (ChipStore.matchesQuery (tagQuery chipType (field ++ ":" ++ v) limit)) =
      store.holders chipType field v := by
  refine List.filter_congr fun chip hchip => ?_
  obtain ⟨put, hput, rfl⟩ := exists_put_of_mem_values hchip
  obtain ⟨htype, htags⟩ := htagged put hput
  have htag : field ++ ":" ++ v ∈ put.chip.tags ↔ strField put.chip.chipData field = some v := by
    rw [htags]
    exact ⟨field_of_tag hfield hderived, tag_of_field hfield⟩
  rw [Bool.eq_iff_iff]
  simp [ChipStore.matchesQuery, tagQuery, htag]

/-- The count of such a query is not cut. -/
theorem tagQuery_count_of_indexed {lib : StoreLib} {store : ChipStore}
    (hindexed : ∀ put ∈ store, put.indexed = true) (htagged : ∀ put ∈ store, put.chip.Tagged lib)
    {chipType field v : String} (hfield : field ∈ taggedFields) (hderived : field ∉ derivedTags)
    (limit : Option Nat) :
    (store.query (tagQuery chipType (field ++ ":" ++ v) limit)).2 =
      (store.holders chipType field v).length := by
  rw [ChipStore.query, matching_of_indexed hindexed]
  exact congrArg List.length (filter_tagQuery_of_tagged htagged hfield hderived limit)

section InOrder

variable {lib : StoreLib} {store : ChipStore} (hstore : store.InOrder lib)

include hstore

theorem ChipStore.InOrder.matching_eq {query : ChipQuery} :
    store.matching query = store.values.filter (ChipStore.matchesQuery query) :=
  matching_of_indexed hstore.indexed query

/-- The pages are cut from the newest on. -/
theorem ChipStore.InOrder.query_eq {query : ChipQuery} :
    (store.query query).1 = ((store.values.filter (ChipStore.matchesQuery query)).drop
      (query.offset.getD 0)).take (query.limit.getD 100) := by
  have hdated : store.values.Pairwise fun a b => b.createdAt ≤ a.createdAt :=
    (List.pairwise_map.mpr hstore.dated).sublist (values_sublist store)
  rw [ChipStore.query, hstore.matching_eq, ChipStore.applyPagination,
    (hdated.filter _).insertionSort_eq]

/-- What a query for a type and the tag of a field picks out. -/
theorem ChipStore.InOrder.filter_tagQuery {chipType field v : String}
    (hfield : field ∈ taggedFields) (hderived : field ∉ derivedTags) (limit : Option Nat) :
    store.values.filter (ChipStore.matchesQuery (tagQuery chipType (field ++ ":" ++ v) limit)) =
      store.holders chipType field v :=
  filter_tagQuery_of_tagged hstore.tagged hfield hderived limit

/-- A query for a type and the tag of a field finds the newest that hold the value. -/
theorem ChipStore.InOrder.tagQuery_eq {chipType field v : String} (hfield : field ∈ taggedFields)
    (hderived : field ∉ derivedTags) (limit : Option Nat) :
    (store.query (tagQuery chipType (field ++ ":" ++ v) limit)).1 =
      (store.holders chipType field v).take (limit.getD 100) := by
  rw [hstore.query_eq, hstore.filter_tagQuery hfield hderived]
  rfl

end InOrder

/-! ## A put -/

section Put

variable {lib : StoreLib} {store : ChipStore} {put : Put}

theorem holders_cons (chipType field v : String) :
    ChipStore.holders (put :: store) chipType field v =
      (if put.chip.chipType = chipType ∧ strField put.chip.chipData field = some v then [put.chip]
        else []) ++ (store.holders chipType field v).filter fun chip => chip.cid != put.chip.cid := by
  rw [ChipStore.holders, ChipStore.values, List.filter_cons, ChipStore.holders, List.filter_comm]
  by_cases h : put.chip.chipType = chipType ∧ strField put.chip.chipData field = some v
  · rw [if_pos (decide_eq_true h), if_pos h]
    rfl
  · rw [if_neg (by simpa using h), if_neg h]
    rfl

theorem mem_holders_cons_self {chipType field v : String} (htype : put.chip.chipType = chipType)
    (hv : strField put.chip.chipData field = some v) :
    put.chip ∈ ChipStore.holders (put :: store) chipType field v := by
  rw [holders_cons, if_pos ⟨htype, hv⟩]
  exact List.mem_cons_self

theorem mem_holders_cons_of_ne {chipType field v : String} {chip : StoredChip}
    (h : chip ∈ store.holders chipType field v) (hne : chip.cid ≠ put.chip.cid) :
    chip ∈ ChipStore.holders (put :: store) chipType field v := by
  rw [holders_cons]
  exact List.mem_append_right _ (List.mem_filter.mpr ⟨h, bne_iff_ne.mpr hne⟩)

theorem inOrder_nil : ChipStore.InOrder lib [] where
  indexed := by simp
  tagged := by simp
  dated := List.Pairwise.nil

theorem ChipStore.InOrder.cons (hstore : store.InOrder lib) (hindexed : put.indexed = true)
    (htagged : put.chip.Tagged lib)
    (hdated : ∀ older ∈ store, older.chip.createdAt ≤ put.chip.createdAt) :
    ChipStore.InOrder lib (put :: store) where
  indexed := List.forall_mem_cons.mpr ⟨hindexed, hstore.indexed⟩
  tagged := List.forall_mem_cons.mpr ⟨htagged, hstore.tagged⟩
  dated := List.pairwise_cons.mpr ⟨hdated, hstore.dated⟩

theorem tagged_storedChip (now cid : String) (data : Json) (receiptCid : String)
    (metadata : ExecutionMetadata) :
    (storedChip lib now cid data receiptCid metadata).Tagged lib :=
  ⟨rfl, rfl⟩

end Put

end Ubl.Chipstore
