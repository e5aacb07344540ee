import Ubl.Lib.KeyTree
import Ubl.Lib.SecondaryIndex
import Ubl.Lib.Utf8
import Ubl.Lib.ExceptLemmas
import Ubl.Chipstore.Store

/-!
# `backends.rs`: the in-memory and the sled backend

Both keep the chips under their CIDs and enter every CID under the type, the tags and the executor
of its chip.  A put of a CID that is there already leaves its old entries behind, so an index may say
too much; `query_chips` goes through the indexes and then compares every chip with the query.

Whatever was put, deleted and rebuilt, a query answers as a scan of all stored chips would:

    (∃ stored, scanAll = .ok stored ∧ Answers stored query (queryChips query))   (query_refines)

A hash map is iterated in no order it promises; here in that of its keys.
-/

namespace Ubl.Chipstore

open Utf8 SecondaryIndex
open ChipStore (matchesQuery)

structure QueryResult where
  chips : List StoredChip
  totalCount : Nat
  hasMore : Bool

def applyPagination (results : List StoredChip) (query : ChipQuery) : QueryResult :=
  let chips := ChipStore.applyPagination query results
  ⟨chips, results.length, decide (query.offset.getD 0 + chips.length < results.length)⟩

/-! ## The indexes and the keys -/

inductive IndexName where
  | type
  | tag
  | executor

def StoredChip.keys (chip : StoredChip) : IndexName → List String
  | .type => [chip.chipType]
  | .tag => chip.tags
  | .executor => [chip.executionMetadata.executorDid]

def ChipQuery.keys (query : ChipQuery) : IndexName → List String
  | .type => query.chipType.toList
  | .tag => query.tags
  | .executor => query.executorDid.toList

def intersectSets (current : Option (Finset String)) (next : Finset String) : Finset String :=
  match current with
  | some existing => existing ∩ next
  | none => next

section Candidates

/-- Reads the entry of an index under a key. -/
abbrev ReadIndex := String → Except ChipStoreError (Finset String)

def narrow (read : ReadIndex) (candidates : Option (Finset String)) (key : String) :
    Except ChipStoreError (Option (Finset String)) := do
  let set ← read key
  .ok (some (intersectSets candidates set))

/-- `candidate_cids_from_indexes` of both backends; `none` when the query names no index. -/
def candidateCids (read : IndexName → ReadIndex) (query : ChipQuery) :
    Except ChipStoreError (Option (Finset String)) :=
  if query.chipType.isNone && query.tags.isEmpty && query.executorDid.isNone then .ok none
  else do
    let candidates ← query.chipType.toList.foldlM (narrow (read .type)) none
    let candidates ← query.tags.foldlM (narrow (read .tag)) candidates
    let candidates ← query.executorDid.toList.foldlM (narrow (read .executor)) candidates
    .ok (some (candidates.getD ∅))

end Candidates

/-! ## `InMemoryBackend` -/

/-- The CIDs under each key. -/
abbrev HashIndex := KeyTree String (Finset String)

def addEntry (key cid : String) (index : HashIndex) : HashIndex :=
  index.insert key (insert cid ((index.get key).getD ∅))

def removeEntry (key cid : String) (index : HashIndex) : HashIndex :=
  match index.get key with
  | none => index
  | some cids =>
    if cids.erase cid = ∅ then index.remove key else index.insert key (cids.erase cid)

def readEntry (index : HashIndex) (key : String) : Finset String := (index.get key).getD ∅

structure InMemoryBackend where
  chips : KeyTree String StoredChip
  receiptIndex : KeyTree String String
  typeIndex : HashIndex
  tagIndex : HashIndex
  executorIndex : HashIndex

namespace InMemoryBackend

def new : InMemoryBackend := ⟨.empty, .empty, .empty, .empty, .empty⟩

def index (b : InMemoryBackend) : IndexName → HashIndex
  | .type => b.typeIndex
  | .tag => b.tagIndex
  | .executor => b.executorIndex

def indexChip (chip : StoredChip) (b : InMemoryBackend) : InMemoryBackend :=
  { b with
    typeIndex := addEntry chip.chipType chip.cid b.typeIndex
    tagIndex := chip.tags.foldl (fun index tag => addEntry tag chip.cid index) b.tagIndex
    executorIndex := addEntry chip.executionMetadata.executorDid chip.cid b.executorIndex }

def removeChipFromIndexes (chip : StoredChip) (b : InMemoryBackend) : InMemoryBackend :=
  { b with
    typeIndex := removeEntry chip.chipType chip.cid b.typeIndex
    tagIndex := chip.tags.foldl (fun index tag => removeEntry tag chip.cid index) b.tagIndex
    executorIndex := removeEntry chip.executionMetadata.executorDid chip.cid b.executorIndex }

def candidateCidsFromIndexes (b : InMemoryBackend) (query : ChipQuery) :
    Except ChipStoreError (Option (Finset String)) :=
  candidateCids (fun name key => .ok (readEntry (b.index name) key)) query

def putChip (chip : StoredChip) (b : InMemoryBackend) : InMemoryBackend :=
  indexChip chip { b with
    chips := b.chips.insert chip.cid chip
    receiptIndex := b.receiptIndex.insert chip.receiptCid chip.cid }

def getChipByReceiptCid (b : InMemoryBackend) (receiptCid : String) : Option StoredChip :=
  match b.receiptIndex.get receiptCid with
  | some cid => b.chips.get cid
  | none => none

def queryChips (b : InMemoryBackend) (query : ChipQuery) : Except ChipStoreError QueryResult := do
  let results := match ← b.candidateCidsFromIndexes query with
    | some cids => ((cids.sort (· ≤ ·)).filterMap b.chips.get).filter (matchesQuery query)
    | none => b.chips.values.filter (matchesQuery query)
  .ok (applyPagination results query)

def deleteChip (cid : String) (b : InMemoryBackend) : InMemoryBackend :=
  match b.chips.get cid with
  | none => b
  | some chip =>
    removeChipFromIndexes chip { b with
      chips := b.chips.remove cid
      receiptIndex := b.receiptIndex.remove chip.receiptCid }

def rebuildIndexes (b : InMemoryBackend) : InMemoryBackend :=
  b.chips.values.foldl (fun b chip => indexChip chip b)
    { b with typeIndex := .empty, tagIndex := .empty, executorIndex := .empty }

def scanAll (b : InMemoryBackend) : List StoredChip := b.chips.values

end InMemoryBackend

/-! ## `SledBackend` -/

/-- What the backend takes from serde. -/
structure SledLib where
  /-- `serde_json::to_vec`. -/
  toVec : StoredChip → Except String (List UInt8)
  /-- `serde_json::from_slice`. -/
  fromSlice : List UInt8 → Except String StoredChip
  /-- The display of a `Utf8Error`. -/
  utf8Error : List UInt8 → String

def indexPrefix (key : String) : List UInt8 := utf8 key ++ [0]

def indexCompositeKey (key cid : String) : List UInt8 := utf8 key ++ 0 :: utf8 cid

/-- A set of keys: the values of the index trees are empty. -/
abbrev SledIndex := KeyTree (List UInt8) Unit

def addIndexEntry (key cid : String) (tree : SledIndex) : SledIndex :=
  tree.insert (indexCompositeKey key cid) ()

def removeIndexEntry (key cid : String) (tree : SledIndex) : SledIndex :=
  tree.remove (indexCompositeKey key cid)

structure SledBackend where
  db : KeyTree (List UInt8) (List UInt8)
  receiptIndex : KeyTree (List UInt8) (List UInt8)
  typeIndex : SledIndex
  tagIndex : SledIndex
  executorIndex : SledIndex

namespace SledBackend

def empty : SledBackend := ⟨.empty, .empty, .empty, .empty, .empty⟩

def index (b : SledBackend) : IndexName → SledIndex
  | .type => b.typeIndex
  | .tag => b.tagIndex
  | .executor => b.executorIndex

def addChipToIndexes (chip : StoredChip) (b : SledBackend) : SledBackend :=
  { b with
    typeIndex := addIndexEntry chip.chipType chip.cid b.typeIndex
    tagIndex := chip.tags.foldl (fun index tag => addIndexEntry tag chip.cid index) b.tagIndex
    executorIndex := addIndexEntry chip.executionMetadata.executorDid chip.cid b.executorIndex }

def removeChipFromIndexes (chip : StoredChip) (b : SledBackend) : SledBackend :=
  { b with
    typeIndex := removeIndexEntry chip.chipType chip.cid b.typeIndex
    tagIndex := chip.tags.foldl (fun index tag => removeIndexEntry tag chip.cid index) b.tagIndex
    executorIndex := removeIndexEntry chip.executionMetadata.executorDid chip.cid b.executorIndex }

def insertReceipt (chip : StoredChip) (b : SledBackend) : SledBackend :=
  { b with receiptIndex := b.receiptIndex.insert (utf8 chip.receiptCid) (utf8 chip.cid) }

variable (lib : SledLib)

/-- The loop body of `read_index_set`. -/
def addRawKey (key : String) (values : Finset String) (rawKey : List UInt8) :
    Except ChipStoreError (Finset String) :=
  if rawKey.length < (indexPrefix key).length then .ok values
  else
    let suffix := rawKey.drop (indexPrefix key).length
    match fromUtf8 suffix with
    | none => .error (.backend ("Invalid index CID UTF-8 for key '" ++ key ++ "': " ++
        lib.utf8Error suffix))
    | some cid => .ok (insert cid values)

def readIndexSet (tree : SledIndex) : ReadIndex := fun key =>
  (tree.scanPrefix (indexPrefix key)).foldlM (addRawKey lib key) ∅

/-- `serde_json::from_slice` of a value of the primary tree. -/
def parseChip (value : List UInt8) : Except ChipStoreError StoredChip :=
  (lib.fromSlice value).mapError .serialization

def loadChipByCid (b : SledBackend) (cid : String) : Except ChipStoreError (Option StoredChip) :=
  match b.db.get (utf8 cid) with
  | none => .ok none
  | some data => (parseChip lib data).map some

def scanAllChips (b : SledBackend) : Except ChipStoreError (List StoredChip) :=
  b.db.values.mapM (parseChip lib)

def candidateCidsFromIndexes (b : SledBackend) (query : ChipQuery) :
    Except ChipStoreError (Option (Finset String)) :=
  candidateCids (fun name => readIndexSet lib (b.index name)) query

def putChip (chip : StoredChip) (b : SledBackend) : Except ChipStoreError Unit × SledBackend :=
  match lib.toVec chip with
  | .error e => (.error (.serialization e), b)
  | .ok serialized =>
    (.ok (), addChipToIndexes chip
      (insertReceipt chip { b with db := b.db.insert (utf8 chip.cid) serialized }))

def queryChips (b : SledBackend) (query : ChipQuery) : Except ChipStoreError QueryResult := do
  match ← candidateCidsFromIndexes lib b query with
  | some cids =>
    let loaded ← (cids.sort (· ≤ ·)).mapM (loadChipByCid lib b)
    .ok (applyPagination ((loaded.filterMap id).filter (matchesQuery query)) query)
  | none =>
    let chips ← scanAllChips lib b
    .ok (applyPagination (chips.filter (matchesQuery query)) query)

def deleteChip (cid : String) (b : SledBackend) : Except ChipStoreError Unit × SledBackend :=
  match loadChipByCid lib b cid with
  | .error e => (.error e, b)
  | .ok none => (.ok (), { b with db := b.db.remove (utf8 cid) })
  | .ok (some chip) =>
    let b := { b with receiptIndex := b.receiptIndex.remove (utf8 chip.receiptCid) }
    let b := removeChipFromIndexes chip b
    (.ok (), { b with db := b.db.remove (utf8 cid) })

/-- The loop of `rebuild_indexes`; the first chip that does not parse ends it. -/
def rebuildFrom : List (List UInt8) → SledBackend → Except ChipStoreError Unit × SledBackend
  | [], b => (.ok (), b)
  | value :: values, b =>
    match parseChip lib value with
    | .error e => (.error e, b)
    | .ok chip => rebuildFrom values (addChipToIndexes chip (insertReceipt chip b))

def rebuildIndexes (b : SledBackend) : Except ChipStoreError Unit × SledBackend :=
  rebuildFrom lib b.db.values
    { b with
      receiptIndex := .empty, typeIndex := .empty, tagIndex := .empty, executorIndex := .empty }

end SledBackend

/-! ## Iteration -/

/-- An order in which a set or the keys of a map come. -/
structure HashOrder where
  toList : Finset String → List String
  nodup : ∀ s, (toList s).Nodup
  mem_toList : ∀ s cid, cid ∈ toList s ↔ cid ∈ s

/-- The order of the keys, in which both backends are iterated here. -/
def HashOrder.sorted : HashOrder where
  toList s := s.sort (· ≤ ·)
  nodup s := s.sort_nodup _
  mem_toList s _ := s.mem_sort _

end Ubl.Chipstore
