import Ubl.Nrf.Envelope
import Ubl.Receipt.Unified

/-!
# `ubl_chipstore`: the store of executed chips

Chips are kept under the CID of their data.  The store is the list of the puts it has taken, the
newest first: the newest put of a CID is what the store holds under it (`getChip`), older ones
are overwritten.  A put goes to the primary map first and to the indexes after it, and may fail
before or after the first of these; a query sees chips through the indexes only.

Two chips created at the same instant come out of a query in no order the backends promise; here
the newer put comes first.
-/

namespace Ubl.Chipstore

open Ubl.Receipt (Crypto)
open Ubl.Nrf (splitParts)

structure ExecutionMetadata where
  runtimeVersion : String
  executionTimeMs : Int64
  fuelConsumed : UInt64
  policiesApplied : List String
  executorDid : String
  reproducible : Bool

structure StoredChip where
  cid : String
  chipType : String
  chipData : Json
  receiptCid : String
  createdAt : String
  executionMetadata : ExecutionMetadata
  tags : List String
  relatedChips : List String

structure ChipQuery where
  chipType : Option String
  tags : List String
  createdAfter : Option String
  createdBefore : Option String
  executorDid : Option String
  limit : Option Nat
  offset : Option Nat

inductive ChipStoreError where
  | serialization (text : String)
  | backend (text : String)
  | notFound (text : String)
  | invalidCid (text : String)
  | index (text : String)
deriving DecidableEq

def ChipStoreError.text : ChipStoreError → String
  | .serialization e => "Serialization error: " ++ e
  | .backend e => "Backend error: " ++ e
  | .notFound e => "Not found: " ++ e
  | .invalidCid e => "Invalid CID: " ++ e
  | .index e => "Index error: " ++ e

/-! ## What is stored for a chip -/

structure StoreLib where
  crypto : Crypto
  /-- `DateTime::parse_from_rfc3339` and then `format("%Y-%m-%d")`. -/
  dateOfRfc3339 : String → Option String

/-- `to_nrf1_bytes` and `compute_cid`. -/
def chipCid (c : Crypto) (value : Json) : Except String String :=
  match Nrf.toNrf1Bytes c.text value with
  | .error e => .error e.text
  | .ok nrf => .ok ("b3:" ++ Hex.encode (c.blake3 nrf))

/-- A member of the data that is a string. -/
def strField (data : Json) (field : String) : Option String := (data.get field).bind Json.asStr

/-- The direct fields that are indexed under their own names. -/
def taggedFields : List String :=
  ["email", "id", "slug", "status", "target_cid", "passport_cid", "actor_cid", "user_cid",
    "tenant_cid", "creator_cid", "app_cid", "old_did", "old_kid", "new_did", "new_kid",
    "rotation_chip_cid", "rotation_receipt_cid"]

def worldTags (world : String) : List String :=
  let parts := splitParts '/' world
  ["world:" ++ world] ++
    (match parts with
    | a :: app :: _ => if a = "a" ∧ app ≠ "" then ["app:" ++ app] else []
    | _ => []) ++
    (match parts with
    | [_, _, t, tenant] => if t = "t" ∧ tenant ≠ "" then ["tenant:" ++ tenant] else []
    | _ => [])

def extractTags (lib : StoreLib) (data : Json) (chipType : String) : List String :=
  ["type:" ++ chipType] ++
    (taggedFields.filterMap fun field => (strField data field).map fun v => field ++ ":" ++ v) ++
    ((strField data "@id").map ("id:" ++ ·)).toList ++
    ((strField data "@world").map worldTags).getD [] ++
    (((strField data "date").bind lib.dateOfRfc3339).map ("date:" ++ ·)).toList

mutual

def extractCids : Json → List String
  | .string s => if "b3:".toList.isPrefixOf s.toList then [s] else []
  | .object members => extractCidsMembers members
  | .array items => extractCidsItems items
  | _ => []

def extractCidsItems : List Json → List String
  | [] => []
  | v :: items => extractCids v ++ extractCidsItems items

def extractCidsMembers : List (String × Json) → List String
  | [] => []
  | (_, v) :: members => extractCids v ++ extractCidsMembers members

end

/-- The `@type` of the data. -/
def chipTypeOf (data : Json) : String := (strField data "@type").getD "unknown"

def storedChip (lib : StoreLib) (now cid : String) (data : Json) (receiptCid : String)
    (metadata : ExecutionMetadata) : StoredChip where
  cid := cid
  chipType := chipTypeOf data
  chipData := data
  receiptCid := receiptCid
  createdAt := now
  executionMetadata := metadata
  tags := extractTags lib data (chipTypeOf data)
  relatedChips := extractCids data

/-! ## The store -/

structure Put where
  chip : StoredChip
  /-- The put has come to the indexes. -/
  indexed : Bool

/-- The puts, the newest first. -/
abbrev ChipStore := List Put

/-- Where a put fails: with nothing written, or with the chip in the primary map only. -/
inductive PutFault where
  | beforeInsert (e : ChipStoreError)
  | afterInsert (e : ChipStoreError)

/-- `put_chip` and the indexer. -/
def putChip (fault : Option PutFault) (chip : StoredChip) (store : ChipStore) :
    Except ChipStoreError Unit × ChipStore :=
  match fault with
  | none => (.ok (), ⟨chip, true⟩ :: store)
  | some (.beforeInsert e) => (.error e, store)
  | some (.afterInsert e) => (.error e, ⟨chip, false⟩ :: store)

def storeExecutedChip (lib : StoreLib) (now : String) (fault : Option PutFault) (data : Json)
    (receiptCid : String) (metadata : ExecutionMetadata) (store : ChipStore) :
    Except ChipStoreError String × ChipStore :=
  match chipCid lib.crypto data with
  | .error e => (.error (.serialization e), store)
  | .ok cid =>
    match putChip fault (storedChip lib now cid data receiptCid metadata) store with
    | (.error e, store) => (.error e, store)
    | (.ok (), store) => (.ok cid, store)

namespace ChipStore

def getChip (store : ChipStore) (cid : String) : Option StoredChip :=
  (store.find? fun put => put.chip.cid == cid).map Put.chip

/-- The chips held, one for each CID. -/
def values : ChipStore → List StoredChip
  | [] => []
  | put :: store => put.chip :: (values store).filter fun chip => chip.cid != put.chip.cid

/-- `receipt_index`: the newest indexed put under a receipt names the chip. -/
def getChipByReceiptCid (store : ChipStore) (receiptCid : String) : Option StoredChip :=
  (store.find? fun put => put.indexed && put.chip.receiptCid == receiptCid).bind fun put =>
    store.getChip put.chip.cid

def matchesQuery (query : ChipQuery) (chip : StoredChip) : Bool :=
  query.chipType.all (chip.chipType == ·) &&
    query.tags.all (chip.tags.contains ·) &&
    query.createdAfter.all (fun after => decide (after < chip.createdAt)) &&
    query.createdBefore.all (fun before => decide (chip.createdAt < before)) &&
    query.executorDid.all (chip.executionMetadata.executorDid == ·)

/-- The entry of one index under one key. -/
def indexHas (store : ChipStore) (has : StoredChip → Bool) (cid : String) : Bool :=
  store.any fun put => put.indexed && put.chip.cid == cid && has put.chip

/-- `candidate_cids_from_indexes`: the CID is in the index entry of every key asked for. -/
def isCandidate (store : ChipStore) (query : ChipQuery) (cid : String) : Bool :=
  query.chipType.all (fun t => store.indexHas (·.chipType == t) cid) &&
    query.tags.all (fun tag => store.indexHas (·.tags.contains tag) cid) &&
    query.executorDid.all fun did => store.indexHas (·.executionMetadata.executorDid == did) cid

def applyPagination (query : ChipQuery) (results : List StoredChip) : List StoredChip :=
  ((results.insertionSort fun a b => b.createdAt ≤ a.createdAt).drop (query.offset.getD 0)).take
    (query.limit.getD 100)

/-- All that matches, before the pages are cut. -/
def matching (store : ChipStore) (query : ChipQuery) : List StoredChip :=
  store.values.filter fun chip => store.isCandidate query chip.cid && matchesQuery query chip

/-- The chips of the page, and `total_count`. -/
def query (store : ChipStore) (query : ChipQuery) : List StoredChip × Nat :=
  (applyPagination query (store.matching query), (store.matching query).length)

end ChipStore

/-! ## Facts -/

section Facts

variable {lib : StoreLib} {now : String} {fault : Option PutFault} {data : Json}
  {receiptCid : String} {metadata : ExecutionMetadata} {store : ChipStore}

/-- A put adds at most itself. -/
theorem storeExecutedChip_cases :
    (storeExecutedChip lib now fault data receiptCid metadata store).2 = store ∨
      ∃ cid indexed, chipCid lib.crypto data = .ok cid ∧
        (storeExecutedChip lib now fault data receiptCid metadata store).2 =
          ⟨storedChip lib now cid data receiptCid metadata, indexed⟩ :: store := by
  unfold storeExecutedChip
  split
  · exact .inl rfl
  · rename_i cid hcid
    cases fault with
    | none => exact .inr ⟨cid, true, hcid, rfl⟩
    | some f =>
      cases f with
      | beforeInsert e => exact .inl rfl
      | afterInsert e => exact .inr ⟨cid, false, hcid, rfl⟩

/-- A put that answers with a CID has been indexed. -/
theorem storeExecutedChip_eq_ok {cid : String}
    (h : (storeExecutedChip lib now fault data receiptCid metadata store).1 = .ok cid) :
    chipCid lib.crypto data = .ok cid ∧
      (storeExecutedChip lib now fault data receiptCid metadata store).2 =
        ⟨storedChip lib now cid data receiptCid metadata, true⟩ :: store := by
  unfold storeExecutedChip at h ⊢
  split at h
  · cases h
  · rename_i cid' hcid
    cases fault with
    | none =>
      obtain rfl := Except.ok.inj h
      rw [hcid]
      exact ⟨rfl, rfl⟩
    | some f => cases f <;> cases h

theorem getChip_cons_self (put : Put) (store : ChipStore) :
    ChipStore.getChip (put :: store) put.chip.cid = some put.chip := by
  simp [ChipStore.getChip]

/-- What is held has been put. -/
theorem exists_put_of_mem_values {chip : StoredChip} (h : chip ∈ store.values) :
    ∃ put ∈ store, put.chip = chip := by
  induction store with
  | nil => cases h
  | cons put store ih =>
    rcases List.mem_cons.mp h with rfl | h
    · exact ⟨put, List.mem_cons_self, rfl⟩
    · obtain ⟨put', hput, rfl⟩ := ih (List.mem_of_mem_filter h)
      exact ⟨put', List.mem_cons_of_mem _ hput, rfl⟩

theorem exists_put_of_getChip {cid : String} {chip : StoredChip} (h : store.getChip cid = some chip) :
    ∃ put ∈ store, put.chip = chip ∧ chip.cid = cid := by
  obtain ⟨put, hput, rfl⟩ := Option.map_eq_some_iff.mp h
  have hcid := List.find?_some hput
  exact ⟨put, List.mem_of_find?_eq_some hput, rfl, eq_of_beq hcid⟩

theorem mem_matching {query : ChipQuery} {chip : StoredChip} (h : chip ∈ (store.query query).1) :
    chip ∈ store.matching query := by
  have hsort := List.mem_of_mem_drop (List.mem_of_mem_take h)
  exact (List.mem_insertionSort _).mp hsort

end Facts

end Ubl.Chipstore
