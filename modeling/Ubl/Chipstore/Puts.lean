import Ubl.Chipstore.Query
import Ubl.Chipstore.Refinement

/-!
# The backends refine the list of puts

The pipeline works on the list of the puts that its store has taken.  Both backends hold what the
list holds: under a CID and under a receipt they give the same chip, and they cut the pages of a query
from the same chips, in the same order where no two of them were created at one instant
(`backends_refine_puts`).
-/

namespace Ubl.Chipstore

open Utf8
open ChipStore (matchesQuery)

/-- The store after these puts. -/
def puts (chips : List StoredChip) : ChipStore :=
  chips.foldl (fun store chip => (putChip none chip store).2) []

def putOps (chips : List StoredChip) : List StoreOp := chips.map .putChip

/-- `get_chip_by_receipt_cid` of the sled backend. -/
def SledBackend.getChipByReceiptCid (lib : SledLib) (b : SledBackend) (receiptCid : String) :
    Except ChipStoreError (Option StoredChip) :=
  match b.receiptIndex.get (utf8 receiptCid) with
  | none => .ok none
  | some chipCid =>
    match fromUtf8 chipCid with
    | none => .error (.backend ("Invalid receipt index UTF-8: " ++ lib.utf8Error chipCid))
    | some cid => loadChipByCid lib b cid

/-! ## The list -/

section Puts

variable {chips : List StoredChip} {chip : StoredChip} {store : ChipStore}

theorem puts_concat (chips : List StoredChip) (chip : StoredChip) :
    puts (chips ++ [chip]) = ⟨chip, true⟩ :: puts chips := by
  rw [puts, List.foldl_append]
  rfl

theorem indexed_puts (chips : List StoredChip) : ∀ put ∈ puts chips, put.indexed = true := by
  induction chips using List.reverseRecOn with
  | nil => exact nofun
  | append_singleton chips chip ih =>
    rw [puts_concat]
    exact List.forall_mem_cons.mpr ⟨rfl, ih⟩

theorem getChip_cons (put : Put) (store : ChipStore) (cid : String) :
    ChipStore.getChip (put :: store) cid =
      if put.chip.cid = cid then some put.chip else store.getChip cid := by
  rw [ChipStore.getChip, List.find?_cons]
  by_cases h : put.chip.cid = cid
  · rw [if_pos h, beq_iff_eq.mpr h]
    rfl
  · rw [if_neg h, beq_false_of_ne h]
    rfl

/-- What a sequence of puts holds under a CID. -/
theorem held_putOps (chips : List StoredChip) : held (putOps chips) = (puts chips).getChip := by
  induction chips using List.reverseRecOn with
  | nil => rfl
  | append_singleton chips chip ih =>
    funext cid
    rw [putOps, List.map_append, held, List.foldl_append, puts_concat, getChip_cons, ← ih]
    change Function.update (held (putOps chips)) chip.cid (some chip) cid = _
    rw [Function.update_apply]
    exact if_congr eq_comm rfl rfl

theorem mem_values : chip ∈ store.values ↔ store.getChip chip.cid = some chip := by
  induction store with
  | nil => exact ⟨nofun, nofun⟩
  | cons put store ih =>
    rw [ChipStore.values, List.mem_cons, List.mem_filter, bne_iff_ne, ih, getChip_cons]
    split_ifs with h
    · exact ⟨fun hmem => hmem.elim (congrArg some ·.symm) fun hmem => absurd h.symm hmem.2,
        fun heq => .inl (Option.some.inj heq).symm⟩
    · exact ⟨fun hmem => hmem.elim (fun heq => absurd (heq ▸ rfl) h) And.left,
        fun hget => .inr ⟨hget, Ne.symm h⟩⟩

theorem nodup_values (store : ChipStore) : (store.values.map StoredChip.cid).Nodup := by
  induction store with
  | nil => exact List.nodup_nil
  | cons put store ih =>
    rw [ChipStore.values, List.map_cons, List.nodup_cons]
    refine ⟨fun hmem => ?_, ih.sublist (List.filter_sublist.map _)⟩
    obtain ⟨chip, hchip, hcid⟩ := List.mem_map.mp hmem
    exact bne_iff_ne.mp (List.mem_filter.mp hchip).2 hcid

/-- Lists of what the store holds, each chip once, match a query in the same chips. -/
theorem perm_matching {stored : List StoredChip} (hnodup : (stored.map StoredChip.cid).Nodup)
    (hstored : ∀ chip, chip ∈ stored ↔ (puts chips).getChip chip.cid = some chip)
    (query : ChipQuery) :
    (stored.filter (matchesQuery query)).Perm ((puts chips).matching query) := by
  rw [matching_of_indexed (indexed_puts chips)]
  refine List.Perm.filter _ ((List.perm_ext_iff_of_nodup hnodup.of_map
    (nodup_values _).of_map).mpr fun chip => ?_)
  rw [hstored, mem_values]

/-- The last put under a receipt names the chip. -/
def lastUnder (chips : List StoredChip) (receiptCid : String) : Option String :=
  ((puts chips).find? fun put => put.indexed && put.chip.receiptCid == receiptCid).map
    fun put => put.chip.cid

theorem getChipByReceiptCid_eq (chips : List StoredChip) (receiptCid : String) :
    (puts chips).getChipByReceiptCid receiptCid =
      (lastUnder chips receiptCid).bind (puts chips).getChip := by
  rw [lastUnder, Option.bind_map]
  rfl

theorem lastUnder_concat (chips : List StoredChip) (chip : StoredChip) (receiptCid : String) :
    lastUnder (chips ++ [chip]) receiptCid =
      if receiptCid = chip.receiptCid then some chip.cid else lastUnder chips receiptCid := by
  rw [lastUnder, puts_concat, List.find?_cons]
  by_cases h : receiptCid = chip.receiptCid
  · rw [if_pos h, h]
    simp
  · rw [if_neg h, Bool.true_and, beq_false_of_ne (Ne.symm h)]
    rfl

end Puts

/-! ## Pages -/

section Pages

variable {results results' : List StoredChip} {query : ChipQuery}

/-- Chips that were created at different instants have one order. -/
theorem applyPagination_of_perm (h : results.Perm results')
    (hdated : ∀ a ∈ results', ∀ b ∈ results', a.createdAt = b.createdAt → a = b) :
    ChipStore.applyPagination query results = ChipStore.applyPagination query results' := by
  have hsort (l : List StoredChip) :=
    List.perm_insertionSort (fun a b : StoredChip => b.createdAt ≤ a.createdAt) l
  have heq : results.insertionSort (fun a b => b.createdAt ≤ a.createdAt) =
      results'.insertionSort fun a b => b.createdAt ≤ a.createdAt := by
    have hpairwise (l : List StoredChip) :=
      List.pairwise_insertionSort (fun a b : StoredChip => b.createdAt ≤ a.createdAt) l
    refine List.Perm.eq_of_pairwise (fun a b ha hb hab hba => ?_) (hpairwise results)
      (hpairwise results') ((hsort results).trans (h.trans (hsort results').symm))
    exact hdated a (h.mem_iff.mp ((hsort results).mem_iff.mp ha)) b ((hsort results').mem_iff.mp hb)
      (le_antisymm hba hab)
  rw [ChipStore.applyPagination, ChipStore.applyPagination, heq]

/-- The answer of a backend is that of the list: the same chips match, and the page is the same
where no two of them were created at one instant. -/
structure AnswersAs (store : ChipStore) (query : ChipQuery)
    (answer : Except ChipStoreError QueryResult) : Prop where
  pages : ∃ results, results.Perm (store.matching query) ∧
    answer = .ok (applyPagination results query)
  dated : (∀ a ∈ store.matching query, ∀ b ∈ store.matching query,
    a.createdAt = b.createdAt → a = b) →
      ∃ hasMore, answer = .ok ⟨(store.query query).1, (store.query query).2, hasMore⟩

theorem answersAs_of_perm {store : ChipStore} {answer : Except ChipStoreError QueryResult}
    (h : ∃ results, results.Perm (store.matching query) ∧
      answer = .ok (applyPagination results query)) : AnswersAs store query answer := by
  obtain ⟨results, hperm, rfl⟩ := h
  refine ⟨⟨results, hperm, rfl⟩, fun hdated => ?_⟩
  rw [applyPagination, applyPagination_of_perm hperm hdated, hperm.length_eq]
  exact ⟨_, rfl⟩

end Pages

/-! ## The backends -/

section Backends

variable {lib : SledLib}

theorem receiptIndex_run (chips : List StoredChip) (receiptCid : String) :
    (InMemoryBackend.run (putOps chips)).receiptIndex.get receiptCid =
      lastUnder chips receiptCid := by
  induction chips using List.reverseRecOn with
  | nil => rfl
  | append_singleton chips chip ih =>
    rw [putOps, List.map_append, InMemoryBackend.run, List.foldl_append, lastUnder_concat, ← ih]
    exact KeyTree.get_insert ..

/-- What is written can be read back as it was. -/
def Restores (lib : SledLib) (chip : StoredChip) : Prop :=
  isCid chip.cid = true ∧ lib.restored chip = some chip

theorem Restores.storable {chip : StoredChip} (h : Restores lib chip) : Storable lib chip := by
  obtain ⟨hcid, hrestored⟩ := h
  refine ⟨hcid, ?_⟩
  unfold SledLib.restored at hrestored
  cases hwrite : lib.toVec chip with
  | error e => rw [hwrite] at hrestored; cases hrestored
  | ok value =>
    rw [hwrite, ExceptLemmas.bind_ok] at hrestored
    cases hread : lib.fromSlice value with
    | error e => rw [hread] at hrestored; cases hrestored
    | ok chip' =>
      rw [hread] at hrestored
      obtain rfl : chip' = chip := Option.some.inj hrestored
      exact ⟨value, chip'.chipData, rfl, hread⟩

theorem sled_receiptIndex_run {chips : List StoredChip} (h : ∀ chip ∈ chips, Restores lib chip)
    (receiptCid : String) :
    (SledBackend.run lib (putOps chips)).receiptIndex.get (utf8 receiptCid) =
      (lastUnder chips receiptCid).map utf8 := by
  induction chips using List.reverseRecOn with
  | nil => rfl
  | append_singleton chips chip ih =>
    have ih := ih fun chip hchip => h chip (List.mem_append_left _ hchip)
    obtain ⟨-, value, data, hwrite, -⟩ :=
      (h chip (List.mem_append_right _ List.mem_cons_self)).storable
    rw [putOps, List.map_append, SledBackend.run, List.foldl_append, lastUnder_concat]
    change (SledBackend.putChip lib chip (SledBackend.run lib (putOps chips))).2.receiptIndex.get
      (utf8 receiptCid) = _
    rw [SledBackend.putChip, hwrite]
    refine (KeyTree.get_insert ..).trans ?_
    by_cases hreceipt : receiptCid = chip.receiptCid
    · rw [if_pos (congrArg utf8 hreceipt), if_pos hreceipt, Option.map_some]
    · rw [if_neg fun heq => hreceipt (utf8_injective heq), if_neg hreceipt]
      exact ih

/-- What is held is restored. -/
theorem bind_restored {chips : List StoredChip} (h : ∀ chip ∈ chips, Restores lib chip)
    (cid : String) : (held (putOps chips) cid).bind lib.restored = (puts chips).getChip cid := by
  rw [held_putOps]
  cases hget : (puts chips).getChip cid with
  | none => rfl
  | some chip =>
    obtain ⟨put, hput, rfl, -⟩ := exists_put_of_getChip hget
    have hmem : put.chip ∈ chips := by
      clear hget h
      induction chips using List.reverseRecOn with
      | nil => cases hput
      | append_singleton chips chip ih =>
        rw [puts_concat] at hput
        rcases List.mem_cons.mp hput with rfl | hput
        · exact List.mem_append_right _ List.mem_cons_self
        · exact List.mem_append_left _ (ih hput)
    exact (h _ hmem).2

end Backends

/-- After the same puts both backends give what the list gives; of sled, what it writes must be read
back as it was. -/
theorem backends_refine_puts (lib : SledLib) (chips : List StoredChip) :
    let memory := InMemoryBackend.run (putOps chips)
    let sled := SledBackend.run lib (putOps chips)
    ((∀ cid, memory.chips.get cid = (puts chips).getChip cid) ∧
      (∀ receiptCid, memory.getChipByReceiptCid receiptCid =
        (puts chips).getChipByReceiptCid receiptCid) ∧
      ∀ query, AnswersAs (puts chips) query (memory.queryChips query)) ∧
    ((∀ chip ∈ chips, Restores lib chip) →
      (∀ cid, sled.loadChipByCid lib cid = .ok ((puts chips).getChip cid)) ∧
      (∀ receiptCid, sled.getChipByReceiptCid lib receiptCid =
        .ok ((puts chips).getChipByReceiptCid receiptCid)) ∧
      ∀ query, AnswersAs (puts chips) query (sled.queryChips lib query)) := by
  intro memory sled
  constructor
  · obtain ⟨hinv, hheld⟩ := InMemoryBackend.inv_run (putOps chips)
    have hget (cid : String) : memory.chips.get cid = (puts chips).getChip cid := by
      rw [← held_putOps, ← hheld]
    refine ⟨hget, fun receiptCid => ?_, fun query => answersAs_of_perm ?_⟩
    · rw [InMemoryBackend.getChipByReceiptCid, receiptIndex_run, getChipByReceiptCid_eq]
      cases lastUnder chips receiptCid with
      | none => rfl
      | some cid => exact hget cid
    · obtain ⟨results, hperm, hquery⟩ := hinv.queryChips_eq query
      refine ⟨results, hperm.trans (perm_matching hinv.nodup_scanAll (fun chip => ?_) query), hquery⟩
      rw [hinv.mem_scanAll, hget]
  · intro hchips
    have hstorable : ∀ chip, .putChip chip ∈ putOps chips → Storable lib chip := by
      intro chip hchip
      obtain ⟨chip', hmem, heq⟩ := List.mem_map.mp hchip
      exact (StoreOp.putChip.inj heq) ▸ (hchips chip' hmem).storable
    obtain ⟨hinv, hheld⟩ := SledBackend.inv_run hstorable
    have hat (cid : String) : sled.chipAt lib cid = (puts chips).getChip cid := by
      rw [← bind_restored hchips, hheld]
    have hload (cid : String) : sled.loadChipByCid lib cid = .ok ((puts chips).getChip cid) := by
      rw [hinv.loadChipByCid_eq, hat]
    refine ⟨hload, fun receiptCid => ?_, fun query => answersAs_of_perm ?_⟩
    · rw [SledBackend.getChipByReceiptCid, sled_receiptIndex_run hchips, getChipByReceiptCid_eq]
      cases lastUnder chips receiptCid with
      | none => rfl
      | some cid =>
        rw [Option.map_some]
        dsimp only
        rw [fromUtf8_utf8]
        exact hload cid
    · obtain ⟨stored, hscan, hnodup, hmem⟩ := hinv.scanAllChips_spec
      obtain ⟨results, hperm, hquery⟩ := hinv.queryChips_eq query hscan hnodup hmem
      refine ⟨results, hperm.trans (perm_matching hnodup (fun chip => ?_) query), hquery⟩
      rw [hmem, hat]

/-- A chip under its receipt, and another one beside it. -/
theorem backends_refine_puts_sample :
    (SledBackend.run sampleSled (putOps [sampleStored, sampleTwin])).loadChipByCid sampleSled
          "b3:0a" = .ok ((puts [sampleStored, sampleTwin]).getChip "b3:0a") ∧
      (SledBackend.run sampleSled (putOps [sampleStored, sampleTwin])).getChipByReceiptCid sampleSled
          "b3:0d" = .ok ((puts [sampleStored, sampleTwin]).getChipByReceiptCid "b3:0d") ∧
      AnswersAs (puts [sampleStored, sampleTwin]) (tagQuery "ubl/document" "type:ubl/document" none)
        ((SledBackend.run sampleSled (putOps [sampleStored, sampleTwin])).queryChips sampleSled
          (tagQuery "ubl/document" "type:ubl/document" none)) := by
  have hrestores : ∀ chip ∈ [sampleStored, sampleTwin], Restores sampleSled chip := by
    intro chip hchip
    have hsub : [sampleStored, sampleTwin] ⊆ [sampleStored, sampleAgain, sampleTwin] := by simp
    obtain ⟨hcid, hwrite, hread⟩ := sampleSled_reads (hsub hchip)
    refine ⟨hcid, ?_⟩
    rw [SledLib.restored, hwrite, ExceptLemmas.bind_ok, hread]
    rfl
  obtain ⟨hload, hreceipt, hquery⟩ := (backends_refine_puts sampleSled [sampleStored,
    sampleTwin]).2 hrestores
  exact ⟨hload "b3:0a", hreceipt "b3:0d", hquery _⟩

end Ubl.Chipstore
