import Ubl.Chipstore.Backends

/-!
# The queries of the backends refine a scan

An index is the set of its entries, a CID under a key; a backend keeps to `Covers` when every stored
chip is entered under its type, its tags and its executor.  Puts, deletions and rebuilds keep that,
and then `candidateCids` gives every chip that matches, so that comparing the candidates with the
query is as good as comparing all chips (`SecondaryIndex.perm_of_candidates`).

In the trees of sled an entry is the key, a zero byte and the CID.  Two entries are told apart because
no CID has a zero byte (`Cid::new` takes `b3:` and hexadecimal digits).
-/

namespace Ubl.Chipstore

open Utf8 SecondaryIndex ExceptLemmas
open ChipStore (matchesQuery)

/-! ## The operations, and what they leave -/

inductive StoreOp where
  | putChip (chip : StoredChip)
  | deleteChip (cid : String)
  | rebuildIndexes

/-- Under each CID the chip that was put last and not deleted since. -/
def StoreOp.apply (held : String → Option StoredChip) : StoreOp → String → Option StoredChip
  | .putChip chip => Function.update held chip.cid (some chip)
  | .deleteChip cid => Function.update held cid none
  | .rebuildIndexes => held

def held (ops : List StoreOp) : String → Option StoredChip := ops.foldl StoreOp.apply fun _ => none

/-- The answer of a scan of the stored chips: as many as match, and on a page that holds them all
each of them once. -/
def Answers (stored : List StoredChip) (query : ChipQuery)
    (answer : Except ChipStoreError QueryResult) : Prop :=
  ∃ result, answer = .ok result ∧
    result.totalCount = (stored.filter (matchesQuery query)).length ∧
    (query.offset.getD 0 = 0 → result.totalCount ≤ query.limit.getD 100 →
      result.chips.Perm (stored.filter (matchesQuery query)))

theorem answers_of_perm {stored results : List StoredChip} {query : ChipQuery}
    (h : results.Perm (stored.filter (matchesQuery query))) :
    Answers stored query (.ok (applyPagination results query)) := by
  refine ⟨_, rfl, h.length_eq, fun hoffset hlimit => ?_⟩
  have hsort := List.perm_insertionSort (fun a b : StoredChip => b.createdAt ≤ a.createdAt) results
  simp only [applyPagination, ChipStore.applyPagination, hoffset, List.drop_zero]
  rw [List.take_of_length_le (hsort.length_eq.trans_le hlimit)]
  exact hsort.trans h

/-! ## The candidates -/

section Candidates

/-- A read of an index gives at least what is entered. -/
def ReadsAll (read : ReadIndex) (entered : String → String → Prop) : Prop :=
  ∀ key, ∃ set, read key = .ok set ∧ ∀ cid, entered key cid → cid ∈ set

/-- Narrowing keeps the CIDs entered under every key asked for. -/
theorem foldlM_narrow {read : ReadIndex} {entered : String → String → Prop}
    (hread : ReadsAll read entered) (keys : List String) (candidates : Option (Finset String)) :
    ∃ narrowed, keys.foldlM (narrow read) candidates = .ok narrowed ∧
      ((candidates.isSome ∨ keys ≠ []) → narrowed.isSome) ∧
      ∀ cid, (∀ set ∈ candidates, cid ∈ set) → (∀ key ∈ keys, entered key cid) →
        ∀ set ∈ narrowed, cid ∈ set := by
  induction keys generalizing candidates with
  | nil => exact ⟨candidates, rfl, fun h => h.resolve_right (fun h => h rfl), fun _ h _ => h⟩
  | cons key keys ih =>
    obtain ⟨set, hset, hentered⟩ := hread key
    obtain ⟨narrowed, hfold, hsome, hmem⟩ := ih (some (intersectSets candidates set))
    refine ⟨narrowed, ?_, fun _ => hsome (.inl rfl), fun cid hcid hkeys => hmem cid ?_ ?_⟩
    · rw [List.foldlM_cons, narrow, hset]
      exact hfold
    · rintro _ ⟨⟩
      have hkey := hentered cid (hkeys key List.mem_cons_self)
      cases candidates with
      | none => exact hkey
      | some existing => exact Finset.mem_inter.mpr ⟨hcid existing rfl, hkey⟩
    · exact fun key hkey => hkeys key (List.mem_cons_of_mem _ hkey)

theorem keys_of_matchesQuery {query : ChipQuery} {chip : StoredChip}
    (h : matchesQuery query chip = true) (name : IndexName) :
    ∀ key ∈ query.keys name, key ∈ chip.keys name := by
  simp only [matchesQuery, Bool.and_eq_true, Option.all_eq_true, List.all_eq_true, beq_iff_eq,
    List.contains_iff_mem] at h
  obtain ⟨⟨⟨⟨htype, htags⟩, -⟩, -⟩, hexecutor⟩ := h
  cases name with
  | type => exact fun key hkey => List.mem_singleton.mpr (htype key (Option.mem_toList.mp hkey)).symm
  | tag => exact htags
  | executor =>
    exact fun key hkey => List.mem_singleton.mpr (hexecutor key (Option.mem_toList.mp hkey)).symm

/-- Every chip that is entered under its keys and matches is among the candidates. -/
theorem candidateCids_spec {read : IndexName → ReadIndex} {entered : IndexName → String → String → Prop}
    (hread : ∀ name, ReadsAll (read name) (entered name)) (query : ChipQuery) :
    ∃ candidates, candidateCids read query = .ok candidates ∧
      ∀ set ∈ candidates, ∀ chip : StoredChip, matchesQuery query chip = true →
        (∀ name, ∀ key ∈ chip.keys name, entered name key chip.cid) → chip.cid ∈ set := by
  unfold candidateCids
  split
  · exact ⟨none, rfl, nofun⟩
  · rename_i hnamed
    obtain ⟨c₁, h₁, hsome₁, hmem₁⟩ := foldlM_narrow (hread .type) query.chipType.toList none
    obtain ⟨c₂, h₂, hsome₂, hmem₂⟩ := foldlM_narrow (hread .tag) query.tags c₁
    obtain ⟨c₃, h₃, hsome₃, hmem₃⟩ := foldlM_narrow (hread .executor) query.executorDid.toList c₂
    refine ⟨some (c₃.getD ∅), by rw [h₁, bind_ok, h₂, bind_ok, h₃]; rfl, ?_⟩
    rintro _ ⟨⟩ chip hmatch hentered
    have hkeys (name : IndexName) : ∀ key ∈ query.keys name, entered name key chip.cid :=
      fun key hkey => hentered name key (keys_of_matchesQuery hmatch name key hkey)
    have hsome : c₃.isSome := by
      rcases htype : query.chipType with _ | t
      · rcases htags : query.tags with _ | ⟨tag, tags⟩
        · rcases hexecutor : query.executorDid with _ | did
          · simp [htype, htags, hexecutor] at hnamed
          · exact hsome₃ (.inr (by simp [hexecutor]))
        · exact hsome₃ (.inl (hsome₂ (.inr (by simp [htags]))))
      · exact hsome₃ (.inl (hsome₂ (.inl (hsome₁ (.inr (by simp [htype]))))))
    obtain ⟨set, rfl⟩ := Option.isSome_iff_exists.mp hsome
    exact hmem₃ chip.cid (hmem₂ chip.cid (hmem₁ chip.cid nofun (hkeys .type)) (hkeys .tag))
      (hkeys .executor) set rfl

end Candidates

/-! ## In memory -/

theorem mem_readEntry_addEntry {key cid key' cid' : String} {index : HashIndex} :
    cid' ∈ readEntry (addEntry key cid index) key' ↔
      (key' = key ∧ cid' = cid) ∨ cid' ∈ readEntry index key' := by
  unfold readEntry addEntry
  rw [KeyTree.get_insert]
  split_ifs with h
  · subst h
    simp
  · simp [h]

/-- A removal takes no other CID out. -/
theorem mem_readEntry_removeEntry {key cid key' cid' : String} {index : HashIndex}
    (hne : cid' ≠ cid) (h : cid' ∈ readEntry index key') :
    cid' ∈ readEntry (removeEntry key cid index) key' := by
  unfold removeEntry
  split
  · exact h
  · rename_i cids hcids
    by_cases hkey : key' = key
    · subst hkey
      have hmem : cid' ∈ cids.erase cid := by
        rw [readEntry, hcids] at h
        exact Finset.mem_erase.mpr ⟨hne, h⟩
      rw [if_neg (Finset.ne_empty_of_mem hmem), readEntry, KeyTree.get_insert, if_pos rfl]
      exact hmem
    · split_ifs
      · rwa [readEntry, KeyTree.get_remove, if_neg hkey]
      · rwa [readEntry, KeyTree.get_insert, if_neg hkey]

theorem mem_readEntry_foldl_addEntry {tags : List String} {cid key cid' : String}
    {index : HashIndex} :
    cid' ∈ readEntry (tags.foldl (fun index tag => addEntry tag cid index) index) key ↔
      (key ∈ tags ∧ cid' = cid) ∨ cid' ∈ readEntry index key := by
  induction tags generalizing index with
  | nil => simp
  | cons tag tags ih =>
    rw [List.foldl_cons, ih, mem_readEntry_addEntry, List.mem_cons]
    tauto

theorem mem_readEntry_foldl_removeEntry {tags : List String} {cid key cid' : String}
    {index : HashIndex} (hne : cid' ≠ cid) (h : cid' ∈ readEntry index key) :
    cid' ∈ readEntry (tags.foldl (fun index tag => removeEntry tag cid index) index) key := by
  induction tags generalizing index with
  | nil => exact h
  | cons tag tags ih => exact ih (mem_readEntry_removeEntry hne h)

namespace InMemoryBackend

variable {b : InMemoryBackend} {chip : StoredChip}

/-- The CID is entered in the index under the key. -/
def Entered (b : InMemoryBackend) (name : IndexName) (key cid : String) : Prop :=
  cid ∈ readEntry (b.index name) key

theorem entered_indexChip {name : IndexName} {key cid : String} :
    (indexChip chip b).Entered name key cid ↔
      (key ∈ chip.keys name ∧ cid = chip.cid) ∨ b.Entered name key cid := by
  cases name with
  | type => exact mem_readEntry_addEntry.trans (by rw [StoredChip.keys, List.mem_singleton]; rfl)
  | tag => exact mem_readEntry_foldl_addEntry
  | executor => exact mem_readEntry_addEntry.trans (by rw [StoredChip.keys, List.mem_singleton]; rfl)

theorem Entered.removeChipFromIndexes {name : IndexName} {key cid : String}
    (h : b.Entered name key cid) (hne : cid ≠ chip.cid) :
    (removeChipFromIndexes chip b).Entered name key cid := by
  cases name with
  | type => exact mem_readEntry_removeEntry hne h
  | tag => exact mem_readEntry_foldl_removeEntry hne h
  | executor => exact mem_readEntry_removeEntry hne h

/-- Every chip is stored under its CID, and entered. -/
structure Inv (b : InMemoryBackend) : Prop where
  cid_eq : ∀ cid chip, b.chips.get cid = some chip → chip.cid = cid
  covers : Covers b.chips.get (fun chip (k : IndexName × String) => k.2 ∈ chip.keys k.1)
    fun k cid => b.Entered k.1 k.2 cid

theorem inv_new : Inv new := ⟨nofun, covers_empty⟩

theorem Inv.putChip (h : b.Inv) (chip : StoredChip) : (putChip chip b).Inv := by
  have hget (cid : String) : (InMemoryBackend.putChip chip b).chips.get cid =
      if cid = chip.cid then some chip else b.chips.get cid := KeyTree.get_insert ..
  refine ⟨fun cid chip' hchip => ?_, h.covers.insert (i := chip.cid) (r := chip)
    (fun cid chip' hchip => ?_) ?_ ?_⟩
  · rw [hget] at hchip
    split_ifs at hchip with hcid
    · obtain rfl := Option.some.inj hchip
      exact hcid.symm
    · exact h.cid_eq cid chip' hchip
  · rw [hget] at hchip
    split_ifs at hchip with hcid
    · exact .inl ⟨hcid, (Option.some.inj hchip).symm⟩
    · exact .inr hchip
  · exact fun k cid hentered => entered_indexChip.mpr (.inr hentered)
  · exact fun k hk => entered_indexChip.mpr (.inl ⟨hk, rfl⟩)

theorem chips_deleteChip (b : InMemoryBackend) (cid cid' : String) :
    (deleteChip cid b).chips.get cid' = if cid' = cid then none else b.chips.get cid' := by
  unfold deleteChip
  split
  · rename_i hnone
    split_ifs with h
    · rw [h, hnone]
    · rfl
  · exact KeyTree.get_remove ..

theorem Inv.deleteChip (h : b.Inv) (cid : String) : (deleteChip cid b).Inv := by
  have hstored : ∀ cid' chip, (InMemoryBackend.deleteChip cid b).chips.get cid' = some chip →
      cid' ≠ cid ∧ b.chips.get cid' = some chip := by
    intro cid' chip hchip
    rw [chips_deleteChip] at hchip
    split_ifs at hchip with hcid
    exact ⟨hcid, hchip⟩
  refine ⟨fun cid' chip hchip => h.cid_eq cid' chip (hstored cid' chip hchip).2,
    h.covers.erase hstored fun k cid' chip hchip hne hentered => ?_⟩
  unfold InMemoryBackend.deleteChip
  split
  · exact hentered
  · rename_i removed hremoved
    exact Entered.removeChipFromIndexes hentered (h.cid_eq cid removed hremoved ▸ hne)

/-- After a rebuild exactly the stored chips are entered. -/
theorem entered_foldl_indexChip {chips : List StoredChip} {name : IndexName} {key cid : String} :
    (chips.foldl (fun b chip => indexChip chip b) b).Entered name key cid ↔
      (∃ chip ∈ chips, key ∈ chip.keys name ∧ cid = chip.cid) ∨ b.Entered name key cid := by
  induction chips generalizing b with
  | nil => simp
  | cons chip chips ih =>
    rw [List.foldl_cons, ih, entered_indexChip, List.exists_mem_cons_iff]
    exact or_left_comm.trans or_assoc.symm

theorem chips_rebuildIndexes (b : InMemoryBackend) : b.rebuildIndexes.chips = b.chips := by
  unfold rebuildIndexes
  suffices h : ∀ (chips : List StoredChip) (b' : InMemoryBackend),
      (chips.foldl (fun b chip => indexChip chip b) b').chips = b'.chips from h _ _
  intro chips
  induction chips with
  | nil => exact fun _ => rfl
  | cons chip chips ih => exact fun b' => ih _

theorem Inv.rebuildIndexes (h : b.Inv) : b.rebuildIndexes.Inv := by
  refine ⟨by rw [chips_rebuildIndexes]; exact h.cid_eq, ?_⟩
  rw [chips_rebuildIndexes]
  intro cid chip hchip k hk
  exact entered_foldl_indexChip.mpr
    (.inl ⟨chip, KeyTree.mem_values.mpr ⟨cid, hchip⟩, hk, (h.cid_eq cid chip hchip).symm⟩)

def step (b : InMemoryBackend) : StoreOp → InMemoryBackend
  | .putChip chip => putChip chip b
  | .deleteChip cid => deleteChip cid b
  | .rebuildIndexes => b.rebuildIndexes

def run (ops : List StoreOp) : InMemoryBackend := ops.foldl step new

theorem Inv.step (h : b.Inv) (op : StoreOp) :
    (b.step op).Inv ∧ (b.step op).chips.get = op.apply b.chips.get := by
  cases op with
  | putChip chip =>
    exact ⟨h.putChip chip, funext fun cid => (KeyTree.get_insert ..).trans
      (Function.update_apply ..).symm⟩
  | deleteChip cid =>
    exact ⟨h.deleteChip cid, funext fun cid' => (chips_deleteChip ..).trans
      (Function.update_apply ..).symm⟩
  | rebuildIndexes => exact ⟨h.rebuildIndexes, congrArg KeyTree.get (chips_rebuildIndexes b)⟩

theorem inv_run (ops : List StoreOp) : (run ops).Inv ∧ (run ops).chips.get = held ops := by
  suffices h : ∀ b : InMemoryBackend, b.Inv → (ops.foldl step b).Inv ∧
      (ops.foldl step b).chips.get = ops.foldl StoreOp.apply b.chips.get from h new inv_new
  induction ops with
  | nil => exact fun b hb => ⟨hb, rfl⟩
  | cons op ops ih =>
    intro b hb
    obtain ⟨hinv, hget⟩ := hb.step op
    rw [List.foldl_cons, List.foldl_cons, ← hget]
    exact ih _ hinv

theorem Inv.mem_scanAll (h : b.Inv) : chip ∈ b.scanAll ↔ b.chips.get chip.cid = some chip := by
  refine KeyTree.mem_values.trans ⟨?_, fun hchip => ⟨_, hchip⟩⟩
  rintro ⟨cid, hchip⟩
  rwa [h.cid_eq cid chip hchip]

theorem Inv.nodup_scanAll (h : b.Inv) : (b.scanAll.map StoredChip.cid).Nodup := by
  have heq : b.scanAll.map StoredChip.cid = AssocMap.keys b.chips.entries := by
    rw [scanAll, KeyTree.values, AssocMap.keys, List.map_map]
    exact List.map_congr_left fun e he => h.cid_eq e.1 e.2 (KeyTree.mem_entries.mp he)
  exact heq ▸ b.chips.ascending.distinctKeys

/-- The candidates are at hand, and every chip that matches is one. -/
theorem Inv.candidates (h : b.Inv) (query : ChipQuery) :
    ∃ candidates, b.candidateCidsFromIndexes query = .ok candidates ∧
      ∀ cids ∈ candidates, ∀ chip ∈ b.scanAll, matchesQuery query chip = true → chip.cid ∈ cids := by
  have hread (name : IndexName) :
      ReadsAll (fun key => .ok (readEntry (b.index name) key)) (b.Entered name) :=
    fun key => ⟨_, rfl, fun _ hcid => hcid⟩
  obtain ⟨candidates, heq, hmem⟩ := candidateCids_spec hread query
  refine ⟨candidates, heq, fun cids hcids chip hchip hmatch => ?_⟩
  refine hmem cids hcids chip hmatch fun name key hkey => ?_
  exact @h.covers chip.cid chip (h.mem_scanAll.mp hchip) (name, key) hkey

/-- Whatever more is looked up, and in whatever order, the chips that match are found. -/
theorem Inv.perm_matching (h : b.Inv) {query : ChipQuery} {ids : List String} (hids : ids.Nodup)
    (hmem : ∀ chip ∈ b.scanAll, matchesQuery query chip = true → chip.cid ∈ ids) :
    ((ids.filterMap b.chips.get).filter (matchesQuery query)).Perm
      (b.scanAll.filter (matchesQuery query)) :=
  perm_of_candidates h.nodup_scanAll.of_map hids (fun _ => h.mem_scanAll) h.cid_eq hmem

/-- A query cuts its page from the chips that match. -/
theorem Inv.queryChips_eq (h : b.Inv) (query : ChipQuery) : ∃ results,
    results.Perm (b.scanAll.filter (matchesQuery query)) ∧
      b.queryChips query = .ok (applyPagination results query) := by
  obtain ⟨candidates, heq, hmem⟩ := h.candidates query
  rw [queryChips, heq]
  cases candidates with
  | none => exact ⟨_, .refl _, rfl⟩
  | some cids =>
    refine ⟨_, h.perm_matching (cids.sort_nodup _) fun chip hchip hmatch => ?_, rfl⟩
    exact (Finset.mem_sort _).mpr (hmem cids rfl chip hchip hmatch)

theorem Inv.answers (h : b.Inv) (query : ChipQuery) :
    Answers b.scanAll query (b.queryChips query) := by
  obtain ⟨results, hperm, hquery⟩ := h.queryChips_eq query
  rw [hquery]
  exact answers_of_perm hperm

end InMemoryBackend

/-! ## In sled -/

/-- The texts `Cid::new` takes. -/
def isCid (s : String) : Bool :=
  match s.toList with
  | 'b' :: '3' :: ':' :: hex =>
    !hex.isEmpty && hex.all fun c =>
      c.isDigit || ('a' ≤ c && c ≤ 'f') || ('A' ≤ c && c ≤ 'F')
  | _ => false

/-- The CIDs of executed chips are ones. -/
theorem isCid_chipCid {c : Receipt.Crypto} {value : Json} {cid : String}
    (hdigest : ∀ bytes, c.blake3 bytes ≠ []) (h : chipCid c value = .ok cid) : isCid cid = true := by
  unfold chipCid at h
  split at h
  · cases h
  · rename_i nrf _
    obtain rfl := Except.ok.inj h
    obtain ⟨byte, bytes, hbytes⟩ := List.exists_cons_of_ne_nil (hdigest nrf)
    have hdigit : ∀ n < 16, ((Hex.digit n).isDigit ||
        ('a' ≤ Hex.digit n && Hex.digit n ≤ 'f') || ('A' ≤ Hex.digit n && Hex.digit n ≤ 'F')) =
          true := by
      decide
    have hlist : ("b3:" ++ Hex.encode (c.blake3 nrf)).toList =
        'b' :: '3' :: ':' :: (c.blake3 nrf).flatMap fun b =>
          [Hex.digit (b.toNat / 16), Hex.digit (b.toNat % 16)] := by
      rw [String.toList_append, Hex.encode]
      simp
    rw [isCid, hlist]
    simp only [Bool.and_eq_true, List.all_eq_true, List.mem_flatMap, hbytes]
    refine ⟨rfl, ?_⟩
    rintro d ⟨b, -, hd⟩
    have hb := b.toNat_lt
    rcases List.mem_cons.mp hd with rfl | hd
    · exact hdigit _ (by omega)
    · exact List.mem_singleton.mp hd ▸ hdigit _ (by omega)

theorem not_mem_nul_of_isCid {cid : String} (h : isCid cid = true) : '\x00' ∉ cid.toList := by
  unfold isCid at h
  split at h
  · rename_i hex heq
    rw [heq]
    intro hmem
    have hnul : '\x00' ∈ hex := by simpa using hmem
    have hall := List.all_eq_true.mp (Bool.and_eq_true_iff.mp h).2 _ hnul
    revert hall
    decide
  · cases h

theorem indexCompositeKey_eq (key cid : String) :
    indexCompositeKey key cid = utf8 (key ++ "\x00" ++ cid) := by
  rw [utf8_append, utf8_append, List.append_assoc]
  rfl

theorem indexPrefix_eq (key : String) : indexPrefix key = utf8 (key ++ "\x00") := by
  rw [utf8_append]
  rfl

/-- The CID of an entry is what stands behind its last zero byte. -/
theorem cid_of_indexCompositeKey {key key' cid cid' : String} (h : '\x00' ∉ cid.toList)
    (h' : '\x00' ∉ cid'.toList) (heq : indexCompositeKey key cid = indexCompositeKey key' cid') :
    cid = cid' := by
  rw [indexCompositeKey_eq, indexCompositeKey_eq] at heq
  have hlist := congrArg String.toList (utf8_injective heq)
  simp only [String.toList_append, List.append_assoc] at hlist
  exact String.toList_injective (KeyTree.split_last h h' hlist).2

theorem keys_withData (chip : StoredChip) (data : Json) (name : IndexName) :
    ({ chip with chipData := data } : StoredChip).keys name = chip.keys name := by
  cases name <;> rfl

/-- A chip that the store can hold: its CID is one, and what is written of it can be read; the
numbers in its data may come back rounded. -/
def Storable (lib : SledLib) (chip : StoredChip) : Prop :=
  isCid chip.cid = true ∧ ∃ value data, lib.toVec chip = .ok value ∧
    lib.fromSlice value = .ok { chip with chipData := data }

/-- The chip as it is read back. -/
def SledLib.restored (lib : SledLib) (chip : StoredChip) : Option StoredChip :=
  (lib.toVec chip >>= lib.fromSlice).toOption

namespace SledBackend

variable {lib : SledLib} {b : SledBackend} {chip : StoredChip}

/-- The CID is entered in the index under the key. -/
def Entered (b : SledBackend) (name : IndexName) (key cid : String) : Prop :=
  (b.index name).contains (indexCompositeKey key cid)

theorem contains_addIndexEntry {tree : SledIndex} {key cid : String} {rawKey : List UInt8} :
    (addIndexEntry key cid tree).contains rawKey ↔
      rawKey = indexCompositeKey key cid ∨ tree.contains rawKey := KeyTree.contains_insert ..

theorem contains_foldl_addIndexEntry {tags : List String} {cid : String} {rawKey : List UInt8}
    {tree : SledIndex} :
    (tags.foldl (fun tree tag => addIndexEntry tag cid tree) tree).contains rawKey ↔
      (∃ tag ∈ tags, rawKey = indexCompositeKey tag cid) ∨ tree.contains rawKey := by
  induction tags generalizing tree with
  | nil => simp
  | cons tag tags ih =>
    rw [List.foldl_cons, ih, contains_addIndexEntry, List.exists_mem_cons_iff]
    exact or_left_comm.trans or_assoc.symm

/-- The entries of a chip are added, and no others. -/
theorem contains_addChipToIndexes {name : IndexName} {rawKey : List UInt8} :
    ((addChipToIndexes chip b).index name).contains rawKey ↔
      (∃ key ∈ chip.keys name, rawKey = indexCompositeKey key chip.cid) ∨
        (b.index name).contains rawKey := by
  cases name with
  | type => exact contains_addIndexEntry.trans (by simp [StoredChip.keys]; rfl)
  | tag => exact contains_foldl_addIndexEntry
  | executor => exact contains_addIndexEntry.trans (by simp [StoredChip.keys]; rfl)

/-- A removal takes no entry of another CID out. -/
theorem contains_removeChipFromIndexes {name : IndexName} {rawKey : List UInt8}
    (hne : ∀ key, rawKey ≠ indexCompositeKey key chip.cid) :
    ((removeChipFromIndexes chip b).index name).contains rawKey ↔
      (b.index name).contains rawKey := by
  have hone (key : String) (tree : SledIndex) :
      (removeIndexEntry key chip.cid tree).contains rawKey ↔ tree.contains rawKey := by
    rw [removeIndexEntry, KeyTree.contains_remove]
    exact and_iff_right (hne key)
  cases name with
  | type => exact hone _ _
  | executor => exact hone _ _
  | tag =>
    change (chip.tags.foldl _ b.tagIndex).contains rawKey ↔ b.tagIndex.contains rawKey
    generalize b.tagIndex = tree
    induction chip.tags generalizing tree with
    | nil => rfl
    | cons tag tags ih => exact (ih _).trans (hone tag tree)

theorem addRawKey_append (key cid : String) (values : Finset String) :
    addRawKey lib key values (indexPrefix key ++ utf8 cid) = .ok (insert cid values) := by
  simp [addRawKey]

theorem contains_of_removeChipFromIndexes {name : IndexName} {rawKey : List UInt8}
    (h : ((removeChipFromIndexes chip b).index name).contains rawKey) :
    (b.index name).contains rawKey := by
  have hone (key : String) (tree : SledIndex)
      (h : (removeIndexEntry key chip.cid tree).contains rawKey) : tree.contains rawKey :=
    ((KeyTree.contains_remove ..).mp h).2
  cases name with
  | type => exact hone _ _ h
  | executor => exact hone _ _ h
  | tag =>
    change (chip.tags.foldl _ b.tagIndex).contains rawKey at h
    change b.tagIndex.contains rawKey
    generalize b.tagIndex = tree at h ⊢
    generalize chip.tags = tags at h
    induction tags generalizing tree with
    | nil => exact h
    | cons tag tags ih => exact hone tag tree (ih _ h)

/-- The CIDs behind a prefix are collected. -/
theorem foldlM_addRawKey (key : String) {rawKeys : List (List UInt8)}
    (h : ∀ rawKey ∈ rawKeys, ∃ cid, rawKey = indexPrefix key ++ utf8 cid) (values : Finset String) :
    ∃ set, rawKeys.foldlM (addRawKey lib key) values = .ok set ∧
      ∀ cid, (cid ∈ values ∨ indexPrefix key ++ utf8 cid ∈ rawKeys) → cid ∈ set := by
  induction rawKeys generalizing values with
  | nil => exact ⟨values, rfl, fun cid hcid => hcid.resolve_right (by simp)⟩
  | cons rawKey rawKeys ih =>
    obtain ⟨cid, rfl⟩ := h _ List.mem_cons_self
    obtain ⟨set, hset, hmem⟩ := ih (fun rawKey hraw => h rawKey (List.mem_cons_of_mem _ hraw))
      (insert cid values)
    refine ⟨set, ?_, fun cid' hcid' => hmem cid' ?_⟩
    · rw [List.foldlM_cons, addRawKey_append]
      exact hset
    · rcases hcid' with hvalues | hraw
      · exact .inl (Finset.mem_insert_of_mem hvalues)
      · rcases List.mem_cons.mp hraw with heq | hraw
        · obtain rfl := utf8_injective (List.append_cancel_left heq)
          exact .inl (Finset.mem_insert_self ..)
        · exact .inr hraw

theorem readsAll_readIndexSet {name : IndexName}
    (h : ∀ rawKey, (b.index name).contains rawKey → ∃ key cid, rawKey = indexCompositeKey key cid) :
    ReadsAll (readIndexSet lib (b.index name)) (b.Entered name) := by
  intro key
  have hkeys : ∀ rawKey ∈ (b.index name).scanPrefix (indexPrefix key),
      ∃ cid, rawKey = indexPrefix key ++ utf8 cid := by
    intro rawKey hraw
    obtain ⟨hcontains, rest, rfl⟩ := KeyTree.mem_scanPrefix.mp hraw
    obtain ⟨key', cid, heq⟩ := h _ hcontains
    rw [indexCompositeKey_eq, indexPrefix_eq] at heq
    obtain ⟨u, -, rfl⟩ := utf8_of_append heq
    exact ⟨u, rfl⟩
  obtain ⟨set, hset, hmem⟩ := foldlM_addRawKey key hkeys ∅
  refine ⟨set, hset, fun cid hentered => hmem cid (.inr (KeyTree.mem_scanPrefix.mpr ?_))⟩
  have heq : indexPrefix key ++ utf8 cid = indexCompositeKey key cid := by
    simp [indexPrefix, indexCompositeKey]
  exact ⟨heq ▸ hentered, List.prefix_append ..⟩

variable (lib) in
/-- The chip that is read under a CID. -/
def chipAt (b : SledBackend) (cid : String) : Option StoredChip :=
  (b.db.get (utf8 cid)).bind fun data => (lib.fromSlice data).toOption

/-- What is stored can be read, under its CID, and is entered; the indexes hold nothing but
entries. -/
structure Inv (lib : SledLib) (b : SledBackend) : Prop where
  readable : ∀ key data, b.db.get key = some data →
    ∃ chip, lib.fromSlice data = .ok chip ∧ isCid chip.cid = true ∧ key = utf8 chip.cid
  composed : ∀ name rawKey, (b.index name).contains rawKey →
    ∃ key cid, rawKey = indexCompositeKey key cid
  covers : Covers (b.chipAt lib) (fun chip (k : IndexName × String) => k.2 ∈ chip.keys k.1)
    fun k cid => b.Entered k.1 k.2 cid

theorem inv_empty : Inv lib empty := by
  refine ⟨nofun, fun name rawKey h => ?_, covers_empty⟩
  cases name <;> cases h

theorem Inv.chipAt_eq_some (h : Inv lib b) {cid : String} (hchip : b.chipAt lib cid = some chip) :
    ∃ data, b.db.get (utf8 cid) = some data ∧ lib.fromSlice data = .ok chip ∧ chip.cid = cid ∧
      isCid cid = true := by
  obtain ⟨data, hdata, hread⟩ := Option.bind_eq_some_iff.mp hchip
  obtain ⟨chip', hslice, hcid, hkey⟩ := h.readable _ _ hdata
  rw [hslice] at hread
  obtain rfl := Option.some.inj hread
  obtain rfl := utf8_injective hkey
  exact ⟨data, hdata, hslice, rfl, hcid⟩

theorem Inv.loadChipByCid_eq (h : Inv lib b) (cid : String) :
    loadChipByCid lib b cid = .ok (b.chipAt lib cid) := by
  unfold loadChipByCid chipAt
  cases hdata : b.db.get (utf8 cid) with
  | none => rfl
  | some data =>
    obtain ⟨chip, hslice, -, -⟩ := h.readable _ _ hdata
    simp only [parseChip, hslice, Option.bind_some]
    rfl

theorem Inv.putChip (h : Inv lib b) (hchip : Storable lib chip) :
    Inv lib (putChip lib chip b).2 ∧
      (putChip lib chip b).2.chipAt lib =
        Function.update (b.chipAt lib) chip.cid (lib.restored chip) := by
  obtain ⟨hcid, value, data, hwrite, hread⟩ := hchip
  have hput : (SledBackend.putChip lib chip b).2 = addChipToIndexes chip
      (insertReceipt chip { b with db := b.db.insert (utf8 chip.cid) value }) := by
    rw [SledBackend.putChip, hwrite]
  have hrestored : lib.restored chip = some { chip with chipData := data } := by
    rw [SledLib.restored, hwrite, bind_ok, hread]
    rfl
  have hget (key : List UInt8) : (SledBackend.putChip lib chip b).2.db.get key =
      if key = utf8 chip.cid then some value else b.db.get key := by
    rw [hput]
    change (b.db.insert (utf8 chip.cid) value).get key = _
    rw [KeyTree.get_insert]
    split_ifs <;> rfl
  have hentries (name : IndexName) (rawKey : List UInt8) :
      ((SledBackend.putChip lib chip b).2.index name).contains rawKey ↔
        (∃ key ∈ chip.keys name, rawKey = indexCompositeKey key chip.cid) ∨
          (b.index name).contains rawKey := by
    rw [hput, contains_addChipToIndexes]
    cases name <;> rfl
  have hat : (SledBackend.putChip lib chip b).2.chipAt lib =
      Function.update (b.chipAt lib) chip.cid (lib.restored chip) := by
    funext cid
    rw [chipAt, hget, Function.update_apply, hrestored]
    split_ifs with hkey hne hne
    · rw [Option.bind_some, hread]
      rfl
    · exact absurd (utf8_injective hkey) hne
    · exact absurd (congrArg utf8 hne) hkey
    · rfl
  refine ⟨⟨fun key value' hvalue => ?_, fun name rawKey hraw => ?_, ?_⟩, hat⟩
  · rw [hget] at hvalue
    split_ifs at hvalue with hkey
    · obtain rfl := Option.some.inj hvalue
      exact ⟨_, hread, hcid, hkey⟩
    · exact h.readable key value' hvalue
  · rcases (hentries name rawKey).mp hraw with ⟨key, -, rfl⟩ | hraw
    · exact ⟨key, chip.cid, rfl⟩
    · exact h.composed name rawKey hraw
  · refine h.covers.insert (i := chip.cid) (r := { chip with chipData := data })
      (fun cid chip' hchip' => ?_) (fun k cid hk => (hentries _ _).mpr (.inr hk)) fun k hk => ?_
    · rw [hat, Function.update_apply, hrestored] at hchip'
      split_ifs at hchip' with hne
      · exact .inl ⟨hne, (Option.some.inj hchip').symm⟩
      · exact .inr hchip'
    · exact (hentries _ _).mpr (.inl ⟨k.2, keys_withData chip data k.1 ▸ hk, rfl⟩)

/-- A deletion takes the record of its CID, and entries of that CID only. -/
theorem Inv.deleteChip_spec (h : Inv lib b) (cid : String) :
    (deleteChip lib cid b).2.db = b.db.remove (utf8 cid) ∧ ∀ name rawKey,
      (((deleteChip lib cid b).2.index name).contains rawKey → (b.index name).contains rawKey) ∧
      ((isCid cid = true → ∀ key, rawKey ≠ indexCompositeKey key cid) →
        (b.index name).contains rawKey →
          ((deleteChip lib cid b).2.index name).contains rawKey) := by
  rw [deleteChip, h.loadChipByCid_eq]
  cases hchip : b.chipAt lib cid with
  | none =>
    refine ⟨rfl, fun name rawKey => ?_⟩
    cases name <;> exact ⟨id, fun _ => id⟩
  | some chip =>
    obtain ⟨-, -, -, rfl, hcid⟩ := h.chipAt_eq_some hchip
    refine ⟨rfl, fun name rawKey => ?_⟩
    have hindex : (removeChipFromIndexes chip b).index name =
        ({ removeChipFromIndexes chip { b with
            receiptIndex := b.receiptIndex.remove (utf8 chip.receiptCid) } with
          db := b.db.remove (utf8 chip.cid) } : SledBackend).index name := by
      cases name <;> rfl
    exact ⟨fun hraw => contains_of_removeChipFromIndexes (hindex ▸ hraw),
      fun hne hraw => hindex ▸ (contains_removeChipFromIndexes (hne hcid)).mpr hraw⟩

theorem Inv.deleteChip (h : Inv lib b) (cid : String) :
    Inv lib (deleteChip lib cid b).2 ∧
      (deleteChip lib cid b).2.chipAt lib = Function.update (b.chipAt lib) cid none := by
  obtain ⟨hdb, hentries⟩ := h.deleteChip_spec cid
  have hat : (SledBackend.deleteChip lib cid b).2.chipAt lib =
      Function.update (b.chipAt lib) cid none := by
    funext cid'
    rw [chipAt, hdb, KeyTree.get_remove, Function.update_apply]
    split_ifs with hkey hne hne
    · rfl
    · exact absurd (utf8_injective hkey) hne
    · exact absurd (congrArg utf8 hne) hkey
    · rfl
  refine ⟨⟨fun key value hvalue => ?_, fun name rawKey hraw => ?_, ?_⟩, hat⟩
  · rw [hdb, KeyTree.get_remove] at hvalue
    split_ifs at hvalue with hkey
    exact h.readable key value hvalue
  · exact h.composed name rawKey ((hentries name rawKey).1 hraw)
  · refine h.covers.erase (i := cid) (fun cid' chip hchip => ?_) fun k cid' chip hchip hne hk => ?_
    · rw [hat, Function.update_apply] at hchip
      split_ifs at hchip with hcid
      exact ⟨hcid, hchip⟩
    · obtain ⟨-, -, -, -, hcid'⟩ := h.chipAt_eq_some hchip
      exact (hentries _ _).2 (fun hcid key heq => hne (cid_of_indexCompositeKey
        (not_mem_nul_of_isCid hcid') (not_mem_nul_of_isCid hcid) heq)) hk

/-- A rebuild enters every chip it reads. -/
theorem rebuildFrom_spec {values : List (List UInt8)}
    (h : ∀ value ∈ values, ∃ chip, lib.fromSlice value = .ok chip) (b : SledBackend) :
    (rebuildFrom lib values b).2.db = b.db ∧ ∀ name rawKey,
      ((rebuildFrom lib values b).2.index name).contains rawKey ↔
        (∃ value ∈ values, ∃ chip, lib.fromSlice value = .ok chip ∧
          ∃ key ∈ chip.keys name, rawKey = indexCompositeKey key chip.cid) ∨
          (b.index name).contains rawKey := by
  induction values generalizing b with
  | nil => exact ⟨rfl, fun name rawKey => by simp [rebuildFrom]⟩
  | cons value values ih =>
    obtain ⟨chip, hread⟩ := h value List.mem_cons_self
    obtain ⟨hdb, hentries⟩ := ih (fun value hvalue => h value (List.mem_cons_of_mem _ hvalue))
      (addChipToIndexes chip (insertReceipt chip b))
    have hstep : rebuildFrom lib (value :: values) b =
        rebuildFrom lib values (addChipToIndexes chip (insertReceipt chip b)) := by
      rw [rebuildFrom, parseChip, hread]
      rfl
    refine ⟨by rw [hstep, hdb]; rfl, fun name rawKey => ?_⟩
    have hindex : (insertReceipt chip b).index name = b.index name := by cases name <;> rfl
    have hchip : (∃ chip', lib.fromSlice value = .ok chip' ∧
        ∃ key ∈ chip'.keys name, rawKey = indexCompositeKey key chip'.cid) ↔
        ∃ key ∈ chip.keys name, rawKey = indexCompositeKey key chip.cid := by
      simp [hread]
    rw [hstep, hentries, contains_addChipToIndexes, hindex, List.exists_mem_cons_iff, hchip]
    exact or_left_comm.trans or_assoc.symm

theorem Inv.rebuildIndexes (h : Inv lib b) :
    Inv lib (rebuildIndexes lib b).2 ∧
      (rebuildIndexes lib b).2.chipAt lib = b.chipAt lib := by
  have hreads : ∀ value ∈ b.db.values, ∃ chip, lib.fromSlice value = .ok chip := by
    intro value hvalue
    obtain ⟨key, hkey⟩ := KeyTree.mem_values.mp hvalue
    obtain ⟨chip, hread, -, -⟩ := h.readable key value hkey
    exact ⟨chip, hread⟩
  obtain ⟨hdb, hentries⟩ := rebuildFrom_spec hreads { b with
    receiptIndex := .empty, typeIndex := .empty, tagIndex := .empty, executorIndex := .empty }
  have hat : (SledBackend.rebuildIndexes lib b).2.chipAt lib = b.chipAt lib := by
    funext cid
    rw [SledBackend.rebuildIndexes, chipAt, hdb, chipAt]
  refine ⟨⟨fun key data hdata => h.readable key data (hdb ▸ hdata), fun name rawKey hraw => ?_,
    fun cid chip hchip k hk => ?_⟩, hat⟩
  · rcases (hentries name rawKey).mp hraw with ⟨-, -, chip, -, key, -, rfl⟩ | hraw
    · exact ⟨key, chip.cid, rfl⟩
    · cases name <;> cases hraw
  · rw [hat] at hchip
    obtain ⟨data, hdata, hread, rfl, -⟩ := h.chipAt_eq_some hchip
    exact (hentries _ _).mpr
      (.inl ⟨data, KeyTree.mem_values.mpr ⟨_, hdata⟩, chip, hread, k.2, hk, rfl⟩)

variable (lib) in
def step (b : SledBackend) : StoreOp → SledBackend
  | .putChip chip => (putChip lib chip b).2
  | .deleteChip cid => (deleteChip lib cid b).2
  | .rebuildIndexes => (rebuildIndexes lib b).2

variable (lib) in
def run (ops : List StoreOp) : SledBackend := ops.foldl (step lib) empty

/-- What is held, read back. -/
theorem inv_run {ops : List StoreOp} (h : ∀ chip, .putChip chip ∈ ops → Storable lib chip) :
    Inv lib (run lib ops) ∧
      (run lib ops).chipAt lib = fun cid => (held ops cid).bind lib.restored := by
  suffices hrun : ∀ (b : SledBackend) (before : String → Option StoredChip), Inv lib b →
      (b.chipAt lib = fun cid => (before cid).bind lib.restored) →
      Inv lib (ops.foldl (step lib) b) ∧ (ops.foldl (step lib) b).chipAt lib =
        fun cid => (ops.foldl StoreOp.apply before cid).bind lib.restored from
    hrun empty _ inv_empty rfl
  induction ops with
  | nil => exact fun b before hb hat => ⟨hb, hat⟩
  | cons op ops ih =>
    intro b before hb hat
    refine ih (fun chip hchip => h chip (List.mem_cons_of_mem _ hchip)) _ (op.apply before) ?_ ?_
    · cases op with
      | putChip chip => exact (hb.putChip (h chip List.mem_cons_self)).1
      | deleteChip cid => exact (hb.deleteChip cid).1
      | rebuildIndexes => exact hb.rebuildIndexes.1
    · cases op with
      | putChip chip =>
        refine (hb.putChip (h chip List.mem_cons_self)).2.trans (funext fun cid => ?_)
        rw [StoreOp.apply, Function.update_apply, Function.update_apply, hat]
        split_ifs <;> rfl
      | deleteChip cid =>
        refine (hb.deleteChip cid).2.trans (funext fun cid' => ?_)
        rw [StoreOp.apply, Function.update_apply, Function.update_apply, hat]
        split_ifs <;> rfl
      | rebuildIndexes => exact hb.rebuildIndexes.2.trans hat

theorem Inv.parse_entry (h : Inv lib b) {e : List UInt8 × List UInt8} (he : e ∈ b.db.entries) :
    ∃ chip, parseChip lib e.2 = .ok chip ∧ e.1 = utf8 chip.cid ∧
      b.chipAt lib chip.cid = some chip := by
  have hget : b.db.get e.1 = some e.2 := KeyTree.mem_entries.mp he
  obtain ⟨chip, hread, -, hkey⟩ := h.readable e.1 e.2 hget
  refine ⟨chip, by rw [parseChip, hread]; rfl, hkey, ?_⟩
  rw [chipAt, ← hkey, hget, Option.bind_some, hread]
  rfl

/-- A scan reads what is stored, each chip once. -/
theorem Inv.scanAllChips_spec (h : Inv lib b) :
    ∃ stored, scanAllChips lib b = .ok stored ∧ (stored.map StoredChip.cid).Nodup ∧
      ∀ chip, chip ∈ stored ↔ b.chipAt lib chip.cid = some chip := by
  obtain ⟨stored, hscan, hall⟩ := exists_mapM_eq_ok fun e he => h.parse_entry (e := e) he
  have hkeys : AssocMap.keys b.db.entries = stored.map fun chip => utf8 chip.cid := by
    rw [← List.forall₂_eq_eq_eq, AssocMap.keys, List.forall₂_map_left_iff,
      List.forall₂_map_right_iff]
    exact hall.imp fun _ _ he => he.1
  have hat : ∀ chip ∈ stored, b.chipAt lib chip.cid = some chip :=
    ((List.forall₂_and_left stored b.db.entries).mp
      (hall.flip.imp fun _ _ he => ⟨he.2, trivial⟩ : List.Forall₂ (fun chip _ =>
        b.chipAt lib chip.cid = some chip ∧ True) stored b.db.entries)).1
  refine ⟨stored, ?_, ?_, fun chip => ⟨hat chip, fun hchip => ?_⟩⟩
  · rw [scanAllChips, KeyTree.values, List.mapM_map]
    exact hscan
  · have hdistinct : (stored.map fun chip => utf8 chip.cid).Nodup :=
      hkeys ▸ b.db.ascending.distinctKeys
    rw [← Function.comp_def, ← List.map_map] at hdistinct
    exact hdistinct.of_map
  · obtain ⟨data, hdata, -⟩ := h.chipAt_eq_some hchip
    have hkey : utf8 chip.cid ∈ AssocMap.keys b.db.entries :=
      AssocMap.mem_keys.mpr ⟨data, KeyTree.mem_entries.mpr hdata⟩
    obtain ⟨chip', hmem, hcid⟩ := List.mem_map.mp (hkeys ▸ hkey)
    have hchip' := hat chip' hmem
    rw [utf8_injective hcid, hchip] at hchip'
    exact Option.some.inj hchip' ▸ hmem

/-- A query cuts its page from the chips that match. -/
theorem Inv.queryChips_eq (h : Inv lib b) (query : ChipQuery) {stored : List StoredChip}
    (hscan : scanAllChips lib b = .ok stored) (hnodup : (stored.map StoredChip.cid).Nodup)
    (hstored : ∀ chip, chip ∈ stored ↔ b.chipAt lib chip.cid = some chip) : ∃ results,
    results.Perm (stored.filter (matchesQuery query)) ∧
      queryChips lib b query = .ok (applyPagination results query) := by
  obtain ⟨candidates, heq, hmem⟩ := candidateCids_spec
    (fun name => readsAll_readIndexSet (h.composed name)) query
  rw [queryChips, candidateCidsFromIndexes, heq]
  cases candidates with
  | none =>
    rw [bind_ok, hscan]
    exact ⟨_, .refl _, rfl⟩
  | some cids =>
    simp only [bind_ok, mapM_eq_ok fun cid _ => h.loadChipByCid_eq cid, List.filterMap_map,
      Function.id_comp]
    refine ⟨_, perm_of_candidates hnodup.of_map (cids.sort_nodup _) hstored
      (fun cid chip hchip => (h.chipAt_eq_some hchip).choose_spec.2.2.1)
      fun chip hchip hmatch => ?_, rfl⟩
    refine (Finset.mem_sort _).mpr (hmem cids rfl chip hmatch fun name key hkey => ?_)
    exact @h.covers chip.cid chip ((hstored chip).mp hchip) (name, key) hkey

theorem Inv.answers (h : Inv lib b) (query : ChipQuery) {stored : List StoredChip}
    (hscan : scanAllChips lib b = .ok stored) (hnodup : (stored.map StoredChip.cid).Nodup)
    (hstored : ∀ chip, chip ∈ stored ↔ b.chipAt lib chip.cid = some chip) :
    Answers stored query (queryChips lib b query) := by
  obtain ⟨results, hperm, hquery⟩ := h.queryChips_eq query hscan hnodup hstored
  rw [hquery]
  exact answers_of_perm hperm

end SledBackend

/-! ## Both backends -/

/-- After any operations the stored chips are those held, and a query answers as a scan of them. -/
theorem query_refines_scan (lib : SledLib) (ops : List StoreOp) (query : ChipQuery) :
    ((∀ chip, chip ∈ (InMemoryBackend.run ops).scanAll ↔ held ops chip.cid = some chip) ∧
      ((InMemoryBackend.run ops).scanAll.map StoredChip.cid).Nodup ∧
      Answers (InMemoryBackend.run ops).scanAll query ((InMemoryBackend.run ops).queryChips query)) ∧
    ((∀ chip, .putChip chip ∈ ops → Storable lib chip) →
      ∃ stored, SledBackend.scanAllChips lib (SledBackend.run lib ops) = .ok stored ∧
        (∀ chip, chip ∈ stored ↔ (held ops chip.cid).bind lib.restored = some chip) ∧
        (stored.map StoredChip.cid).Nodup ∧
        Answers stored query (SledBackend.queryChips lib (SledBackend.run lib ops) query)) := by
  constructor
  · obtain ⟨hinv, hheld⟩ := InMemoryBackend.inv_run ops
    exact ⟨fun chip => hheld ▸ hinv.mem_scanAll, hinv.nodup_scanAll, hinv.answers query⟩
  · intro hstorable
    obtain ⟨hinv, hheld⟩ := SledBackend.inv_run hstorable
    obtain ⟨stored, hscan, hnodup, hmem⟩ := hinv.scanAllChips_spec
    refine ⟨stored, hscan, fun chip => ?_, hnodup, hinv.answers query hscan hnodup hmem⟩
    rw [hmem, hheld]

def sampleStored : StoredChip where
  cid := "b3:0a"
  chipType := "ubl/document"
  chipData := .object []
  receiptCid := "b3:0b"
  createdAt := "2026-01-01T00:00:00+00:00"
  executionMetadata := ⟨"0.1.0", 5, 11, [], "did:key:z6Mk", true⟩
  tags := ["type:ubl/document"]
  relatedChips := []

/-- The same chip, executed again. -/
def sampleAgain : StoredChip :=
  { sampleStored with receiptCid := "b3:0e", createdAt := "2026-01-02T00:00:00+00:00" }

/-- A chip of the same time. -/
def sampleTwin : StoredChip := { sampleStored with cid := "b3:0c", receiptCid := "b3:0d" }

def sampleStoredText (chip : StoredChip) : String :=
  "\x7b\"cid\":\"" ++ chip.cid ++ "\",\"chip_type\":\"ubl/document\",\"chip_data\":\x7b\x7d," ++
    "\"receipt_cid\":\"" ++ chip.receiptCid ++ "\",\"created_at\":\"" ++ chip.createdAt ++ "\"," ++
    "\"execution_metadata\":\x7b\"runtime_version\":\"0.1.0\",\"execution_time_ms\":5," ++
    "\"fuel_consumed\":11,\"policies_applied\":[],\"executor_did\":\"did:key:z6Mk\"," ++
    "\"reproducible\":true\x7d,\"tags\":[\"type:ubl/document\"],\"related_chips\":[]\x7d"

/-- serde for the three chips. -/
def sampleSled : SledLib where
  toVec chip :=
    if chip.receiptCid ∈ ["b3:0b", "b3:0e", "b3:0d"] then .ok (utf8 (sampleStoredText chip))
    else .error "unknown chip"
  fromSlice value :=
    if value = utf8 (sampleStoredText sampleStored) then .ok sampleStored
    else if value = utf8 (sampleStoredText sampleAgain) then .ok sampleAgain
    else if value = utf8 (sampleStoredText sampleTwin) then .ok sampleTwin
    else .error "expected value"
  utf8Error _ := "invalid utf-8 sequence"

theorem sampleSled_reads {chip : StoredChip} (h : chip ∈ [sampleStored, sampleAgain, sampleTwin]) :
    isCid chip.cid = true ∧ sampleSled.toVec chip = .ok (utf8 (sampleStoredText chip)) ∧
      sampleSled.fromSlice (utf8 (sampleStoredText chip)) = .ok chip := by
  have hagain : utf8 (sampleStoredText sampleAgain) ≠ utf8 (sampleStoredText sampleStored) := by
    decide +kernel
  have htwin : utf8 (sampleStoredText sampleTwin) ≠ utf8 (sampleStoredText sampleStored) := by
    decide +kernel
  have htwin' : utf8 (sampleStoredText sampleTwin) ≠ utf8 (sampleStoredText sampleAgain) := by
    decide +kernel
  simp only [List.mem_cons, List.not_mem_nil, or_false] at h
  rcases h with rfl | rfl | rfl
  · refine ⟨by decide, ?_, ?_⟩ <;> simp only [sampleSled]
    · rw [if_pos (by decide)]
    · rw [if_pos trivial]
  · refine ⟨by decide, ?_, ?_⟩ <;> simp only [sampleSled]
    · rw [if_pos (by decide)]
    · rw [if_neg hagain, if_pos trivial]
  · refine ⟨by decide, ?_, ?_⟩ <;> simp only [sampleSled]
    · rw [if_pos (by decide)]
    · rw [if_neg htwin, if_neg htwin', if_pos trivial]

/-- A chip that is executed again and another one beside it. -/
theorem query_refines_scan_sample :
    let ops := [.putChip sampleStored, .putChip sampleTwin, .putChip sampleAgain, .rebuildIndexes]
    ∃ stored, SledBackend.scanAllChips sampleSled (SledBackend.run sampleSled ops) = .ok stored ∧
      (∀ chip, chip ∈ stored ↔ (held ops chip.cid).bind sampleSled.restored = some chip) ∧
      (stored.map StoredChip.cid).Nodup ∧
      Answers stored ⟨some "ubl/document", [], none, none, none, none, none⟩
        (SledBackend.queryChips sampleSled (SledBackend.run sampleSled ops)
          ⟨some "ubl/document", [], none, none, none, none, none⟩) := by
  intro ops
  refine (query_refines_scan sampleSled ops _).2 fun chip hchip => ?_
  have hput : chip ∈ [sampleStored, sampleAgain, sampleTwin] := by
    simp only [ops, List.mem_cons, StoreOp.putChip.injEq, reduceCtorEq, List.not_mem_nil, or_false]
      at hchip ⊢
    tauto
  obtain ⟨hcid, hwrite, hread⟩ := sampleSled_reads hput
  exact ⟨hcid, _, chip.chipData, hwrite, hread⟩

end Ubl.Chipstore
