import Ubl.Chipstore.Refinement

/-!
# The receipt index of the in-memory backend

`receipt_index` leads from a receipt to one CID.  `put_chip` enters the new receipt and leaves the
one the chip had before; `delete_chip` takes the entry of the receipt out, also where another chip
with that receipt is stored; `rebuild_indexes` does not touch it.

In every run, the look-ups are exact in all states reached just when no step does either:

    (∀ before <+: ops, (run before).ReceiptsExact) ↔
      ∀ before op, before ++ [op] <+: ops → (run before).KeepsReceipts op   (receipts_exact_iff)
-/

namespace Ubl.Chipstore.InMemoryBackend

open SecondaryIndex

/-- A receipt finds a chip just when a stored chip has it, and the chip found has it. -/
def ReceiptsExact (b : InMemoryBackend) : Prop :=
  ∀ receiptCid,
    ((b.getChipByReceiptCid receiptCid).isSome ↔
      ∃ cid chip, b.chips.get cid = some chip ∧ chip.receiptCid = receiptCid) ∧
    ∀ chip, b.getChipByReceiptCid receiptCid = some chip → chip.receiptCid = receiptCid

/-- A chip that is put over one with another receipt is no longer what that receipt leads to; a chip
that is deleted is the only one with its receipt. -/
def KeepsReceipts (b : InMemoryBackend) : StoreOp → Prop
  | .putChip chip => ∀ old, b.chips.get chip.cid = some old → old.receiptCid ≠ chip.receiptCid →
      b.receiptIndex.get old.receiptCid ≠ some chip.cid
  | .deleteChip cid => ∀ chip, b.chips.get cid = some chip →
      ∀ cid' other, b.chips.get cid' = some other → cid' ≠ cid → other.receiptCid ≠ chip.receiptCid
  | .rebuildIndexes => True

variable {b : InMemoryBackend}

abbrev ReceiptsInv (b : InMemoryBackend) : Prop :=
  Inverts b.chips.get StoredChip.receiptCid b.receiptIndex.get

theorem receiptsExact_iff :
    b.ReceiptsExact ↔ Exact b.chips.get StoredChip.receiptCid b.receiptIndex.get := by
  have hfind (receiptCid : String) : b.getChipByReceiptCid receiptCid =
      lookUp b.chips.get b.receiptIndex.get receiptCid := by
    unfold getChipByReceiptCid lookUp
    cases b.receiptIndex.get receiptCid <;> rfl
  unfold ReceiptsExact Exact
  simp only [hfind]

/-! ## What the operations do to the two maps -/

theorem chips_putChip (chip : StoredChip) (b : InMemoryBackend) :
    (putChip chip b).chips.get = Function.update b.chips.get chip.cid (some chip) :=
  funext fun _ => (KeyTree.get_insert ..).trans (Function.update_apply ..).symm

theorem receiptIndex_putChip (chip : StoredChip) (b : InMemoryBackend) :
    (putChip chip b).receiptIndex.get =
      Function.update b.receiptIndex.get chip.receiptCid (some chip.cid) :=
  funext fun _ => (KeyTree.get_insert ..).trans (Function.update_apply ..).symm

theorem chips_deleteChip_eq (cid : String) (b : InMemoryBackend) :
    (deleteChip cid b).chips.get = Function.update b.chips.get cid none :=
  funext fun _ => (chips_deleteChip ..).trans (Function.update_apply ..).symm

theorem deleteChip_of_none {cid : String} (h : b.chips.get cid = none) : deleteChip cid b = b := by
  rw [deleteChip, h]

theorem receiptIndex_deleteChip {cid : String} {chip : StoredChip}
    (h : b.chips.get cid = some chip) :
    (deleteChip cid b).receiptIndex.get =
      Function.update b.receiptIndex.get chip.receiptCid none := by
  funext receiptCid
  rw [deleteChip, h, Function.update_apply]
  exact KeyTree.get_remove ..

theorem receiptIndex_rebuildIndexes (b : InMemoryBackend) :
    b.rebuildIndexes.receiptIndex = b.receiptIndex := by
  unfold rebuildIndexes
  suffices h : ∀ (chips : List StoredChip) (b' : InMemoryBackend),
      (chips.foldl (fun b chip => indexChip chip b) b').receiptIndex = b'.receiptIndex from h _ _
  intro chips
  induction chips with
  | nil => exact fun _ => rfl
  | cons chip chips ih => exact fun b' => ih _

/-! ## Steps and runs -/

theorem ReceiptsInv.step (h : b.ReceiptsInv) {op : StoreOp} (hop : b.KeepsReceipts op) :
    (b.step op).ReceiptsInv := by
  cases op with
  | putChip chip =>
    rw [InMemoryBackend.step, ReceiptsInv, chips_putChip, receiptIndex_putChip]
    exact h.put hop
  | deleteChip cid =>
    rcases hcid : b.chips.get cid with _ | chip
    · rwa [InMemoryBackend.step, deleteChip_of_none hcid]
    · rw [InMemoryBackend.step, ReceiptsInv, chips_deleteChip_eq, receiptIndex_deleteChip hcid]
      exact h.erase hcid (hop chip hcid)
  | rebuildIndexes =>
    rwa [InMemoryBackend.step, ReceiptsInv, chips_rebuildIndexes, receiptIndex_rebuildIndexes]

/-- A step that does not keep to it ends in a state whose look-ups are not exact. -/
theorem ReceiptsInv.keepsReceipts (h : b.ReceiptsInv) {op : StoreOp}
    (hexact : (b.step op).ReceiptsExact) : b.KeepsReceipts op := by
  rw [receiptsExact_iff] at hexact
  cases op with
  | putChip chip =>
    rw [InMemoryBackend.step, chips_putChip, receiptIndex_putChip] at hexact
    exact (exact_put_iff h).mp hexact
  | deleteChip cid =>
    intro chip hcid
    rw [InMemoryBackend.step, chips_deleteChip_eq, receiptIndex_deleteChip hcid] at hexact
    exact (exact_erase_iff h hcid).mp hexact
  | rebuildIndexes => trivial

theorem run_concat (before : List StoreOp) (op : StoreOp) :
    run (before ++ [op]) = (run before).step op := by
  rw [run, run, List.foldl_append, List.foldl_cons, List.foldl_nil]

theorem receiptsInv_run {ops : List StoreOp}
    (h : ∀ before op, before ++ [op] <+: ops → (run before).KeepsReceipts op) :
    (run ops).ReceiptsInv := by
  induction ops using List.reverseRecOn with
  | nil => exact inverts_empty
  | append_singleton ops op ih =>
    rw [run_concat]
    exact (ih fun before op' hpre => h before op' (hpre.trans (List.prefix_append ..))).step
      (h ops op List.prefix_rfl)

/-- The look-ups by receipt are exact in every state of a run just when every step keeps to it. -/
theorem receipts_exact_iff (ops : List StoreOp) :
    (∀ before, before <+: ops → (run before).ReceiptsExact) ↔
      ∀ before op, before ++ [op] <+: ops → (run before).KeepsReceipts op := by
  constructor
  · intro h
    induction ops using List.reverseRecOn with
    | nil => exact fun before op hpre => absurd (List.prefix_nil.mp hpre) (by simp)
    | append_singleton ops op ih =>
      have hbefore := ih fun before hpre => h before (hpre.trans (List.prefix_append ..))
      intro before op' hpre
      rcases List.prefix_concat_iff.mp hpre with heq | hpre
      · obtain ⟨rfl, hop⟩ := List.append_inj' heq rfl
        obtain rfl := List.singleton_injective hop
        refine (receiptsInv_run hbefore).keepsReceipts ?_
        rw [← run_concat]
        exact h _ List.prefix_rfl
      · exact hbefore before op' hpre
  · intro h before hpre
    exact receiptsExact_iff.mpr
      (receiptsInv_run fun before' op hpre' => h before' op (hpre'.trans hpre)).exact

/-- A chip is executed again: the receipt it had finds it under its new one. -/
theorem receipts_not_exact :
    ¬∀ ops : List StoreOp, (run ops).ReceiptsExact := by
  intro h
  have hold := (h [.putChip sampleStored, .putChip { sampleStored with receiptCid := "b3:0c" }]
    "b3:0b").2 { sampleStored with receiptCid := "b3:0c" } (by with_unfolding_all rfl)
  exact absurd hold (by decide)

end Ubl.Chipstore.InMemoryBackend
