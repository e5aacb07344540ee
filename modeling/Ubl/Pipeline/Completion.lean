import Ubl.Pipeline.Process
import Ubl.Receipt.AuthChain

/-!
# What is left to do once a chip is stored

A request stores its chip before it is finished: a key rotation goes on to store the mapping and
the new secrets, and the result is committed last of all.  `Completes` says, of the request and
of what it gets from outside, that none of this fails.
-/

namespace Ubl.Pipeline

open Ubl.Chipstore
open Ubl.Nrf (Rho Printable)
open Ubl.Receipt (UnifiedReceipt StageExecution cidOf)

section

variable (rt : Runtime) (out : Outside) (request : ParsedChipRequest)

/-- The steps of a key rotation that follow its chip all succeed. -/
structure Rotates : Prop where
  mapping : ∃ req, KeyRotateRequest.parse request.body = .ok req ∧
    ∀ cid material, chipCid rt.crypto request.body = .ok cid →
      deriveMaterial rt.crypto rt.kms req request.body rt.signingSeed = .ok material →
      Rho rt.crypto.text (mappingChip rt.crypto out.mappingCreatedAt request.world cid ""
        req.reason material)
  mappingPut : out.putFault .mapping = none
  secretsPut : rt.hasDurableStore = true → out.secretsFault = none

/-- A request whose chip has been stored ends well. -/
structure Completes : Prop where
  commits : rt.hasDurableStore = true → out.commitFault = none
  rotates : request.chipType = "ubl/key.rotate" →
    (∀ e, out.putFault .body ≠ some (.afterInsert e)) ∧ Rotates rt out request

end

section

variable {rt : Runtime} {out : Outside} {request : ParsedChipRequest} {check : CheckResult}

/-! ## Key rotation -/

theorem mappingChip_distinct {c : Receipt.Crypto} {now world chip receipt : String}
    {reason : Option String} {material : KeyRotationMaterial} :
    (mappingChip c now world chip receipt reason material).DistinctKeys := by
  simp [mappingChip, Json.DistinctKeys, Json.everywhere_object, AssocMap.DistinctKeys]

theorem rho_object {t : Nrf.Text} {members : List (String × Json)} :
    Rho t (.object members) ↔ ∀ e ∈ members, t.Clean e.1 ∧ Rho t e.2 := by
  simp only [Rho, Json.everywhere_object]
  exact ⟨fun h e he => ⟨h.1 e he, h.2 e he⟩, fun h => ⟨fun e he => (h e he).1, fun e he => (h e he).2⟩⟩

theorem rho_string {t : Nrf.Text} {s : String} : Rho t (.string s) ↔ t.Clean s := by
  simp only [Rho, Json.everywhere_string]

theorem rho_mappingChip {c : Receipt.Crypto} (hlawful : c.text.Lawful)
    {now world chip receipt : String} (hprint : Printable receipt) {reason : Option String}
    {material : KeyRotationMaterial} :
    Rho c.text (mappingChip c now world chip receipt reason material) ↔
      Rho c.text (mappingChip c now world chip "" reason material) := by
  have hclean : c.text.Clean receipt := hprint.clean hlawful
  have hempty : c.text.Clean "" := Printable.clean hlawful (by simp [Printable])
  simp only [mappingChip, rho_object, List.forall_mem_cons, rho_string, hclean, hempty]

theorem chipCid_eq_ok_iff {c : Receipt.Crypto} {j : Json} (hj : j.DistinctKeys) :
    (∃ cid, chipCid c j = .ok cid) ↔ Rho c.text j := by
  unfold chipCid
  cases h : Nrf.toNrf1Bytes c.text j with
  | error e =>
    have hnot : ¬ Rho c.text j := fun hr => by
      have hok := (Nrf.toNrf1Bytes_eq_ok hj).mpr ⟨hr, rfl⟩
      rw [h] at hok
      cases hok
    simp [hnot]
  | ok nrf => simp [((Nrf.toNrf1Bytes_eq_ok hj).mp h).1]

/-- The two modules compute the same CIDs. -/
theorem cidOf_eq_chipCid {c : Receipt.Crypto} {j : Json} {cid : String}
    (h : chipCid c j = .ok cid) : cidOf c j = .ok cid := by
  cases hnrf : Nrf.toNrf1Bytes c.text j with
  | error e =>
    rw [chipCid, hnrf] at h
    cases h
  | ok nrf =>
    rw [chipCid, hnrf] at h
    rw [cidOf, hnrf]
    exact h

theorem storeExecutedChip_isOk_iff {lib : StoreLib} {now receiptCid : String}
    {fault : Option PutFault} {data : Json} {metadata : ExecutionMetadata} {store : ChipStore} :
    (∃ cid, (storeExecutedChip lib now fault data receiptCid metadata store).1 = .ok cid) ↔
      fault = none ∧ ∃ cid, chipCid lib.crypto data = .ok cid := by
  unfold storeExecutedChip
  cases hcid : chipCid lib.crypto data with
  | error e => simp
  | ok cid =>
    cases fault with
    | none => simp [putChip]
    | some fault => cases fault <;> simp [putChip]

/-- A put that fails before the index entries has stored nothing. -/
theorem storeExecutedChip_error {lib : StoreLib} {now receiptCid : String}
    {fault : Option PutFault} {data : Json} {metadata : ExecutionMetadata} {store chips : ChipStore}
    {e : ChipStoreError} (hwhole : ∀ e, fault ≠ some (.afterInsert e))
    (h : storeExecutedChip lib now fault data receiptCid metadata store = (.error e, chips)) :
    chips = store := by
  unfold storeExecutedChip at h
  split at h
  · exact (Prod.mk.inj h).2.symm
  · cases hfault : fault with
    | none =>
      rw [hfault] at h
      cases (Prod.mk.inj h).1
    | some fault =>
      rw [hfault] at h
      cases fault with
      | beforeInsert e => exact (Prod.mk.inj h).2.symm
      | afterInsert e => exact absurd hfault (hwhole e)

theorem run_put (site : StoreSite) (data : Json) (receiptCid : String)
    (metadata : ExecutionMetadata) (s : PipelineState) :
    (put rt out site data receiptCid metadata).run s =
      (.ok (storeExecutedChip rt.lib (out.storedAt site) (out.putFault site) data receiptCid
        metadata s.chips).1, { s with chips := (storeExecutedChip rt.lib (out.storedAt site)
          (out.putFault site) data receiptCid metadata s.chips).2 }) := by
  rw [put, Prog.run_atomic]

theorem run_putStageSecrets_ok {secrets : Receipt.StageSecrets} {s : PipelineState} :
    ((putStageSecrets out secrets).run s).1 = .ok () ↔ out.secretsFault = none := by
  rw [putStageSecrets, Prog.run_atomic]
  cases hfault : out.secretsFault with
  | none => simp [DurableStore.putStageSecrets]
  | some e => simp [DurableStore.putStageSecrets]

/-- A key rotation, from the point where its chip has been stored. -/
theorem run_rotateKey_ok (hlawful : rt.crypto.text.Lawful) {cid receiptCid : String}
    (hcid : chipCid rt.crypto request.body = .ok cid) (hprint : Printable receiptCid)
    {s : PipelineState} :
    ((rotateKey rt out request check receiptCid (.ok cid)).run s).1 = .ok () ↔
      Rotates rt out request := by
  obtain ⟨sk, hsk⟩ : ∃ sk, deriveNewSigningKey rt.crypto request.body rt.signingSeed = .ok sk := by
    rw [deriveNewSigningKey, cidOf_eq_chipCid hcid]
    exact ⟨_, rfl⟩
  cases hparse : KeyRotateRequest.parse request.body with
  | error e =>
    have hnot : ¬ Rotates rt out request := fun h => by
      obtain ⟨req, hreq, -⟩ := h.mapping
      rw [hparse] at hreq
      cases hreq
    simp [rotateKey, hparse, hnot]
  | ok req =>
    obtain ⟨material, hmaterial⟩ : ∃ material,
        deriveMaterial rt.crypto rt.kms req request.body rt.signingSeed = .ok material :=
      ⟨_, deriveMaterial_eq_ok.mpr ⟨_, hsk, rfl⟩⟩
    have hmapping : Rotates rt out request ↔
        (out.putFault .mapping = none ∧ ∃ mapCid, chipCid rt.crypto (mappingChip rt.crypto
          out.mappingCreatedAt request.world cid receiptCid req.reason material) = .ok mapCid) ∧
        (rt.hasDurableStore = true → out.secretsFault = none) := by
      rw [chipCid_eq_ok_iff mappingChip_distinct, rho_mappingChip hlawful hprint]
      constructor
      · rintro ⟨⟨req', hreq', hrho⟩, hput, hsecrets⟩
        obtain rfl := Except.ok.inj (hparse.symm.trans hreq')
        exact ⟨⟨hput, hrho cid material hcid hmaterial⟩, hsecrets⟩
      · rintro ⟨⟨hput, hrho⟩, hsecrets⟩
        refine ⟨⟨req, hparse, fun cid' material' hcid' hmaterial' => ?_⟩, hput, hsecrets⟩
        obtain rfl := Except.ok.inj (hcid.symm.trans hcid')
        obtain rfl := Except.ok.inj (hmaterial.symm.trans hmaterial')
        exact hrho
    rw [hmapping]
    simp only [rotateKey, Prog.ofExcept_ok, Prog.ret_bind, hparse, hmaterial, Except.mapError]
    rw [Prog.run_bind, run_put, Prog.continueWith_ok]
    generalize hmap : mappingChip rt.crypto out.mappingCreatedAt request.world cid receiptCid
      req.reason material = map
    have hput : (∃ mapCid, (storeExecutedChip rt.lib (out.storedAt .mapping)
        (out.putFault .mapping) map receiptCid (executionMetadata rt out "key_rotation/0.1" check)
        s.chips).1 = .ok mapCid) ↔
          out.putFault .mapping = none ∧ ∃ mapCid, chipCid rt.crypto map = .ok mapCid :=
      storeExecutedChip_isOk_iff
    rw [← hput]
    split
    · rename_i e he
      rw [he]
      simp
    · rename_i mapCid hmapCid
      rw [hmapCid]
      simp only [hsk, Prog.ofExcept_ok, Prog.ret_bind]
      rw [Prog.run_bind, rotateStageSecrets, Prog.run_atomic, Prog.continueWith_ok]
      split_ifs with hdurable
      · rw [run_putStageSecrets_ok]
        simp [hdurable]
      · simp [hdurable]

end

end Ubl.Pipeline
