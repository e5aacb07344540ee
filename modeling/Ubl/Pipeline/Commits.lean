import Ubl.Pipeline.Process

/-!
# Which receipts are committed

Whatever other requests do in between: as long as the current stage secret parses to a key of
`K` whenever a stage is signed, every receipt that a request commits is verified under `K`.
-/

namespace Ubl.Pipeline

open Ubl.Policy (Decision)
open Ubl.Receipt (Crypto Key UnifiedReceipt StageExecution keyFromSecretStr)
open Ubl.Receipt.UnifiedReceipt (Verified Encodes)

/-- The current secret parses to a key of `K`. -/
def SecretIn (c : Crypto) (K : Set Key) (s : PipelineState) : Prop :=
  ∃ k ∈ K, keyFromSecretStr c s.stageSecrets.current = .ok k

/-- Where a stage is signed, an append or a denial, the secret is one of `K`. -/
def SignsUnder (c : Crypto) (K : Set Key) (label : Action) (s : PipelineState) : Prop :=
  label = .appendStage ∨ label = .deny → SecretIn c K s

/-- The row holds a receipt that is verified under `K`. -/
def Attested (c : Crypto) (K : Set Key) (row : ReceiptRow Json) : Prop :=
  ∃ r : UnifiedReceipt, row.bodyJson = r.toJson ∧ row.receiptCid = r.receiptCid ∧
    Verified c r K ∧ r.stages ≠ []

/-- At most one row is added; it is attested, and its CID is new. -/
def CommitsAttested (c : Crypto) (K : Set Key) (s s' : PipelineState) : Prop :=
  s'.durable.receipts = s.durable.receipts ∨
    ∃ row, s'.durable.receipts = s.durable.receipts ++ [row] ∧ Attested c K row ∧
      ∀ old ∈ s.durable.receipts, old.receiptCid ≠ row.receiptCid

theorem CommitsAttested.of_eq {c : Crypto} {K : Set Key} {s s' : PipelineState}
    (h : s'.durable.receipts = s.durable.receipts) : CommitsAttested c K s s' :=
  .inl h

section

variable {rt : Runtime} {out : Outside} {K : Set Key}

/-- The program commits attested receipts only, if it signs its stages under `K`. -/
abbrev Attesting {α : Type} (rt : Runtime) (K : Set Key) (Q : α → Prop) (x : Process α) : Prop :=
  x.Promises (SignsUnder rt.crypto K) (CommitsAttested rt.crypto K) Q

/-- An act that leaves the receipts of the durable store alone. -/
theorem attesting_atomic {α : Type} {label : Action} {f : PipelineState → Except PipelineError α × PipelineState}
    (h : ∀ s, (f s).2.durable.receipts = s.durable.receipts) :
    Attesting rt K (fun _ => True) (Prog.atomic label f) :=
  Prog.promises_atomic fun s _ => ⟨.of_eq (h s), fun _ _ => trivial⟩

theorem attesting_modify {label : Action} {f : PipelineState → PipelineState}
    (h : ∀ s, (f s).durable.receipts = s.durable.receipts) :
    Attesting rt K (fun _ => True) (Prog.modify label f) :=
  attesting_atomic h

theorem attesting_reads {α : Type} {label : Action} {f : PipelineState → Except PipelineError α} :
    Attesting rt K (fun _ => True) (Prog.reads label f) :=
  Prog.promises_reads (fun _ => .of_eq rfl) fun _ _ _ _ => trivial

theorem attesting_ofExcept {α : Type} {x : Except PipelineError α} :
    Attesting rt K (fun _ => True) (Prog.ofExcept x) :=
  Prog.promises_ofExcept fun _ _ => trivial

/-! ## The receipt of a request -/

/-- The receipt is verified, and has a stage. -/
def Sealed (c : Crypto) (K : Set Key) (r : UnifiedReceipt) : Prop := Verified c r K ∧ r.stages ≠ []

theorem attesting_append {label : String} {stage : StageExecution} {receipt : UnifiedReceipt}
    (h : Verified rt.crypto receipt K) :
    Attesting rt K (Sealed rt.crypto K) (appendStageReceipt rt label stage receipt) := by
  refine Prog.promises_reads (fun _ => .of_eq rfl) fun s r hs hr => ?_
  obtain ⟨k, hk, hkey⟩ := hs (.inl rfl)
  split at hr
  · cases hr
  · rename_i happend
    obtain rfl := Except.ok.inj hr
    obtain ⟨hv, hstages, -⟩ := h.append hkey hk happend
    exact ⟨hv, hstages⟩

/-- A denied receipt is verified if it can be encoded at all. -/
def SealedIfEncoded (c : Crypto) (K : Set Key) (r : UnifiedReceipt) : Prop :=
  Encodes c r r.stages → Verified c r K

theorem attesting_deny (hlawful : rt.crypto.text.Lawful) {reason : String}
    {receipt : UnifiedReceipt} (hstages : receipt.stages ≠ []) :
    Attesting rt K (SealedIfEncoded rt.crypto K) (Prog.reads .deny fun s => .ok
      (receipt.denyWithSecrets rt.crypto reason (some s.stageSecrets.current))) := by
  refine Prog.promises_reads (fun _ => .of_eq rfl) fun s r hs hr => ?_
  obtain ⟨k, hk, hkey⟩ := hs (.inr rfl)
  obtain rfl := Except.ok.inj hr
  exact fun henc => (UnifiedReceipt.verified_deny hlawful hkey hk hstages henc).1

/-- The append after a denial fails on a receipt that cannot be encoded. -/
theorem attesting_append_denied {label : String} {stage : StageExecution}
    {receipt : UnifiedReceipt} (h : SealedIfEncoded rt.crypto K receipt) :
    Attesting rt K (Sealed rt.crypto K) (appendStageReceipt rt label stage receipt) := by
  refine Prog.promises_reads (fun _ => .of_eq rfl) fun s r hs hr => ?_
  obtain ⟨k, hk, hkey⟩ := hs (.inl rfl)
  split at hr
  · cases hr
  · rename_i happend
    obtain rfl := Except.ok.inj hr
    have henc := (UnifiedReceipt.append_eq_ok hkey happend).1
    obtain ⟨hv, hstages, -⟩ :=
      (h (henc.subset (List.subset_append_left _ _))).append hkey hk happend
    exact ⟨hv, hstages⟩

/-- The signature is not hashed. -/
theorem attesting_sign {label : String} {receipt : UnifiedReceipt}
    (h : Sealed rt.crypto K receipt) :
    Attesting rt K (Sealed rt.crypto K) (Prog.ofExcept (finalizeAndSign rt label receipt)) := by
  refine Prog.promises_ofExcept fun r hr => ?_
  unfold finalizeAndSign at hr
  split at hr
  · cases hr
  · obtain rfl := Except.ok.inj hr
    exact ⟨⟨h.1.encodes, h.1.chained, h.1.cid⟩, h.2⟩

theorem attesting_persistFinalResult {idemKey : Option IdempotencyKey} {world : String}
    {result : PipelineResult} (h : Sealed rt.crypto K result.receipt) :
    Attesting rt K (fun _ => True) (persistFinalResult rt out idemKey world result) := by
  unfold persistFinalResult
  split
  · refine Prog.promises_atomic fun s _ => ⟨?_, fun _ _ => trivial⟩
    rcases hcommit : s.durable.commitWfAtomically .values out.commitFault
      (commitInput rt out idemKey world result) with ⟨r, d⟩
    cases r with
    | error e =>
      have hd : d = s.durable := by
        have h := DurableStore.commitWfAtomically_error (congrArg Prod.fst hcommit)
        rwa [hcommit] at h
      subst hd
      cases e <;> exact .of_eq rfl
    | ok u =>
      have hrows := (DurableStore.commitTx_cases (DurableStore.commitWfAtomically_ok hcommit)).1
      rcases @DurableStore.insertReceipt_cases Json .values s.durable (commitInput rt out idemKey world result)
        with hsame | ⟨row, hcid, hjson, hnew, hold⟩
      · exact .inl (hrows.trans hsame)
      · exact .inr ⟨row, hrows.trans hnew, ⟨result.receipt, hjson, hcid, h.1, h.2⟩, hold⟩
  · cases idemKey with
    | none => trivial
    | some key => exact attesting_modify fun _ => rfl

/-! ## The other parts -/

theorem nonceMarkIfNew_receipts (d : DurableStore Json) (fault : Option DurableError) (now : Int64)
    (nonce : String) (ttl : UInt64) : (d.nonceMarkIfNew fault now nonce ttl).2.receipts = d.receipts := by
  unfold DurableStore.nonceMarkIfNew
  split <;> rfl

theorem attesting_markNonce : Attesting rt K (fun _ => True) (markNonce rt out) := by
  refine Prog.Promises.bind (attesting_atomic fun s => ?_) fun _ _ => ?_
  · split_ifs <;> rfl
  · split_ifs
    · refine attesting_atomic fun s => ?_
      have h := nonceMarkIfNew_receipts s.durable out.nonceFault out.nonceTime out.nonce 86400
      split <;> simp_all
    · trivial

theorem attesting_stageWriteAhead {request : ParsedChipRequest} :
    Attesting rt K (fun _ => True) (stageWriteAhead rt out request) := by
  refine Prog.Promises.bind (attesting_atomic fun s => ?_) fun _ _ => attesting_ofExcept
  split_ifs <;> rfl

theorem attesting_advise {site : StoreSite} {version : String}
    {advisory : AdvisoryEngine → Advisory} :
    Attesting rt K (fun _ => True) (advise rt out site version advisory) := by
  unfold advise
  split
  · refine attesting_modify fun s => ?_
    dsimp only
    split_ifs <;> rfl
  · trivial

theorem attesting_put {site : StoreSite} {data : Json} {receiptCid : String}
    {metadata : Chipstore.ExecutionMetadata} :
    Attesting rt K (fun _ => True) (put rt out site data receiptCid metadata) :=
  attesting_atomic fun _ => rfl

theorem attesting_storeArtifacts {i : Nat} {artifacts : List Artifact} :
    Attesting rt K (fun _ => True) (storeArtifacts rt out i artifacts) := by
  induction artifacts generalizing i with
  | nil => trivial
  | cons artifact artifacts ih =>
    refine Prog.Promises.bind (Q := fun _ => True) ?_ fun _ _ => ih
    refine Prog.Promises.bind attesting_ofExcept fun expected _ =>
      Prog.Promises.bind attesting_put fun stored _ => ?_
    cases stored with
    | error e => trivial
    | ok cid =>
      dsimp only
      split_ifs <;> trivial

theorem attesting_stageTransition {request : ParsedChipRequest} {check : CheckResult} :
    Attesting rt K (fun _ => True) (stageTransition rt out request check) :=
  Prog.Promises.bind attesting_reads fun _ _ =>
    Prog.Promises.bind attesting_storeArtifacts fun _ _ => attesting_ofExcept

theorem attesting_rotateKey {request : ParsedChipRequest} {check : CheckResult}
    {receiptCid : String} {stored : Except Chipstore.ChipStoreError String} :
    Attesting rt K (fun _ => True) (rotateKey rt out request check receiptCid stored) := by
  refine Prog.Promises.bind attesting_ofExcept fun rotationChipCid _ =>
    Prog.Promises.bind attesting_ofExcept fun req _ =>
    Prog.Promises.bind attesting_ofExcept fun material _ =>
    Prog.Promises.bind attesting_put fun mapped _ => ?_
  cases mapped with
  | error e => trivial
  | ok cid =>
    refine Prog.Promises.bind attesting_ofExcept fun newSk _ =>
      Prog.Promises.bind (attesting_atomic fun _ => rfl) fun prev _ => ?_
    split_ifs
    · refine attesting_atomic fun s => ?_
      unfold DurableStore.putStageSecrets
      cases out.secretsFault <;> rfl
    · trivial

theorem attesting_persistChip {request : ParsedChipRequest} {check : CheckResult}
    {receiptCid : String} :
    Attesting rt K (fun _ => True) (persistChip rt out request check receiptCid) := by
  unfold persistChip
  split_ifs
  · exact Prog.Promises.bind attesting_put fun stored _ => attesting_rotateKey
  · exact Prog.Promises.bind attesting_put fun stored _ => trivial
  · trivial
  · trivial

/-! ## Requests -/

section

variable (hlawful : rt.crypto.text.Lawful)

include hlawful

theorem attesting_finishDenied {request : ParsedChipRequest} {idemKey : IdempotencyKey}
    {wa : PipelineReceipt} {check : CheckResult} {receipt : UnifiedReceipt}
    (h : Sealed rt.crypto K receipt) :
    Attesting rt K (fun _ => True) (finishDenied rt out request idemKey wa check receipt) :=
  Prog.Promises.bind (attesting_deny hlawful h.2) fun _ hdenied =>
    Prog.Promises.bind attesting_ofExcept fun _ _ =>
    Prog.Promises.bind (attesting_append_denied hdenied) fun _ happended =>
    Prog.Promises.bind (attesting_sign happended) fun _ hsigned =>
    Prog.Promises.bind (attesting_persistFinalResult hsigned) fun _ _ => trivial

omit hlawful in
theorem attesting_finishAllowed {request : ParsedChipRequest} {idemKey : IdempotencyKey}
    {wa : PipelineReceipt} {check : CheckResult} {receipt : UnifiedReceipt}
    (h : Sealed rt.crypto K receipt) :
    Attesting rt K (fun _ => True) (finishAllowed rt out request idemKey wa check receipt) :=
  Prog.Promises.bind attesting_stageTransition fun _ _ =>
    Prog.Promises.bind (attesting_append h.1) fun _ htr =>
    Prog.Promises.bind attesting_ofExcept fun _ _ =>
    Prog.Promises.bind (attesting_append htr.1) fun _ hwf =>
    Prog.Promises.bind (attesting_sign hwf) fun _ hsigned =>
    Prog.Promises.bind attesting_persistChip fun _ _ =>
    Prog.Promises.bind attesting_advise fun _ _ =>
    Prog.Promises.bind (attesting_persistFinalResult hsigned) fun _ _ => trivial

theorem attesting_execute {ctx : AuthorshipContext} {request : ParsedChipRequest}
    {idemKey : IdempotencyKey} :
    Attesting rt K (fun _ => True) (execute rt out ctx request idemKey) := by
  refine Prog.Promises.bind attesting_markNonce fun _ _ =>
    Prog.Promises.bind attesting_stageWriteAhead fun wa _ =>
    Prog.Promises.bind (attesting_append (UnifiedReceipt.verified_of_no_stages rfl rfl))
      fun receipt hwa =>
    Prog.Promises.bind attesting_reads fun check _ =>
    Prog.Promises.bind (attesting_append hwa.1) fun receipt hcheck =>
    Prog.Promises.bind attesting_advise fun _ _ => ?_
  split_ifs
  · exact attesting_finishDenied hlawful hcheck
  · exact attesting_finishAllowed hcheck

theorem attesting_processChipWithContext {ctx : AuthorshipContext} {request : ChipRequest} :
    Attesting rt K (fun _ => True) (processChipWithContext rt out ctx request) := by
  refine Prog.Promises.bind attesting_ofExcept fun parsed _ =>
    Prog.Promises.bind attesting_ofExcept fun idemKey _ =>
    Prog.Promises.bind attesting_reads fun cached _ => ?_
  cases cached with
  | none => exact attesting_execute hlawful
  | some cached => trivial

theorem attesting_processKnockRejection {knockCid reasonCode reason anonymous : String}
    {hint : Option String} :
    Attesting rt K (fun _ => True)
      (processKnockRejection rt out knockCid reasonCode reason anonymous hint) := by
  refine Prog.Promises.bind (attesting_append (UnifiedReceipt.verified_of_no_stages rfl rfl))
    fun receipt hknock => ?_
  have hstages : (knockEffects reasonCode knockCid receipt).stages ≠ [] := hknock.2
  exact Prog.Promises.bind (attesting_deny hlawful hstages) fun _ hdenied =>
    Prog.Promises.bind (attesting_append_denied hdenied) fun _ happended =>
    Prog.Promises.bind (attesting_sign happended) fun _ hsigned =>
    Prog.Promises.bind (attesting_persistFinalResult hsigned) fun _ _ => trivial

end

end

end Ubl.Pipeline
