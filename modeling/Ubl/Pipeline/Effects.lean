import Ubl.Pipeline.Process

/-!
# What the acts of a request do

An act of a request does what its label says and nothing else: most only look, one marks nonces,
one stores a chip of its site, and so on (`Effect`).  Every invariant of a run is read off this.
-/

namespace Ubl.Pipeline

open Ubl.Chipstore
open Ubl.Receipt (StageSecrets UnifiedReceipt StageExecution)

section

variable (rt : Runtime) (out : Outside) (request : ParsedChipRequest)

/-- The data that is stored at a site. -/
def SiteData : StoreSite → Json → Prop
  | .body, data => data = request.body
  | .mapping, data => bodyStr data "@type" = some "ubl/key.map" ∧
    request.chipType = "ubl/key.rotate"
  | .artifact _, data => ∃ store check transition artifact,
    rt.stageTransition store request check = .ok transition ∧ artifact ∈ transition.artifacts ∧
    data = artifact.payload
  | .postCheck, data => bodyStr data "@type" = some "ubl/advisory"
  | .postWf, data => bodyStr data "@type" = some "ubl/advisory"

/-- At most one chip comes to the store. -/
def Grows (site : StoreSite) (before after : ChipStore) : Prop :=
  after = before ∨ ∃ cid data receiptCid metadata indexed, SiteData rt request site data ∧
    after = ⟨storedChip rt.lib (out.storedAt site) cid data receiptCid metadata, indexed⟩ :: before

/-- The kinds of acts that change nothing. -/
def Action.Looks : Action → Prop
  | .lookup | .appendStage | .deny | .check | .transition => True
  | _ => False

inductive Effect : Action → PipelineState → PipelineState → Prop
  | looks {label : Action} (s : PipelineState) (h : label.Looks) : Effect label s s
  | marksNonce (s : PipelineState) (seen : List String) (rows : List NonceRow) :
      Effect .markNonce s
        { s with seenNonces := seen, durable := { s.durable with seenNonces := rows } }
  | stores (site : StoreSite) (s : PipelineState) (chips : ChipStore) (counter : Nat)
      (h : Grows rt out request site s.chips chips) :
      Effect (.put site) s { s with chips := chips, advisoryCounter := counter }
  | rotates (s : PipelineState) (secrets : StageSecrets) :
      Effect .rotate s { s with stageSecrets := secrets }
  | putsSecrets (s : PipelineState) (row : Option StageSecrets) :
      Effect .putSecrets s { s with durable := { s.durable with stageSecrets := row } }
  | commits (s : PipelineState) (memory : List (IdempotencyKey × CachedResult)) (d : DurableStore Json)
      (h : d.stageSecrets = s.durable.stageSecrets) :
      Effect .commit s { s with idempotency := memory, durable := d }

/-- An act other than the two that count for replays. -/
def SideEffect (label : Action) (s s' : PipelineState) : Prop :=
  Effect rt out request label s s' ∧ label ≠ .put .body ∧ label ≠ .commit

/-- An act that leaves the secrets alone as well. -/
def StillEffect (label : Action) (s s' : PipelineState) : Prop :=
  SideEffect rt out request label s s' ∧ label ≠ .rotate ∧ label ≠ .putSecrets

end

section

variable {rt : Runtime} {out : Outside} {request : ParsedChipRequest}

theorem grows_storeExecutedChip {site : StoreSite} {data : Json} (h : SiteData rt request site data)
    {receiptCid : String} {metadata : ExecutionMetadata} {store : ChipStore} :
    Grows rt out request site store (storeExecutedChip rt.lib (out.storedAt site)
      (out.putFault site) data receiptCid metadata store).2 := by
  refine storeExecutedChip_cases.imp id ?_
  rintro ⟨cid, indexed, -, heq⟩
  exact ⟨cid, data, receiptCid, metadata, indexed, h, heq⟩

/-! ## Part by part -/

theorem acts_put {site : StoreSite} {data : Json} (h : SiteData rt request site data)
    {receiptCid : String} {metadata : ExecutionMetadata} :
    (put rt out site data receiptCid metadata).Acts (fun label s s' =>
      Effect rt out request label s s' ∧ label = .put site) :=
  Prog.acts_atomic fun s => ⟨.stores site s _ s.advisoryCounter (grows_storeExecutedChip h), rfl⟩

theorem acts_put_aside {site : StoreSite} {data : Json} (h : SiteData rt request site data)
    (hsite : site ≠ .body) {receiptCid : String} {metadata : ExecutionMetadata} :
    (put rt out site data receiptCid metadata).Acts (StillEffect rt out request) :=
  (acts_put h).mono fun label s s' hl =>
    ⟨⟨hl.1, by simpa [hl.2] using hsite, by simp [hl.2]⟩, by simp [hl.2], by simp [hl.2]⟩

theorem acts_reads {α : Type} {label : Action} (hlabel : label.Looks)
    {f : PipelineState → Except PipelineError α} :
    (Prog.reads label f).Acts (StillEffect rt out request) :=
  Prog.acts_atomic fun s => ⟨⟨.looks s hlabel, by rintro rfl; exact hlabel,
    by rintro rfl; exact hlabel⟩, by rintro rfl; exact hlabel, by rintro rfl; exact hlabel⟩

theorem acts_lookup {key : IdempotencyKey} :
    (lookup rt out key).Acts (StillEffect rt out request) :=
  acts_reads (show Action.Looks .lookup from trivial)

theorem acts_stageCheck : (stageCheck rt out request).Acts (StillEffect rt out request) :=
  acts_reads (show Action.Looks .check from trivial)

theorem nonceMarkIfNew_eq (d : DurableStore Json) (fault : Option DurableError) (now : Int64)
    (nonce : String) (ttl : UInt64) :
    ∃ rows, (d.nonceMarkIfNew fault now nonce ttl).2 = { d with seenNonces := rows } := by
  unfold DurableStore.nonceMarkIfNew
  split
  · exact ⟨d.seenNonces, rfl⟩
  · exact ⟨_, rfl⟩

theorem acts_markInMemory {α : Type} {f : PipelineState → Except PipelineError α × PipelineState}
    (h : ∀ s, ∃ seen, (f s).2 = { s with seenNonces := seen }) :
    (Prog.atomic .markNonce f).Acts (StillEffect rt out request) := by
  refine Prog.acts_atomic fun s => ⟨⟨?_, by simp, by simp⟩, by simp, by simp⟩
  obtain ⟨seen, hseen⟩ := h s
  rw [hseen]
  exact .marksNonce s seen s.durable.seenNonces

theorem acts_markNonce : (markNonce rt out).Acts (StillEffect rt out request) := by
  refine Prog.Acts.bind (acts_markInMemory fun s => ?_) fun _ => ?_
  · split_ifs
    · exact ⟨s.seenNonces, rfl⟩
    · exact ⟨_, rfl⟩
  · split_ifs
    · refine Prog.acts_atomic fun s => ⟨⟨?_, by simp, by simp⟩, by simp, by simp⟩
      obtain ⟨rows, hrows⟩ :=
        nonceMarkIfNew_eq s.durable out.nonceFault out.nonceTime out.nonce 86400
      have hmarks : Effect rt out request .markNonce s
          { s with durable := { s.durable with seenNonces := rows } } :=
        .marksNonce s s.seenNonces rows
      split <;> simp_all
    · trivial

theorem acts_stageWriteAhead : (stageWriteAhead rt out request).Acts (StillEffect rt out request) := by
  refine Prog.Acts.bind (acts_markInMemory fun s => ?_) fun _ => Prog.acts_ofExcept
  split_ifs
  · exact ⟨s.seenNonces, rfl⟩
  · exact ⟨_, rfl⟩

theorem acts_appendStageReceipt {label : String} {stage : StageExecution}
    {receipt : UnifiedReceipt} :
    (appendStageReceipt rt label stage receipt).Acts (StillEffect rt out request) :=
  acts_reads (show Action.Looks .appendStage from trivial)

theorem acts_advise {site : StoreSite} (hsite : site = .postCheck ∨ site = .postWf)
    {version : String} {advisory : AdvisoryEngine → Advisory} :
    (advise rt out site version advisory).Acts (StillEffect rt out request) := by
  unfold advise
  split
  · rename_i engine _ _
    refine Prog.acts_atomic fun s => ⟨⟨?_, by rcases hsite with rfl | rfl <;> simp, by simp⟩,
      by simp, by simp⟩
    have hdata : SiteData rt request site
        ((advisory engine).toChipBody (nextId s.advisoryCounter) engine.world) := by
      rcases hsite with rfl | rfl <;> exact Advisory.toChipBody_type _ _ _
    dsimp only
    split_ifs
    · exact .stores site s _ _ (grows_storeExecutedChip hdata)
    · exact .stores site s _ _ (.inl rfl)
  · trivial

theorem acts_storeArtifacts {artifacts : List Artifact} {i : Nat}
    (h : ∀ i artifact, artifact ∈ artifacts → SiteData rt request (.artifact i) artifact.payload) :
    (storeArtifacts rt out i artifacts).Acts (StillEffect rt out request) := by
  induction artifacts generalizing i with
  | nil => trivial
  | cons artifact artifacts ih =>
    refine Prog.Acts.bind ?_ fun _ => ih fun i a ha => h i a (List.mem_cons_of_mem _ ha)
    refine Prog.Acts.bind Prog.acts_ofExcept fun expected =>
      Prog.Acts.bind (acts_put_aside (h i artifact List.mem_cons_self) (by simp)) fun stored => ?_
    cases stored with
    | error e => trivial
    | ok cid =>
      dsimp only
      split_ifs <;> trivial

theorem acts_stageTransition {check : CheckResult} :
    (stageTransition rt out request check).Acts (StillEffect rt out request) := by
  refine Prog.acts_reads_bind (fun s => ⟨⟨.looks s trivial, by simp, by simp⟩, by simp, by simp⟩) fun s transition h => ?_
  have hok : rt.stageTransition (chipStore rt s) request check = .ok transition := by
    split at h
    · cases h
    · exact h
  exact Prog.Acts.bind (acts_storeArtifacts fun i artifact hmem =>
    ⟨_, check, transition, artifact, hok, hmem, rfl⟩) fun _ => Prog.acts_ofExcept

theorem acts_rotateKey (hrotate : request.chipType = "ubl/key.rotate") {check : CheckResult}
    {receiptCid : String} {stored : Except ChipStoreError String} :
    (rotateKey rt out request check receiptCid stored).Acts (SideEffect rt out request) := by
  refine Prog.Acts.bind Prog.acts_ofExcept fun rotationChipCid =>
    Prog.Acts.bind Prog.acts_ofExcept fun req =>
    Prog.Acts.bind Prog.acts_ofExcept fun material =>
    Prog.Acts.bind ((acts_put_aside (show SiteData rt request .mapping _ from ⟨rfl, hrotate⟩)
      (by simp)).mono fun _ _ _ h => h.1) fun mapped => ?_
  cases mapped with
  | error e => trivial
  | ok cid =>
    refine Prog.Acts.bind Prog.acts_ofExcept fun newSk =>
      Prog.Acts.bind (Prog.acts_atomic fun s => ⟨.rotates s _, by simp, by simp⟩) fun prev => ?_
    split_ifs
    · refine Prog.acts_atomic fun s => ⟨?_, by simp, by simp⟩
      unfold DurableStore.putStageSecrets
      cases out.secretsFault with
      | none => exact .putsSecrets s _
      | some e => exact .putsSecrets s s.durable.stageSecrets
    · trivial

theorem acts_persistFinalResult {idemKey : Option IdempotencyKey} {world : String}
    {result : PipelineResult} :
    (persistFinalResult rt out idemKey world result).Acts (fun label s s' =>
      Effect rt out request label s s' ∧ label = .commit) := by
  unfold persistFinalResult
  split
  · refine Prog.acts_atomic fun s => ⟨?_, rfl⟩
    rcases hcommit : s.durable.commitWfAtomically .values out.commitFault
      (commitInput rt out idemKey world result) with ⟨r, d⟩
    have hsecrets : d.stageSecrets = s.durable.stageSecrets := by
      cases r with
      | error e =>
        have h := DurableStore.commitWfAtomically_error (congrArg Prod.fst hcommit)
        rw [hcommit] at h
        exact congrArg DurableStore.stageSecrets h
      | ok u =>
        exact (DurableStore.commitTx_cases (DurableStore.commitWfAtomically_ok hcommit)).2.1
    have heffect : Effect rt out request .commit s { s with durable := d } :=
      .commits s s.idempotency d hsecrets
    split <;> simp_all
  · cases idemKey with
    | none => trivial
    | some key => exact Prog.acts_atomic fun s => ⟨.commits s _ s.durable rfl, rfl⟩

theorem acts_persistChip {check : CheckResult} {receiptCid : String} :
    (persistChip rt out request check receiptCid).Acts (fun label s s' =>
      Effect rt out request label s s' ∧ label ≠ .commit) := by
  have hput {metadata : ExecutionMetadata} :
      (put rt out .body request.body receiptCid metadata).Acts (fun label s s' =>
        Effect rt out request label s s' ∧ label ≠ .commit) :=
    (acts_put (show SiteData rt request .body request.body from rfl)).mono fun label _ _ h =>
      ⟨h.1, by rw [h.2]; exact nofun⟩
  unfold persistChip
  split_ifs with hstore hrotate hrotate'
  · exact Prog.Acts.bind hput fun stored =>
      (acts_rotateKey hrotate).mono fun _ _ _ h => ⟨h.1, h.2.2⟩
  · exact Prog.Acts.bind hput fun stored => trivial
  · trivial
  · trivial

/-! ## A whole request -/

theorem StillEffect.effect {label : Action} {s s' : PipelineState}
    (h : StillEffect rt out request label s s') : Effect rt out request label s s' := h.1.1

theorem acts_of_still {α : Type} {x : Process α} (h : x.Acts (StillEffect rt out request)) :
    x.Acts (Effect rt out request) :=
  h.mono fun _ _ _ hl => hl.effect

theorem acts_finishDenied {idemKey : IdempotencyKey} {wa : PipelineReceipt} {check : CheckResult}
    {receipt : UnifiedReceipt} :
    (finishDenied rt out request idemKey wa check receipt).Acts (Effect rt out request) :=
  Prog.Acts.bind (acts_of_still (acts_reads (show Action.Looks .deny from trivial))) fun _ =>
    Prog.Acts.bind Prog.acts_ofExcept fun _ =>
    Prog.Acts.bind (acts_of_still acts_appendStageReceipt) fun _ =>
    Prog.Acts.bind Prog.acts_ofExcept fun _ =>
    Prog.Acts.bind (acts_persistFinalResult.mono fun _ _ _ h => h.1) fun _ => trivial

theorem acts_finishAllowed {idemKey : IdempotencyKey} {wa : PipelineReceipt} {check : CheckResult}
    {receipt : UnifiedReceipt} :
    (finishAllowed rt out request idemKey wa check receipt).Acts (Effect rt out request) :=
  Prog.Acts.bind (acts_of_still acts_stageTransition) fun _ =>
    Prog.Acts.bind (acts_of_still acts_appendStageReceipt) fun _ =>
    Prog.Acts.bind Prog.acts_ofExcept fun _ =>
    Prog.Acts.bind (acts_of_still acts_appendStageReceipt) fun _ =>
    Prog.Acts.bind Prog.acts_ofExcept fun _ =>
    Prog.Acts.bind (acts_persistChip.mono fun _ _ _ h => h.1) fun _ =>
    Prog.Acts.bind (acts_of_still (acts_advise (.inr rfl))) fun _ =>
    Prog.Acts.bind (acts_persistFinalResult.mono fun _ _ _ h => h.1) fun _ => trivial

theorem acts_execute {ctx : AuthorshipContext} {idemKey : IdempotencyKey} :
    (execute rt out ctx request idemKey).Acts (Effect rt out request) := by
  refine Prog.Acts.bind (acts_of_still acts_markNonce) fun _ =>
    Prog.Acts.bind (acts_of_still acts_stageWriteAhead) fun wa =>
    Prog.Acts.bind (acts_of_still acts_appendStageReceipt) fun receipt =>
    Prog.Acts.bind (acts_of_still acts_stageCheck) fun check =>
    Prog.Acts.bind (acts_of_still acts_appendStageReceipt) fun receipt =>
    Prog.Acts.bind (acts_of_still (acts_advise (.inl rfl))) fun _ => ?_
  split_ifs
  · exact acts_finishDenied
  · exact acts_finishAllowed

/-- Every act of a request is an effect of its label. -/
theorem acts_processChipWithContext {ctx : AuthorshipContext} {chip : ChipRequest}
    (hparse : ParsedChipRequest.parse rt.crypto.text chip = .ok request) :
    (processChipWithContext rt out ctx chip).Acts (Effect rt out request) := by
  rw [processChipWithContext, hparse, Prog.ofExcept_ok, Prog.ret_bind]
  refine Prog.Acts.bind Prog.acts_ofExcept fun idemKey =>
    Prog.Acts.bind (acts_of_still acts_lookup)
      fun cached => ?_
  cases cached with
  | none => exact acts_execute
  | some cached => trivial

end

end Ubl.Pipeline
