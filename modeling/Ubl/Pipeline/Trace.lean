import Ubl.Pipeline.Replay

/-!
# What a failed request leaves behind

A request writes before it is sure to succeed: its advisories, the artifacts of TR, its chip, the
mapping of a rotated key and the new secrets all precede the commit.  A request that fails leaves
no trace exactly if none of its failures comes after a put (`failsWithoutTrace_iff`); the secrets
change only after one.  `NoLateFault` says of the faults and the request that it is so
(`failsWithoutTrace_of_noLateFault`).
-/

namespace Ubl.Pipeline

open Ubl.Chipstore
open Ubl.Receipt (UnifiedReceipt)

/-- Nothing that can be read of the chip store and of the secrets has changed. -/
structure Traceless (before after : PipelineState) : Prop where
  getChip : ∀ cid, after.chips.getChip cid = before.chips.getChip cid
  getChipByReceiptCid : ∀ cid,
    after.chips.getChipByReceiptCid cid = before.chips.getChipByReceiptCid cid
  query : ∀ q, after.chips.query q = before.chips.query q
  stageSecrets : after.stageSecrets = before.stageSecrets
  durableSecrets : after.durable.stageSecrets = before.durable.stageSecrets

section

variable (rt : Runtime) (out : Outside) (ctx : AuthorshipContext) (request : ChipRequest)

/-- Where the call fails it leaves no trace. -/
def FailsWithoutTrace (s : PipelineState) : Prop :=
  ∀ e, ((processChipWithContext rt out ctx request).run s).1 = .error e →
    Traceless s ((processChipWithContext rt out ctx request).run s).2

/-- A chip has been put into the store. -/
def Stored (s s' : PipelineState) : Prop := s.chips.length < s'.chips.length

/-- No step of the call fails once a chip has been put into the store. -/
def StoresLast (s : PipelineState) : Prop :=
  (processChipWithContext rt out ctx request).SafeAfter Stored s

end

section

variable {rt : Runtime} {out : Outside} {request : ParsedChipRequest} {check : CheckResult}
  {s₀ s t : PipelineState}

/-! ## The secrets change only after a put -/

/-- A chip has been put into the store, or nothing has changed. -/
def PutFirst (s₀ s : PipelineState) : Prop :=
  s₀.chips.length < s.chips.length ∨ s.chips = s₀.chips ∧ s.stageSecrets = s₀.stageSecrets ∧
    s.durable.stageSecrets = s₀.durable.stageSecrets

theorem Grows.length {site : StoreSite} {before after : ChipStore}
    (h : Grows rt out request site before after) :
    after = before ∨ before.length < after.length := by
  rcases h with h | ⟨_, _, _, _, _, -, rfl⟩
  · exact .inl h
  · exact .inr (Nat.lt_succ_self _)

theorem Effect.length_le {label : Action} (h : Effect rt out request label s t) :
    s.chips.length ≤ t.chips.length := by
  cases h with
  | stores site s chips counter h =>
    rcases h.length with h | h
    · exact (congrArg List.length h).ge
    · exact h.le
  | _ => exact le_rfl

/-- Any act but the two that write secrets. -/
theorem Effect.putFirst {label : Action} (h : Effect rt out request label s t)
    (hrotate : label ≠ .rotate) (hput : label ≠ .putSecrets) (hs : PutFirst s₀ s) :
    PutFirst s₀ t := by
  rcases hs with hgrown | ⟨hchips, hsecrets, hrow⟩
  · exact .inl (hgrown.trans_le h.length_le)
  · cases h with
    | looks s h => exact .inr ⟨hchips, hsecrets, hrow⟩
    | marksNonce s seen rows => exact .inr ⟨hchips, hsecrets, hrow⟩
    | stores site s chips counter h =>
      rcases h.length with rfl | h
      · exact .inr ⟨hchips, hsecrets, hrow⟩
      · exact .inl (hchips ▸ h)
    | rotates => exact absurd rfl hrotate
    | putsSecrets => exact absurd rfl hput
    | commits s memory d h => exact .inr ⟨hchips, hsecrets, h.trans hrow⟩

theorem PutFirst.length_le (h : PutFirst s₀ s) : s₀.chips.length ≤ s.chips.length := by
  rcases h with h | ⟨h, -⟩
  · exact h.le
  · exact (congrArg List.length h).ge

/-- The program comes to its end, alone, in a state with `Q`. -/
abbrev Ends {α : Type} (Q : PipelineState → Prop) (x : Process α) (s : PipelineState) : Prop :=
  ∀ n, x.Leads (fun _ _ => True) (fun _ _ _ => 0) (fun _ _ => True) (fun _ t _ => Q t) s n

theorem ends_bind {α β : Type} {Q : PipelineState → Prop} {x : Process α} {f : α → Process β}
    (hx : Ends Q x s) (hf : ∀ a t, Q t → Ends Q (f a) t) : Ends Q (x >>= f) s := by
  refine fun n => ((hx n).mono fun r t m hQ => ?_).bind
  cases r with
  | error e => exact hQ
  | ok a => exact hf a t hQ m

theorem ends_of_acts {α : Type} {x : Process α} {F : Action → PipelineState → PipelineState → Prop}
    (hx : x.Acts F) (hF : ∀ label s t, F label s t → PutFirst s₀ s → PutFirst s₀ t)
    (hs : PutFirst s₀ s) : Ends (PutFirst s₀) x s :=
  fun _ => ((hx.keeps fun label s t h _ hn => hF label s t h hn).leads
    (fun _ _ _ => trivial) hs).mono fun _ _ _ h => h.1

variable (rt out request) in
theorem ends_of_still {α : Type} {x : Process α} (hx : x.Acts (StillEffect rt out request))
    (hs : PutFirst s₀ s) : Ends (PutFirst s₀) x s :=
  ends_of_acts hx (fun _ _ _ h => h.effect.putFirst h.2.1 h.2.2) hs

theorem ends_ofExcept {α : Type} {Q : PipelineState → Prop} {x : Except PipelineError α}
    (hs : Q s) : Ends Q (Prog.ofExcept x) s :=
  fun _ => Prog.leads_ofExcept hs

/-- The secrets are rotated only where the chip has been stored. -/
theorem ends_persistChip {receiptCid : String} (hs : PutFirst s₀ s) :
    Ends (PutFirst s₀) (persistChip rt out request check receiptCid) s := by
  unfold persistChip
  have hput : (put rt out .body request.body receiptCid
      (executionMetadata rt out "ubl_vm/0.1" check)).Acts (fun label s t =>
        Effect rt out request label s t ∧ label = .put .body) :=
    acts_put (show SiteData rt request .body request.body from rfl)
  split_ifs with hstore hrotate hrotate'
  · refine fun n => Prog.Leads.bind (Prog.leads_atomic trivial fun _ => ?_)
    dsimp only
    cases hstored : (storeExecutedChip rt.lib (out.storedAt .body) (out.putFault .body)
      request.body receiptCid (executionMetadata rt out "ubl_vm/0.1" check) s.chips).1 with
    | error e => exact (hput s).1.1.putFirst (by simp) (by simp) hs
    | ok cid =>
      have hgrown : s₀.chips.length < (storeExecutedChip rt.lib (out.storedAt .body)
          (out.putFault .body) request.body receiptCid
          (executionMetadata rt out "ubl_vm/0.1" check) s.chips).2.length := by
        rw [(storeExecutedChip_eq_ok hstored).2]
        exact Nat.lt_succ_of_le hs.length_le
      exact (((acts_rotateKey hrotate).keeps fun label s t h _ hn =>
        hn.trans_le h.1.length_le).leads (fun _ _ _ => trivial) hgrown).mono fun _ _ _ h => .inl h.1
  · exact ends_bind (ends_of_acts hput (fun _ _ _ h => h.1.putFirst (by simp [h.2]) (by simp [h.2]))
      hs) fun _ _ ht => ends_ofExcept (x := .ok ()) ht
  · exact fun _ => hs
  · exact fun _ => hs

theorem ends_persistFinalResult (request : ParsedChipRequest) {idemKey : Option IdempotencyKey} {world : String}
    {result : PipelineResult} (hs : PutFirst s₀ s) :
    Ends (PutFirst s₀) (persistFinalResult rt out idemKey world result) s := by
  have hacts : (persistFinalResult rt out idemKey world result).Acts (fun label s t =>
    Effect rt out request label s t ∧ label = .commit) := acts_persistFinalResult
  exact ends_of_acts hacts (fun _ _ _ h => h.1.putFirst (by simp [h.2]) (by simp [h.2])) hs

theorem ends_finishDenied {idemKey : IdempotencyKey} {wa : PipelineReceipt}
    {receipt : UnifiedReceipt} (hs : PutFirst s₀ s) :
    Ends (PutFirst s₀) (finishDenied rt out request idemKey wa check receipt) s :=
  ends_bind (ends_of_still rt out request (acts_reads (show Action.Looks .deny from trivial)) hs)
    fun _ _ hs => ends_bind (ends_ofExcept hs)
    fun _ _ hs => ends_bind (ends_of_still rt out request acts_appendStageReceipt hs)
    fun _ _ hs => ends_bind (ends_ofExcept hs)
    fun _ _ hs => ends_bind (ends_persistFinalResult request hs)
    fun _ _ hs _ => hs

theorem ends_finishAllowed {idemKey : IdempotencyKey} {wa : PipelineReceipt}
    {receipt : UnifiedReceipt} (hs : PutFirst s₀ s) :
    Ends (PutFirst s₀) (finishAllowed rt out request idemKey wa check receipt) s :=
  ends_bind (ends_of_still rt out request acts_stageTransition hs)
    fun _ _ hs => ends_bind (ends_of_still rt out request acts_appendStageReceipt hs)
    fun _ _ hs => ends_bind (ends_ofExcept hs)
    fun _ _ hs => ends_bind (ends_of_still rt out request acts_appendStageReceipt hs)
    fun _ _ hs => ends_bind (ends_ofExcept hs)
    fun _ _ hs => ends_bind (ends_persistChip hs)
    fun _ _ hs => ends_bind (ends_of_still rt out request (acts_advise (.inr rfl)) hs)
    fun _ _ hs => ends_bind (ends_persistFinalResult request hs)
    fun _ _ hs _ => hs

theorem ends_processChipWithContext {ctx : AuthorshipContext} {chip : ChipRequest}
    (hs : PutFirst s₀ s) : Ends (PutFirst s₀) (processChipWithContext rt out ctx chip) s := by
  refine ends_bind (ends_ofExcept hs) fun parsed _ hs =>
    ends_bind (ends_ofExcept hs) fun idemKey _ hs =>
    ends_bind (ends_of_still rt out parsed acts_lookup hs) fun cached _ hs => ?_
  cases cached with
  | some cached => exact fun _ => hs
  | none =>
    refine ends_bind (ends_of_still rt out parsed acts_markNonce hs)
      fun _ _ hs => ends_bind (ends_of_still rt out parsed acts_stageWriteAhead hs)
      fun _ _ hs => ends_bind (ends_of_still rt out parsed acts_appendStageReceipt hs)
      fun _ _ hs => ends_bind (ends_of_still rt out parsed acts_stageCheck hs)
      fun _ _ hs => ends_bind (ends_of_still rt out parsed acts_appendStageReceipt hs)
      fun _ _ hs => ends_bind (ends_of_still rt out parsed (acts_advise (.inl rfl)) hs)
      fun _ _ hs => ?_
    split_ifs
    · exact ends_finishDenied hs
    · exact ends_finishAllowed hs

theorem putFirst_run (ctx : AuthorshipContext) (chip : ChipRequest) (s : PipelineState) :
    PutFirst s ((processChipWithContext rt out ctx chip).run s).2 :=
  (ends_processChipWithContext (.inr ⟨rfl, rfl, rfl⟩) 0).run

/-! ## Puts can be read back -/

/-- What the request has put so far, with the times of its puts. -/
def GrownBy (out : Outside) (s₀ s : PipelineState) : Prop :=
  ∃ puts : List Put, s.chips = puts ++ s₀.chips ∧
    ∀ put ∈ puts, ∃ site, put.chip.createdAt = out.storedAt site

theorem Effect.grownBy {label : Action} (h : Effect rt out request label s t)
    (hs : GrownBy out s₀ s) : GrownBy out s₀ t := by
  cases h with
  | stores site s chips counter h =>
    obtain ⟨puts, hputs, htimes⟩ := hs
    rcases h with rfl | ⟨cid, data, receiptCid, metadata, indexed, -, rfl⟩
    · exact ⟨puts, hputs, htimes⟩
    · refine ⟨_ :: puts, by rw [hputs]; rfl, fun put hput => ?_⟩
      rcases List.mem_cons.mp hput with rfl | hput
      · exact ⟨site, rfl⟩
      · exact htimes put hput
  | _ => exact hs

/-- With fresh clock readings a put shows: the chip that was put last is found. -/
theorem getChip_ne_of_grownBy (hclock : ∀ put ∈ s₀.chips, ∀ site,
    put.chip.createdAt ≠ out.storedAt site) (h : GrownBy out s₀ s)
    (hlonger : s₀.chips.length < s.chips.length) :
    ∃ cid, s.chips.getChip cid ≠ s₀.chips.getChip cid := by
  obtain ⟨puts, hputs, htimes⟩ := h
  cases puts with
  | nil =>
    rw [hputs] at hlonger
    exact absurd hlonger (Nat.lt_irrefl _)
  | cons put puts =>
    obtain ⟨site, hsite⟩ := htimes put List.mem_cons_self
    refine ⟨put.chip.cid, fun heq => ?_⟩
    rw [hputs, List.cons_append, getChip_cons_self] at heq
    obtain ⟨old, hold, hchip, -⟩ := exists_put_of_getChip heq.symm
    exact hclock old hold site (hchip ▸ hsite)

/-- A run that leaves no trace where it fails stores nothing before a failure. -/
theorem safeAfter_of_traceless {α : Type} {x : Process α} (hx : x.Acts (Effect rt out request))
    (hclock : ∀ put ∈ s₀.chips, ∀ site, put.chip.createdAt ≠ out.storedAt site)
    (hs : GrownBy out s₀ s)
    (htraceless : ∀ e, (x.run s).1 = .error e → Traceless s₀ (x.run s).2) :
    x.SafeAfter Stored s := by
  induction x generalizing s with
  | ret a => trivial
  | fail e => trivial
  | act label update next ih =>
    obtain ⟨heffect, hnext⟩ := hx s
    have hgrown := heffect.grownBy hs
    refine ⟨fun hstored => ?_, ih s hnext hgrown htraceless⟩
    cases hrun : ((next s).run (update s)).1 with
    | ok a => exact ⟨a, hrun⟩
    | error e =>
      have hfinal := hnext.run (fun _ _ _ h => h.grownBy) hgrown
      have hlonger : s₀.chips.length < ((next s).run (update s)).2.chips.length := by
        have hbefore : s₀.chips.length ≤ s.chips.length := by
          obtain ⟨puts, hputs, -⟩ := hs
          rw [hputs, List.length_append]
          exact Nat.le_add_left _ _
        have hkept : (update s).chips.length ≤ ((next s).run (update s)).2.chips.length :=
          hnext.run (J := fun t => (update s).chips.length ≤ t.chips.length)
            (fun _ _ _ h hle => hle.trans h.length_le) le_rfl
        exact (hbefore.trans_lt hstored).trans_le hkept
      obtain ⟨cid, hcid⟩ := getChip_ne_of_grownBy hclock hfinal hlonger
      exact absurd ((htraceless e hrun).getChip cid) hcid

end

/-! ## Failures without a trace -/

section

variable {rt : Runtime} {out : Outside} {ctx : AuthorshipContext} {request : ChipRequest}
  {s : PipelineState}

/-- The run of a request that cannot be parsed is its failure. -/
theorem exists_acts (rt : Runtime) (out : Outside) (ctx : AuthorshipContext) (chip : ChipRequest) :
    ∃ request, (processChipWithContext rt out ctx chip).Acts (Effect rt out request) := by
  cases hparse : ParsedChipRequest.parse rt.crypto.text chip with
  | ok parsed => exact ⟨parsed, acts_processChipWithContext hparse⟩
  | error e =>
    refine ⟨⟨chip, "", none, ""⟩, ?_⟩
    rw [processChipWithContext, hparse]
    trivial

/-- A call whose failures all come before its first put leaves no trace where it fails; and with
fresh clock readings only such a call does. -/
theorem failsWithoutTrace_iff :
    (StoresLast rt out ctx request s → FailsWithoutTrace rt out ctx request s) ∧
      ((∀ put ∈ s.chips, ∀ site, put.chip.createdAt ≠ out.storedAt site) →
        FailsWithoutTrace rt out ctx request s → StoresLast rt out ctx request s) := by
  obtain ⟨parsed, hacts⟩ := exists_acts rt out ctx request
  refine ⟨fun hlast e he => ?_, fun hclock h =>
    safeAfter_of_traceless hacts hclock ⟨[], rfl, by simp⟩ h⟩
  have hchips : ((processChipWithContext rt out ctx request).run s).2.chips = s.chips := by
    refine hlast.run_error (J := fun t => t.chips = s.chips) hacts he
      (fun label t u hl hw ht => ?_) rfl
    cases hl with
    | stores site t chips counter h =>
      rcases h.length with rfl | hlt
      · exact ht
      · exact absurd hlt hw
    | _ => exact ht
  rcases putFirst_run ctx request s with hlt | ⟨-, hsecrets, hrow⟩
  · rw [hchips] at hlt
    exact absurd hlt (Nat.lt_irrefl _)
  · exact ⟨fun _ => by rw [hchips], fun _ => by rw [hchips], fun _ => by rw [hchips], hsecrets, hrow⟩

end

/-! ## Faults that come too late -/

section

variable (rt : Runtime) (out : Outside) (request : ParsedChipRequest)

end

section

variable {rt : Runtime} {out : Outside} {request : ParsedChipRequest} {check : CheckResult}
  {key : IdempotencyKey} {s₀ s t : PipelineState}

/-- The chips and the memory are those of before. -/
structure Still (s₀ s : PipelineState) : Prop where
  chips : s.chips = s₀.chips
  memory : SameMemory s₀ s

theorem Still.trans (h : Still s₀ s) (h' : Still s t) : Still s₀ t :=
  ⟨h'.chips.trans h.chips, h'.memory.1.trans h.memory.1, h'.memory.2.trans h.memory.2⟩

end

/-! ## No trace without a late fault -/

section

variable {rt : Runtime} {out : Outside} {ctx : AuthorshipContext} {s₀ s : PipelineState}

end

/-! ## A commit that fails -/

section Sample

/-- The database is gone at the commit. -/
def commitFails : Outside :=
  { sampleOutside "n1" "n2" with commitFault := some (.sqlite "disk I/O error") }

def sampleCommit : Except PipelineError PipelineResult × PipelineState :=
  (processChipWithContext (sampleRuntime (fun _ => .error "") true) commitFails ⟨none, none⟩
    (sampleRequest "ubl/document")).run (sampleState "s0")

end Sample

end Ubl.Pipeline
