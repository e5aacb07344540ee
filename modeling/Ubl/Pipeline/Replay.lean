import Ubl.Lib.Serial
import Ubl.Pipeline.Completion
import Ubl.Pipeline.Effects
import Ubl.Receipt.ReadBack

/-!
# Idempotent execution

A request whose key is remembered is answered from memory, else it is executed, and remembered at
the end.  Nothing is held in between: two requests under one key may both miss, and then both
store their chip.  Where no request starts while another is on its way, and what stores its chip
also ends well, the chip is stored once, and every answer carries the same receipt.
-/

namespace Ubl.Pipeline

open Ubl.Chipstore
open Ubl.Nrf (Printable)
open Ubl.Receipt (UnifiedReceipt StageExecution)

/-! ## Calls under one key -/

/-- A call of `process_chip_with_context` with a body of this key. -/
structure KeyedCall (key : IdempotencyKey) where
  out : Outside
  ctx : AuthorshipContext
  request : ChipRequest
  hasKey : IdempotencyKey.fromChipBody request.body = some key

section

variable (rt : Runtime) {key : IdempotencyKey}

def KeyedCall.body (call : KeyedCall key) : Process PipelineResult :=
  processChipWithContext rt call.out call.ctx call.request

/-- One for an act that stores the chip of its request. -/
def bodyStored (label : Action) (s s' : PipelineState) : Nat :=
  if label = .put .body ∧ s.chips.length < s'.chips.length then 1 else 0

/-- A chip is stored by requests only that end well from there on. -/
def StoresToEnd (call : KeyedCall key) (label : Action) (_ : PipelineState) : Prop :=
  label = .put .body → ∀ parsed, ParsedChipRequest.parse rt.crypto.text call.request = .ok parsed →
    Completes rt call.out parsed

/-- What a lookup of the key finds. -/
def remembered (key : IdempotencyKey) (s : PipelineState) : Option CachedResult :=
  if rt.hasDurableStore then
    (s.durable.findIdempotent (key.toDurableKey rt.crypto)).map (DurableStore.cachedOf rt.rfc3339)
  else s.idempotency.lookup key

/-- The receipt CID of a replay. -/
def replayedCid (cached : CachedResult) : String :=
  ((rt.fromJson cached.responseJson).toOption.map UnifiedReceipt.receiptCid).getD ""

/-- With nothing remembered nothing has happened; else all answers agree with what is
remembered. -/
def Agreed (key : IdempotencyKey) (results : Set PipelineResult) (s : PipelineState) (n : Nat) :
    Prop :=
  match remembered rt key s with
  | none => results = ∅ ∧ n = 0
  | some cached => n ≤ 1 ∧ ∀ r ∈ results, r.receipt.receiptCid = replayedCid rt cached

/-- The memory and the count stand still. -/
def Holding (key : IdempotencyKey) (m : Option CachedResult) (k : Nat) (s : PipelineState)
    (n : Nat) : Prop :=
  remembered rt key s = m ∧ n = k

end

section

variable {rt : Runtime} {out : Outside} {key : IdempotencyKey} {m : Option CachedResult} {k : Nat}

theorem receiptCid_replay {cached : CachedResult} :
    (replay rt out cached).receipt.receiptCid = replayedCid rt cached := by
  rw [replay, replayedCid]
  cases rt.fromJson cached.responseJson with
  | error e => rfl
  | ok r => rfl

theorem bodyStored_of_ne {label : Action} (h : label ≠ .put .body) {s s' : PipelineState} :
    bodyStored label s s' = 0 :=
  if_neg fun hc => h hc.1

/-- Two states with the same memory. -/
def SameMemory (s s' : PipelineState) : Prop :=
  s'.idempotency = s.idempotency ∧ s'.durable.idempotency = s.durable.idempotency

theorem SameMemory.remembered {s s' : PipelineState} (h : SameMemory s s') :
    remembered rt key s' = Pipeline.remembered rt key s := by
  rw [Pipeline.remembered, Pipeline.remembered, DurableStore.findIdempotent,
    DurableStore.findIdempotent, h.1, h.2]

/-! ## Parts that leave the memory alone -/

abbrev Steady {α : Type} (rt : Runtime) (key : IdempotencyKey) (m : Option CachedResult) (k : Nat)
    (x : Process α) : Prop :=
  x.Keeps bodyStored (Holding rt key m k)

theorem Effect.sameMemory {request : ParsedChipRequest} {label : Action} {s s' : PipelineState}
    (h : Effect rt out request label s s') (hcommit : label ≠ .commit) : SameMemory s s' := by
  cases h with
  | commits => exact absurd rfl hcommit
  | _ => exact ⟨rfl, rfl⟩

theorem SideEffect.sameMemory {request : ParsedChipRequest} {label : Action}
    {s s' : PipelineState} (h : SideEffect rt out request label s s') : SameMemory s s' :=
  h.1.sameMemory h.2.2

theorem steady_of_acts {α : Type} {request : ParsedChipRequest} {x : Process α}
    (h : x.Acts (SideEffect rt out request)) : Steady rt key m k x :=
  h.keeps fun label s t hl n hn =>
    ⟨hl.sameMemory.remembered.trans hn.1, by rw [bodyStored_of_ne hl.2.1]; exact hn.2⟩

/-! ## What the parts return -/

/-- An append that ends well: the receipt has its stages, and the CID that goes with them. -/
theorem run_append_ok {label : String} {stage : StageExecution} {receipt r : UnifiedReceipt}
    {s t : PipelineState}
    (h : (appendStageReceipt rt label stage receipt).run s = (.ok r, t)) :
    ∃ stages, stages ≠ [] ∧ UnifiedReceipt.Encodes rt.crypto receipt stages ∧
      r = UnifiedReceipt.shadowAt rt.crypto receipt stages := by
  rw [appendStageReceipt, Prog.run_reads] at h
  have h := (Prod.mk.inj h).1
  split at h
  · cases h
  · rename_i happend
    obtain rfl := Except.ok.inj h
    cases hkey : Receipt.keyFromSecretStr rt.crypto s.stageSecrets.current with
    | error e =>
      rw [UnifiedReceipt.appendStageWithSecrets, hkey] at happend
      cases happend
    | ok key =>
      obtain ⟨henc, rfl⟩ := UnifiedReceipt.append_eq_ok hkey happend
      exact ⟨_, by simp, henc, rfl⟩

theorem printable_append {label : String} {stage : StageExecution} {receipt r : UnifiedReceipt}
    {s t : PipelineState}
    (h : (appendStageReceipt rt label stage receipt).run s = (.ok r, t)) :
    Printable r.receiptCid := by
  obtain ⟨stages, hne, henc, rfl⟩ := run_append_ok h
  exact Receipt.printable_cidOf (UnifiedReceipt.cidAt_eq hne henc)

theorem finalizeAndSign_eq_ok {label : String} {receipt r : UnifiedReceipt}
    (h : finalizeAndSign rt label receipt = .ok r) : ∃ sig, r = { receipt with sig := sig } := by
  unfold finalizeAndSign at h
  split at h
  · cases h
  · exact ⟨_, (Except.ok.inj h).symm⟩

/-! ## The end of an execution -/

theorem commitTx_of_new {d : DurableStore Json} {input : CommitInput} {idemKey : String}
    (hkey : input.idemKey = some idemKey) (hfail : input.failAfterReceiptWrite = false)
    (hnew : d.findIdempotent idemKey = none) : ∃ d', d.commitTx .values input = .ok d' := by
  have hput : (d.insertReceipt .values input).findIdempotent idemKey = none := by
    rw [DurableStore.findIdempotent, DurableStore.insertReceipt_idempotency]
    exact hnew
  simp only [DurableStore.commitTx, hfail, DurableStore.putKey, hkey,
    DurableStore.putIdempotentInTx, hput]
  exact ⟨_, rfl⟩

theorem findIdempotent_append {d d' : DurableStore Json} {row : IdempotencyRow Json}
    (hnew : d.findIdempotent row.idemKey = none)
    (hrows : d'.idempotency = d.idempotency ++ [row]) :
    d'.findIdempotent row.idemKey = some row := by
  rw [DurableStore.findIdempotent] at hnew ⊢
  rw [hrows, List.find?_append, hnew]
  simp

section

variable {request : ParsedChipRequest} {check : CheckResult} {receipt : UnifiedReceipt}
  {s : PipelineState} {n : Nat}

/-- What is left to do for a request that may have stored its chip. -/
structure Unfinished (rt : Runtime) (out : Outside) (request : ParsedChipRequest)
    (key : IdempotencyKey) (s : PipelineState) (n : Nat) : Prop where
  forgotten : remembered rt key s = none
  once : n ≤ 1
  completes : 0 < n → Completes rt out request

abbrev Finishes {α : Type} (rt : Runtime) (out : Outside) (request : ParsedChipRequest)
    (Q : Except PipelineError α → PipelineState → Nat → Prop) (x : Process α) (s : PipelineState)
    (n : Nat) : Prop :=
  x.Leads (fun label _ => label = .put .body → Completes rt out request) bodyStored
    (fun _ n => n ≤ 1) Q s n

/-- The commit comes last: where it fails the chip has not been stored. -/
theorem finishes_persistFinalResult (hround : ∀ r : UnifiedReceipt, rt.fromJson r.toJson = .ok r)
    (h : Unfinished rt out request key s n) {world : String} {result : PipelineResult} :
    Finishes rt out request (Pool.Extends (Agreed rt key) ∅)
      (persistFinalResult rt out (some key) world result >>= fun _ => pure result) s n := by
  have hcid {cached : CachedResult} (hjson : cached.responseJson = result.receipt.toJson) :
      ∀ r ∈ insert result (∅ : Set PipelineResult),
        r.receipt.receiptCid = replayedCid rt cached := by
    intro r hr
    obtain rfl := (Set.mem_insert_iff.mp hr).resolve_right (Set.notMem_empty r)
    rw [replayedCid, hjson, hround]
    rfl
  unfold persistFinalResult
  split_ifs with hdurable
  · refine Prog.Leads.bind (Prog.leads_atomic h.once fun _ => ?_)
    rw [bodyStored_of_ne (by simp), Nat.add_zero]
    have hnew : s.durable.findIdempotent (key.toDurableKey rt.crypto) = none := by
      have hforgotten := h.forgotten
      rw [remembered, if_pos hdurable, Option.map_eq_none_iff] at hforgotten
      exact hforgotten
    cases hfault : out.commitFault with
    | some e =>
      have hzero : n = 0 := by
        by_contra hpos
        have hnone := (h.completes (Nat.pos_of_ne_zero hpos)).commits hdurable
        rw [hfault] at hnone
        cases hnone
      have hagreed : Agreed rt key ∅ s n := by
        rw [Agreed, h.forgotten]
        exact ⟨rfl, hzero⟩
      cases e <;> exact hagreed
    | none =>
      obtain ⟨d, hd⟩ : ∃ d, s.durable.commitTx .values (commitInput rt out (some key) world result) =
          .ok d := commitTx_of_new rfl rfl hnew
      obtain ⟨-, -, -, hrows⟩ := DurableStore.commitTx_cases hd
      have hfound := findIdempotent_append hnew hrows
      have hcommit : s.durable.commitWfAtomically .values none
          (commitInput rt out (some key) world result) = (.ok (), d) := by
        rw [DurableStore.commitWfAtomically, hd]
      rw [hcommit]
      change Agreed rt key (insert result ∅) { s with durable := d } n
      rw [Agreed, remembered, if_pos hdurable, hfound]
      exact ⟨h.once, hcid rfl⟩
  · refine Prog.Leads.bind (Prog.leads_atomic h.once fun _ => ?_)
    rw [bodyStored_of_ne (by simp), Nat.add_zero]
    change Agreed rt key (insert result ∅)
      { s with idempotency := (key, cachedResult out result) :: s.idempotency } n
    rw [Agreed, remembered, if_neg hdurable, List.lookup_cons_self]
    exact ⟨h.once, hcid rfl⟩

theorem bodyStored_le (label : Action) (s s' : PipelineState) : bodyStored label s s' ≤ 1 := by
  unfold bodyStored
  split_ifs <;> omega

/-- The body is stored at most once, and only a request that has not stored it fails. -/
theorem finishes_persistChip (hlawful : rt.crypto.text.Lawful) {receiptCid : String}
    (hprint : Printable receiptCid) (h : remembered rt key s = none) :
    Finishes rt out request
      (fun r s n => Unfinished rt out request key s n ∧ ∀ e, r = .error e → n = 0)
      (persistChip rt out request check receiptCid) s 0 := by
  have hput (t : PipelineState) (ht : SameMemory s t)
      (hC : Completes rt out request) (label : Action) :
      Unfinished rt out request key t (0 + bodyStored label s t) :=
    ⟨ht.remembered.trans h, by rw [Nat.zero_add]; exact bodyStored_le _ _ _, fun _ => hC⟩
  have hnothing : Unfinished rt out request key s 0 :=
    ⟨h, Nat.zero_le _, fun hpos => absurd hpos (Nat.lt_irrefl 0)⟩
  unfold persistChip
  split_ifs with hstore hrotate hrotate'
  · refine Prog.Leads.bind (Prog.leads_atomic (Nat.zero_le _) fun hP => ?_)
    have hC : Completes rt out request := hP rfl
    obtain ⟨hindexed, hrotates⟩ := hC.rotates hrotate
    dsimp only
    generalize hstored : storeExecutedChip rt.lib (out.storedAt .body) (out.putFault .body)
      request.body receiptCid (executionMetadata rt out "ubl_vm/0.1" check) s.chips = stored
    obtain ⟨r, chips⟩ := stored
    cases r with
    | error e =>
      have hsame : chips = s.chips := storeExecutedChip_error hindexed hstored
      have hzero : bodyStored (.put .body) s { s with chips := chips } = 0 := by
        rw [hsame, bodyStored, if_neg (by simp)]
      rw [hzero]
      exact ⟨⟨h, Nat.zero_le _, fun hpos => absurd hpos (Nat.lt_irrefl 0)⟩, fun _ _ => rfl⟩
    | ok cid =>
      have hcid : chipCid rt.crypto request.body = .ok cid :=
        (storeExecutedChip_eq_ok (congrArg Prod.fst hstored)).1
      have hu := hput { s with chips := chips } ⟨rfl, rfl⟩ hC (.put .body)
      have hsteady : Steady rt key none (0 + bodyStored (.put .body) s { s with chips := chips })
          (rotateKey rt out request check receiptCid (.ok cid)) :=
        steady_of_acts (acts_rotateKey hrotate)
      refine (hsteady.leads (fun _ n hn => hn.2 ▸ hu.once) ⟨hu.forgotten, rfl⟩).mono ?_
      rintro r t n ⟨⟨hforgotten, rfl⟩, hrun⟩
      refine ⟨⟨hforgotten, hu.once, hu.completes⟩, fun e he => ?_⟩
      have hok : ((rotateKey rt out request check receiptCid (.ok cid)).run
          { s with chips := chips }).1 = .ok () :=
        (run_rotateKey_ok hlawful hcid hprint).mpr hrotates
      rw [hrun, he] at hok
      cases hok
  · refine Prog.Leads.bind (Prog.leads_atomic (Nat.zero_le _) fun hP => ?_)
    refine ⟨hput _ ?_ (hP rfl) (.put .body), fun e he => (by cases he)⟩
    exact ⟨rfl, rfl⟩
  · exact ⟨hnothing, fun _ _ => rfl⟩
  · exact ⟨hnothing, fun _ _ => rfl⟩

theorem run_advise {site : StoreSite} {version : String} {advisory : AdvisoryEngine → Advisory} :
    ((advise rt out site version advisory).run s).1 = .ok () := by
  unfold advise
  split
  · rw [Prog.modify, Prog.run_atomic]
  · rfl

theorem agreed_of_forgotten (h : remembered rt key s = none) : Agreed rt key ∅ s 0 := by
  rw [Agreed, h]
  exact ⟨rfl, rfl⟩

/-- A part that neither stores the body nor touches the memory. -/
theorem finishes_bind {α : Type} {x : Process α} {f : α → Process PipelineResult}
    (hx : x.Acts (StillEffect rt out request)) (h : remembered rt key s = none)
    (hf : ∀ a t, remembered rt key t = none → x.run s = (.ok a, t) →
      Finishes rt out request (Pool.Extends (Agreed rt key) ∅) (f a) t 0) :
    Finishes rt out request (Pool.Extends (Agreed rt key) ∅) (x >>= f) s 0 := by
  have hsteady : Steady rt key none 0 x := steady_of_acts (hx.mono fun _ _ _ h => h.1)
  refine hsteady.leads_bind (fun _ n hn => hn.2 ▸ Nat.zero_le 1) ⟨h, rfl⟩ ?_ ?_
  · rintro e t n ⟨ht, rfl⟩ -
    exact agreed_of_forgotten ht
  · rintro a t n ⟨ht, rfl⟩ hrun
    exact hf a t ht hrun

variable (hround : ∀ r : UnifiedReceipt, rt.fromJson r.toJson = .ok r)

include hround

theorem finishes_finishDenied {wa : PipelineReceipt} (h : remembered rt key s = none) :
    Finishes rt out request (Pool.Extends (Agreed rt key) ∅)
      (finishDenied rt out request key wa check receipt) s 0 := by
  refine finishes_bind (acts_reads (show Action.Looks .deny from trivial)) h
    fun denied t ht _ => ?_
  refine finishes_bind Prog.acts_ofExcept ht fun wf t ht _ => ?_
  refine finishes_bind acts_appendStageReceipt ht fun r t ht _ => ?_
  refine finishes_bind Prog.acts_ofExcept ht fun signed t ht _ => ?_
  exact finishes_persistFinalResult hround
    ⟨ht, Nat.zero_le _, fun hpos => absurd hpos (Nat.lt_irrefl 0)⟩

variable (hlawful : rt.crypto.text.Lawful)

include hlawful

theorem finishes_finishAllowed {wa : PipelineReceipt} (h : remembered rt key s = none) :
    Finishes rt out request (Pool.Extends (Agreed rt key) ∅)
      (finishAllowed rt out request key wa check receipt) s 0 := by
  refine finishes_bind acts_stageTransition h fun tr t ht _ => ?_
  refine finishes_bind acts_appendStageReceipt ht fun r t ht _ => ?_
  refine finishes_bind Prog.acts_ofExcept ht fun wf t ht _ => ?_
  refine finishes_bind acts_appendStageReceipt ht fun r t ht hrun => ?_
  have hprint := printable_append hrun
  refine finishes_bind Prog.acts_ofExcept ht fun signed t ht hsign => ?_
  rw [Prog.run_ofExcept] at hsign
  obtain ⟨sig, rfl⟩ := finalizeAndSign_eq_ok (Prod.mk.inj hsign).1
  refine Prog.Leads.bind ((finishes_persistChip hlawful hprint ht).mono fun r u n hu => ?_)
  cases r with
  | error e =>
    obtain rfl := hu.2 e rfl
    exact agreed_of_forgotten hu.1.forgotten
  | ok _ =>
    obtain ⟨⟨hforgotten, honce, hcompletes⟩, -⟩ := hu
    have hacts : (advise rt out .postWf "advisory/post-wf" fun engine => engine.postWfAdvisory
        wf.bodyCid request.chipType "allow" out.totalMs).Acts (StillEffect rt out request) :=
      acts_advise (.inr rfl)
    have hadvise : Steady rt key none n _ := steady_of_acts (hacts.mono fun _ _ _ h => h.1)
    refine hadvise.leads_bind (fun _ m hm => hm.2 ▸ honce) ⟨hforgotten, rfl⟩ ?_ ?_
    · rintro e v m - herror
      have hok := congrArg Prod.fst herror
      rw [run_advise] at hok
      cases hok
    · rintro _ v m ⟨hv, rfl⟩ -
      exact finishes_persistFinalResult hround ⟨hv, honce, hcompletes⟩

theorem finishes_execute {ctx : AuthorshipContext} (h : remembered rt key s = none) :
    Finishes rt out request (Pool.Extends (Agreed rt key) ∅) (execute rt out ctx request key) s 0 := by
  refine finishes_bind acts_markNonce h fun _ t ht _ => ?_
  refine finishes_bind acts_stageWriteAhead ht fun wa t ht _ => ?_
  refine finishes_bind acts_appendStageReceipt ht fun r t ht _ => ?_
  refine finishes_bind acts_stageCheck ht fun check t ht _ => ?_
  refine finishes_bind acts_appendStageReceipt ht fun r t ht _ => ?_
  refine finishes_bind (acts_advise (.inl rfl)) ht fun _ t ht _ => ?_
  split_ifs
  · exact finishes_finishDenied hround ht
  · exact finishes_finishAllowed hround hlawful ht

end

/-! ## Calls -/

section

variable {s : PipelineState} {n : Nat} {results : Set PipelineResult}

theorem getIdempotent_eq (hdurable : rt.hasDurableStore = true) :
    s.durable.getIdempotent .values rt.rfc3339 none (key.toDurableKey rt.crypto) =
      .ok (remembered rt key s) := by
  rw [remembered, if_pos hdurable, DurableStore.getIdempotent_values]

/-- A lookup that does not fail answers with what is remembered. -/
theorem run_lookup_ok {cached : Option CachedResult} {t : PipelineState}
    (h : (lookup rt out key).run s = (.ok cached, t)) : cached = remembered rt key s := by
  rw [lookup, Prog.run_reads] at h
  have h := (Prod.mk.inj h).1
  split_ifs at h with hdurable
  · cases hfault : out.idempotencyFault with
    | some e =>
      rw [hfault] at h
      cases h
    | none =>
      rw [hfault, getIdempotent_eq hdurable] at h
      exact (Except.ok.inj h).symm
  · rw [remembered, if_neg hdurable]
    exact (Except.ok.inj h).symm

theorem Agreed.once (h : Agreed rt key results s n) : n ≤ 1 := by
  unfold Agreed at h
  split at h
  · exact h.2 ▸ Nat.zero_le 1
  · exact h.1

/-- All answers carry the same receipt. -/
theorem Agreed.same (h : Agreed rt key results s n) {r r' : PipelineResult} (hr : r ∈ results)
    (hr' : r' ∈ results) : r.receipt.receiptCid = r'.receipt.receiptCid := by
  unfold Agreed at h
  split at h
  · rw [h.1] at hr
    exact absurd hr (Set.notMem_empty r)
  · exact (h.2 r hr).trans (h.2 r' hr').symm

theorem Agreed.replay {cached : CachedResult} (h : Agreed rt key results s n)
    (hcached : remembered rt key s = some cached) :
    Agreed rt key (insert (replay rt out cached) results) s n := by
  rw [Agreed, hcached] at h ⊢
  refine ⟨h.1, fun r hr => ?_⟩
  rcases Set.mem_insert_iff.mp hr with rfl | hr
  · exact receiptCid_replay
  · exact h.2 r hr

theorem parse_request {t : Nrf.Text} {request : ChipRequest} {parsed : ParsedChipRequest}
    (h : ParsedChipRequest.parse t request = .ok parsed) : parsed.request = request := by
  unfold ParsedChipRequest.parse at h
  repeat' split at h
  all_goals first
    | cases h; done
    | exact (congrArg ParsedChipRequest.request (Except.ok.inj h)).symm

/-- One call, alone: it agrees with what is remembered, or is the first to be. -/
theorem leads_body (hround : ∀ r : UnifiedReceipt, rt.fromJson r.toJson = .ok r)
    (hlawful : rt.crypto.text.Lawful) (call : KeyedCall key) (h : Agreed rt key results s n) :
    (call.body rt).Leads (StoresToEnd rt call) bodyStored (fun _ n => n ≤ 1)
      (Pool.Extends (Agreed rt key) results) s n := by
  rw [KeyedCall.body, processChipWithContext]
  cases hparse : ParsedChipRequest.parse rt.crypto.text call.request with
  | error e => exact h
  | ok parsed =>
    have hkey : idemKeyOf parsed.body = .ok key := by
      rw [idemKeyOf, ParsedChipRequest.body, parse_request hparse, call.hasKey]
    simp only [Prog.ofExcept_ok, Prog.ret_bind, hkey]
    have hlookup : (lookup rt call.out key).Keeps bodyStored (fun t m => t = s ∧ m = n) :=
      Prog.keeps_atomic fun t m ht => ⟨ht.1, by rw [bodyStored_of_ne (by simp)]; exact ht.2⟩
    refine hlookup.leads_bind (fun t m ht => ht.2 ▸ h.once) ⟨rfl, rfl⟩ ?_ ?_
    · rintro e t m ⟨rfl, rfl⟩ -
      exact h
    · rintro cached t m ⟨rfl, rfl⟩ hrun
      obtain rfl := run_lookup_ok hrun
      cases hcached : remembered rt key t with
      | some cached => exact h.replay hcached
      | none =>
        rw [Agreed, hcached] at h
        obtain ⟨rfl, rfl⟩ := h
        exact (finishes_execute hround hlawful hcached).permit fun label s hstores hlabel =>
          hstores hlabel parsed hparse

/-- Where no call starts while another is on its way, and what stores its chip also ends well,
the chip is stored at most once and all answers carry the same receipt CID. -/
theorem idempotent_of_oneAtATime (hround : ∀ r : UnifiedReceipt, rt.fromJson r.toJson = .ok r)
    (hlawful : rt.crypto.text.Lawful) {s₀ : PipelineState}
    {p : Pool (KeyedCall key) Action PipelineState PipelineError PipelineResult}
    (hrun : Pool.Run (KeyedCall.body rt) bodyStored (Pool.OneAtATime (StoresToEnd rt)) s₀ p n) :
    n ≤ 1 ∧ ∀ r ∈ p.results, ∀ r' ∈ p.results, r.receipt.receiptCid = r'.receipt.receiptCid := by
  have hret (call : KeyedCall key) (r : PipelineResult) : call.body rt ≠ .ret r := by
    rw [KeyedCall.body, processChipWithContext]
    cases ParsedChipRequest.parse rt.crypto.text call.request with
    | error e => simp
    | ok parsed =>
      cases hkey : idemKeyOf parsed.body with
      | error e => simp [hkey]
      | ok key =>
        simp only [Prog.ofExcept_ok, Prog.ret_bind, hkey, lookup, Prog.reads, Prog.atomic,
          Prog.act_bind]
        intro h
        cases h
  have hstart : Agreed rt key ∅ s₀ 0 := by
    unfold Agreed
    split
    · exact ⟨rfl, rfl⟩
    · exact ⟨Nat.zero_le 1, fun r hr => absurd hr (Set.notMem_empty r)⟩
  obtain ⟨⟨s, m, hagreed⟩, honce⟩ := Pool.serial
    (fun call _ _ _ h => leads_body hround hlawful call h) hret (fun _ _ _ h => h.once) hstart hrun
  exact ⟨honce, fun r hr r' hr' => hagreed.same hr hr'⟩

end

end

/-! ## Two calls at a time -/

section Sample

def sampleKey : IdempotencyKey := ⟨"ubl/document", "1", "a/x", "1"⟩

def sampleCall (nonce waNonce : String) : KeyedCall sampleKey where
  out := sampleOutside nonce waNonce
  ctx := ⟨none, none⟩
  request := sampleRequest "ubl/document"
  hasKey := by decide

abbrev SamplePool := Pool (KeyedCall sampleKey) Action PipelineState PipelineError PipelineResult

def sampleParsed : ParsedChipRequest :=
  ⟨sampleRequest "ubl/document", "ubl/document", some "1", "a/x"⟩

/-- What is left of a call once it has found nothing. -/
def sampleRest (rt : Runtime) (call : KeyedCall sampleKey) : Process PipelineResult :=
  execute rt call.out call.ctx sampleParsed sampleKey

section

variable (fromJson : Json → Except String UnifiedReceipt)

theorem completes_sample {nonce waNonce : String} {parsed : ParsedChipRequest}
    (h : ParsedChipRequest.parse (sampleRuntime fromJson false).crypto.text
      (sampleCall nonce waNonce).request = .ok parsed) :
    Completes (sampleRuntime fromJson false) (sampleCall nonce waNonce).out parsed := by
  have hparsed : ParsedChipRequest.parse (sampleRuntime fromJson false).crypto.text
      (sampleCall nonce waNonce).request = .ok sampleParsed := rfl
  obtain rfl := Except.ok.inj (hparsed.symm.trans h)
  exact ⟨fun _ => rfl, fun h => absurd h (by decide)⟩

/-- The first act of a call is its lookup. -/
theorem body_sampleCall (nonce waNonce : String) :
    ∃ next : PipelineState → Process PipelineResult,
      (sampleCall nonce waNonce).body (sampleRuntime fromJson false) = .act .lookup (fun s => s) next ∧
      next (sampleState "s0") =
        sampleRest (sampleRuntime fromJson false) (sampleCall nonce waNonce) :=
  ⟨_, rfl, rfl⟩

end

/-- The outcomes of two calls, the second after the first. -/
def replayRun (rt : Runtime) (s : PipelineState) :
    Except PipelineError PipelineResult × Except PipelineError PipelineResult :=
  let first := ((sampleCall "n1" "n2").body rt).spend bodyStored s 0
  (first.1, (((sampleCall "m1" "m2").body rt).spend bodyStored first.2.1 first.2.2).1)

/-- A result and a replay. -/
def replays : Except PipelineError PipelineResult × Except PipelineError PipelineResult → Bool
  | (.ok r, .ok r') => !r.replayed && r'.replayed
  | _ => false

theorem exists_of_replays
    {o : Except PipelineError PipelineResult × Except PipelineError PipelineResult}
    (h : replays o) : ∃ r r', o = (.ok r, .ok r') ∧ r.replayed = false ∧ r'.replayed = true := by
  unfold replays at h
  split at h
  · rename_i r r'
    rw [Bool.and_eq_true, Bool.not_eq_true'] at h
    exact ⟨r, r', rfl, h.1, h.2⟩
  · cases h

/-- The two outcomes of two calls that have both found nothing, and the count. -/
def bothRun (rt : Runtime) (s : PipelineState) :
    Except PipelineError PipelineResult × Except PipelineError PipelineResult × Nat :=
  let first := (sampleRest rt (sampleCall "n1" "n2")).spend bodyStored s 0
  let second := (sampleRest rt (sampleCall "m1" "m2")).spend bodyStored first.2.1 first.2.2
  (first.1, second.1, second.2.2)

/-- Two results, with receipts of their own, of a body stored twice. -/
def apart : Except PipelineError PipelineResult × Except PipelineError PipelineResult × Nat → Bool
  | (.ok r, .ok r', n) => r.receipt.receiptCid != r'.receipt.receiptCid && n == 2
  | _ => false

theorem exists_of_apart_receipts
    {o : Except PipelineError PipelineResult × Except PipelineError PipelineResult × Nat}
    (h : apart o) : ∃ r r', o = (.ok r, .ok r', 2) ∧ r.receipt.receiptCid ≠ r'.receipt.receiptCid := by
  unfold apart at h
  split at h
  · rename_i r r' n
    rw [Bool.and_eq_true, bne_iff_ne, beq_iff_eq] at h
    exact ⟨r, r', by rw [h.2], h.1⟩
  · cases h

theorem sampleRuns :
    (∀ durable, replays (replayRun (sampleRuntime Receipt.readBack durable) (sampleState "s0"))) ∧
      apart (bothRun (sampleRuntime (fun _ => .error "") false) (sampleState "s0")) := by
  refine ⟨fun durable => ?_, ?_⟩
  · cases durable <;> decide +kernel
  · decide +kernel

/-- The second call answers from the memory, or from the row. -/
theorem replayRun_sample (durable : Bool) : ∃ r r',
    replayRun (sampleRuntime Receipt.readBack durable) (sampleState "s0") = (.ok r, .ok r') ∧
      r.replayed = false ∧ r'.replayed = true :=
  exists_of_replays (sampleRuns.1 durable)

/-- A call, and a second one under its key when the first has ended. -/
theorem run_one_by_one :
    ∃ (p : SamplePool) (n : Nat), Pool.Run (KeyedCall.body (sampleRuntime Receipt.readBack false))
        bodyStored (Pool.OneAtATime (StoresToEnd (sampleRuntime Receipt.readBack false)))
        (sampleState "s0") p n ∧
      ∃ r ∈ p.results, ∃ r' ∈ p.results, r.replayed = false ∧ r'.replayed = true := by
  obtain ⟨r, r', hboth, hexecuted, hreplayed⟩ := replayRun_sample false
  have hstores (nonce waNonce : String) (label : Action) (s : PipelineState) :
      StoresToEnd (sampleRuntime Receipt.readBack false) (sampleCall nonce waNonce) label s :=
    fun _ _ h => completes_sample Receipt.readBack h
  generalize sampleRuntime Receipt.readBack false = rt at *
  generalize sampleState "s0" = s₀ at *
  have hempty : Pool.Run (KeyedCall.body rt) bodyStored (Pool.OneAtATime (StoresToEnd rt)) s₀
      (⟨[], s₀⟩ : SamplePool) 0 := .start
  simp only [replayRun, Prod.mk.injEq] at hboth
  obtain ⟨started, hfirst⟩ := hempty.alone (fun t ht => (by cases ht)) (hstores "n1" "n2")
  rw [hboth.1] at hfirst
  obtain ⟨started', hsecond⟩ := hfirst.alone (fun t ht hflight => by
    obtain rfl := List.mem_singleton.mp ht
    obtain ⟨-, _, _, _, hrest⟩ := hflight
    cases hrest) (hstores "m1" "m2")
  rw [hboth.2] at hsecond
  exact ⟨_, _, hsecond, r, ⟨_, List.mem_cons_self, rfl⟩, r',
    ⟨_, List.mem_cons_of_mem _ List.mem_cons_self, rfl⟩, hexecuted, hreplayed⟩

theorem idempotent_of_oneAtATime_sample :
    ∃ (p : SamplePool) (n : Nat), n ≤ 1 ∧ ∃ r ∈ p.results, ∃ r' ∈ p.results,
      r.replayed = false ∧ r'.replayed = true ∧ r.receipt.receiptCid = r'.receipt.receiptCid := by
  obtain ⟨p, n, hrun, r, hr, r', hr', hexecuted, hreplayed⟩ := run_one_by_one
  have hlawful : (sampleRuntime Receipt.readBack false).crypto.text.Lawful := Nrf.asciiText_lawful
  obtain ⟨honce, hsame⟩ := idempotent_of_oneAtATime Receipt.readBack_toJson hlawful hrun
  exact ⟨p, n, honce, r, hr, r', hr', hexecuted, hreplayed, hsame r hr r' hr'⟩

/-- Two calls that both look their key up before either has ended store the chip twice, and answer
with two receipts. -/
theorem stored_twice :
    ∃ (p : SamplePool) (n : Nat), Pool.Run (KeyedCall.body (sampleRuntime (fun _ => .error "") false)) bodyStored
        (fun _ _ _ => True) (sampleState "s0") p n ∧ n = 2 ∧
      ∃ r ∈ p.results, ∃ r' ∈ p.results, r.receipt.receiptCid ≠ r'.receipt.receiptCid := by
  obtain ⟨next, hbody, hnext⟩ := body_sampleCall (fun _ => .error "") "n1" "n2"
  obtain ⟨next', hbody', hnext'⟩ := body_sampleCall (fun _ => .error "") "m1" "m2"
  obtain ⟨r, r', hboth, hdiffer⟩ := exists_of_apart_receipts sampleRuns.2
  generalize sampleRuntime (fun _ => .error "") false = rt at *
  generalize sampleState "s0" = s₀ at *
  have hempty : Pool.Run (KeyedCall.body rt) bodyStored (fun _ _ _ => True) s₀
      (⟨[], s₀⟩ : SamplePool) 0 := .start
  have harrived := (hempty.arrives (sampleCall "n1" "n2")).arrives (sampleCall "m1" "m2")
  simp only [Pool.arrive, hbody, hbody', List.nil_append, List.cons_append] at harrived
  have hlooked := (harrived.acts (i := 0) trivial (.mk _ _ _ _ rfl)).acts (i := 1) trivial
    (.mk _ _ _ _ rfl)
  obtain ⟨_, hfirst⟩ := Pool.Run.finish (next s₀) (i := 0) hlooked rfl fun _ _ _ _ => trivial
  obtain ⟨_, hsecond⟩ := Pool.Run.finish (next' s₀) (i := 1) hfirst rfl fun _ _ _ _ => trivial
  rw [hnext, hnext'] at hsecond
  simp only [bodyStored_of_ne (show Action.lookup ≠ .put .body by simp), Nat.add_zero] at hsecond
  simp only [bothRun, Prod.mk.injEq] at hboth
  rw [hboth.1, hboth.2.1, hboth.2.2] at hsecond
  exact ⟨_, _, hsecond, rfl, r, ⟨_, List.mem_cons_self, rfl⟩, r',
    ⟨_, List.mem_cons_of_mem _ List.mem_cons_self, rfl⟩, hdiffer⟩

end Sample

end Ubl.Pipeline
