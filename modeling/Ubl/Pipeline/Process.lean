import Ubl.Chipstore.Store
import Ubl.Lib.Prog
import Ubl.Pipeline.Advisory
import Ubl.Pipeline.Rotation

/-!
# `processing.rs`: a request on its way through the pipeline

`processChipWithContext` is the program of one request: its acts are the points where it touches
what requests share (the chip store, the stage secrets, the idempotency cache, the durable store,
the nonces), and other requests may act between any two of them.

What a request gets from outside (clock readings, random nonces, the faults of the stores) is an
argument, so that a statement about every request is one about every outcome of these.  CHECK and
TR are functions of the runtime; TR also stores the artifacts of its chip type.  Events on the
bus and the audit ledger are left out: nothing reads them back here, and their failures are
ignored.  A denial keeps a read lock on the secrets to its end; here a rotation may come in
between all the same.
-/

namespace Ubl.Pipeline

open Ubl.Chipstore
open Ubl.Policy (Decision)
open Ubl.Receipt (Crypto Key StageSecrets PipelineStage StageExecution UnifiedReceipt RuntimeInfo)

/-! ## The state and the runtime -/

/-- What requests share. -/
structure PipelineState where
  chips : ChipStore
  stageSecrets : StageSecrets
  /-- The newest entry of a key is the one that is found. -/
  idempotency : List (IdempotencyKey × CachedResult)
  /-- What requests write reads back: receipts are shallow and hold no floats. -/
  durable : DurableStore Json
  seenNonces : List String
  advisoryCounter : Nat

structure PipelineReceipt where
  bodyCid : String
  receiptType : String
  body : Json

structure PipelineResult where
  finalReceipt : PipelineReceipt
  chain : List String
  decision : Decision
  receipt : UnifiedReceipt
  replayed : Bool

/-- A chip that TR stores on the way; the texts are those of its errors. -/
structure Artifact where
  payload : Json
  metadata : ExecutionMetadata
  encodeError : String
  storeError : String

/-- What TR does after it has run its bytecode. -/
structure Transition where
  artifacts : List Artifact
  receipt : Except PipelineError PipelineReceipt

structure Runtime where
  lib : StoreLib
  kms : Kms
  /-- The RFC 3339 text of a Unix timestamp. -/
  rfc3339 : Int64 → String
  /-- `UnifiedReceipt::from_json`. -/
  fromJson : Json → Except String UnifiedReceipt
  /-- The signature of `finalize_and_sign`, over the receipt without one. -/
  signDomain : Json → Except String String
  /-- `authorship::resolve_subject_did(Some(body), None)`. -/
  resolveSubjectDid : Json → String
  /-- `authorship::knock_cid_from_value`. -/
  knockCidFromValue : Json → String
  genesisChipCid : String
  did : String
  kid : String
  signingSeed : Key
  runtimeInfo : RuntimeInfo
  fuelLimit : UInt64
  advisoryEngine : Option AdvisoryEngine
  hasChipStore : Bool
  hasDurableStore : Bool
  /-- Stage CHECK, with the store if there is one. -/
  stageCheck : Option ChipStore → ParsedChipRequest → Except PipelineError CheckResult
  /-- Stage TR up to the first artifact. -/
  stageTransition : Option ChipStore → ParsedChipRequest → CheckResult →
    Except PipelineError Transition

def Runtime.crypto (rt : Runtime) : Crypto := rt.lib.crypto

/-- The places where a request stores a chip. -/
inductive StoreSite where
  | body
  | mapping
  | artifact (i : Nat)
  | postCheck
  | postWf
deriving DecidableEq

/-- What a request gets from outside. -/
structure Outside where
  nonce : String
  waNonce : String
  /-- The time of `UnifiedReceipt::new`. -/
  createdAt : String
  frozenTime : String
  timestamp : PipelineStage → String
  durationMs : PipelineStage → Int64
  policyMs : Nat → Int64
  rbNanos : Nat → Nat → UInt64
  /-- Milliseconds from the start to a denial, to WF, and to the end. -/
  denyMs : Int64
  totalMsBeforeWf : Int64
  totalMs : Int64
  storedAt : StoreSite → String
  mappingCreatedAt : String
  nonceTime : Int64
  committedAt : Int64
  cachedAt : String
  idempotencyFault : Option DurableError
  nonceFault : Option DurableError
  checkFault : Option PipelineError
  transitionFault : Option PipelineError
  putFault : StoreSite → Option PutFault
  /-- The task spawned at this place gets to run while the request is still on its way. -/
  taskRuns : StoreSite → Bool
  secretsFault : Option DurableError
  commitFault : Option DurableError

structure AuthorshipContext where
  subjectDidHint : Option String
  knockCid : Option String

/-- The kinds of acts of a request. -/
inductive Action where
  | lookup
  | markNonce
  | appendStage
  | deny
  | check
  | transition
  | put (site : StoreSite)
  | rotate
  | putSecrets
  | commit
deriving DecidableEq

abbrev Process := Prog Action PipelineState PipelineError

/-! ## Requests -/

def ParsedChipRequest.parse (t : Nrf.Text) (request : ChipRequest) :
    Except PipelineError ParsedChipRequest :=
  match request.body.asObject with
  | none => .error (.invalidChip "chip body must be object")
  | some _ =>
    match bodyStr request.body "@type" with
    | none => .error (.invalidChip "missing @type")
    | some chipType =>
      if chipType ≠ request.chipType then
        .error (.invalidChip ("request.chip_type '" ++ request.chipType ++ "' != body.@type '" ++
          chipType ++ "'"))
      else
        match bodyStr request.body "@world" with
        | none => .error (.invalidChip "missing @world")
        | some world =>
          match Nrf.validateWorld t world with
          | .error e => .error (.invalidChip ("@world: " ++ e))
          | .ok () => .ok ⟨request, chipType,
              (bodyStr request.body "@id").or (bodyStr request.body "id"), world⟩

def idemKeyOf (body : Json) : Except PipelineError IdempotencyKey :=
  match IdempotencyKey.fromChipBody body with
  | none => .error
      (.invalidChip "missing strict idempotency anchors: @type, @ver, @world, @id")
  | some key => .ok key

def decisionToWire : Decision → String
  | .allow => "allow"
  | .deny => "deny"
  | .require => "require"

/-- `Display` of a receipt error. -/
def receiptErrorText : Receipt.ReceiptError → String
  | .serialization e => "Serialization error: " ++ e
  | .invalidStageOrder e => "Invalid stage order: " ++ e
  | .authChainBroken e => "Auth chain broken: " ++ e
  | .signature e => "Signature error: " ++ e

section Request

variable (rt : Runtime) (out : Outside)

/-! ## Replay -/

def lookup (key : IdempotencyKey) : Process (Option CachedResult) :=
  .reads .lookup fun s =>
    if rt.hasDurableStore then
      match s.durable.getIdempotent .values rt.rfc3339 out.idempotencyFault
        (key.toDurableKey rt.crypto) with
      | .error e => .error (.storageError ("Idempotency lookup: " ++ e.text))
      | .ok cached => .ok cached
    else .ok (s.idempotency.lookup key)

/-- `eq_ignore_ascii_case("allow")`, or the text contains `Allow`. -/
def saysAllow (decision : String) : Bool :=
  decide (decision.toList.map Char.toLower = "allow".toList) ||
    decide ("Allow".toList <:+: decision.toList)

def replay (cached : CachedResult) : PipelineResult where
  finalReceipt := ⟨cached.receiptCid, "ubl/wf", cached.responseJson⟩
  chain := cached.chain
  decision := if saysAllow cached.decision then .allow else .deny
  receipt := (rt.fromJson cached.responseJson).toOption.getD
    (UnifiedReceipt.new out.createdAt "" "" "" "")
  replayed := true

/-! ## The parts of an execution -/

/-- The in-memory guard, and the durable one where there is a durable store (24 h). -/
def markNonce : Process Unit := do
  Prog.atomic .markNonce fun s =>
    if s.seenNonces.contains out.nonce then
      (.error (.invalidChip "replay: duplicate nonce (in-memory)"), s)
    else (.ok (), { s with seenNonces := out.nonce :: s.seenNonces })
  if rt.hasDurableStore then
    Prog.atomic .markNonce fun s =>
      match s.durable.nonceMarkIfNew out.nonceFault out.nonceTime out.nonce 86400 with
      | (.error e, d) => (.error (.storageError ("nonce persist: " ++ e.text)), { s with durable := d })
      | (.ok false, d) =>
        (.error (.invalidChip "replay: nonce already seen (durable)"), { s with durable := d })
      | (.ok true, d) => (.ok (), { s with durable := d })
  else pure ()

/-- The receipt that starts out for a request. -/
def newReceipt (world subjectDid knockCid : String) : UnifiedReceipt :=
  { UnifiedReceipt.new out.createdAt world rt.did rt.kid out.nonce with
    rt := some rt.runtimeInfo
    subjectDid := some subjectDid
    knockCid := some knockCid }

/-- `append_stage_receipt`: the secrets are read at the append. -/
def appendStageReceipt (label : String) (stage : StageExecution) (receipt : UnifiedReceipt) :
    Process UnifiedReceipt :=
  .reads .appendStage fun s =>
    match receipt.appendStageWithSecrets rt.crypto s.stageSecrets.current s.stageSecrets.prev
      stage with
    | (.error e, _) => .error (.internal ("Receipt " ++ label ++
        ": Internal error: Receipt append stage: " ++ receiptErrorText e))
    | (.ok (), receipt) => .ok receipt

def stageExecution (stage : PipelineStage) (inputCid : String) (outputCid : Option String)
    (durationMs : Int64) : StageExecution where
  stage := stage
  timestamp := out.timestamp stage
  inputCid := inputCid
  outputCid := outputCid
  fuelUsed := none
  policyTrace := []
  vmSig := none
  vmSigPayloadCid := none
  authToken := ""
  durationMs := durationMs

/-- The trace of CHECK with the durations measured on the way. -/
def timedTrace (trace : List PolicyTraceEntry) : List Receipt.PolicyTraceEntry :=
  trace.mapIdx fun i e => ⟨e.level, e.policyId, e.result, e.reason,
    e.rbResults.mapIdx fun j rb => ⟨rb.rbId, rb.decision, rb.reason, rb.inputsUsed,
      out.rbNanos i j⟩, out.policyMs i⟩

/-- A stage body, content-addressed. -/
def stageReceipt (label receiptType : String) (body : Json) :
    Except PipelineError PipelineReceipt :=
  match chipCid rt.crypto body with
  | .error e => .error (.internal (label ++ " CID: " ++ e))
  | .ok cid => .ok ⟨cid, receiptType, body⟩

def stageWriteAhead (request : ParsedChipRequest) : Process PipelineReceipt := do
  Prog.atomic .markNonce fun s =>
    if s.seenNonces.contains out.waNonce then (.error (.replayDetected "duplicate nonce"), s)
    else (.ok (), { s with seenNonces := out.waNonce :: s.seenNonces })
  Prog.ofExcept <| stageReceipt rt "WA" "ubl/wa" <| .object [("ghost", .bool true),
    ("chip_cid", .string "pending"), ("policy_cid", .string rt.genesisChipCid),
    ("frozen_time", .string out.frozenTime), ("caller", .string rt.did),
    ("context", request.body),
    ("operation", .string (request.request.operation.getD "create")),
    ("nonce", .string out.waNonce), ("kid", .string rt.kid)]

/-- `Option<Arc<ChipStore>>`. -/
def chipStore (s : PipelineState) : Option ChipStore :=
  if rt.hasChipStore then some s.chips else none

def stageCheck (request : ParsedChipRequest) : Process CheckResult :=
  .reads .check fun s =>
    match out.checkFault with
    | some e => .error e
    | none => rt.stageCheck (chipStore rt s) request

/-- `WfReceiptBody`. -/
def wfBody (decision : Decision) (waCid : String) (trCid : Option String)
    (artifacts : List (String × Json)) (durationMs : Int64) (trace : List PolicyTraceEntry)
    (shortCircuited : Bool) : Json :=
  .object [("decision", Receipt.decisionJson decision), ("wa_cid", .string waCid),
    ("tr_cid", Receipt.stringOrNull trCid), ("artifacts", .object artifacts),
    ("duration_ms", .number (.ofI64 durationMs)),
    ("policy_trace", .array ((timedTrace out trace).map Receipt.PolicyTraceEntry.toJson)),
    ("short_circuited", .bool shortCircuited)]

def createDenyReceipt (wa : PipelineReceipt) (check : CheckResult) :
    Except PipelineError PipelineReceipt :=
  stageReceipt rt "WF DENY" "ubl/wf"
    (wfBody out .deny wa.bodyCid none [] out.denyMs check.trace true)

/-- The artifact CIDs that TR reports; the chip itself comes first. -/
def wfArtifacts (chipCid : String) (tr : PipelineReceipt) : List (String × Json) :=
  ((tr.body.get "artifacts").bind Json.asObject).getD [] |>.filterMap
      (fun e => e.2.asStr.map fun cid => (e.1, Json.string cid)) |>.foldl
    (fun artifacts e => AssocMap.insertBack e.1 e.2 artifacts) [("chip", .string chipCid)]

def stageWriteFinished (request : ParsedChipRequest) (wa tr : PipelineReceipt)
    (check : CheckResult) : Except PipelineError PipelineReceipt :=
  match chipCid rt.crypto request.body with
  | .error e => .error (.internal ("Chip CID: " ++ e))
  | .ok cid =>
    stageReceipt rt "WF" "ubl/wf" (wfBody out check.decision wa.bodyCid (some tr.bodyCid)
      (wfArtifacts cid tr) out.totalMsBeforeWf check.trace check.shortCircuited)

def finalizeAndSign (label : String) (receipt : UnifiedReceipt) :
    Except PipelineError UnifiedReceipt :=
  match rt.signDomain ({ receipt with sig := "" } : UnifiedReceipt).toJson with
  | .error e => .error (.signError (label ++ " failed: " ++
      receiptErrorText (.signature e)))
  | .ok sig => .ok { receipt with sig := sig }

/-- One `store_executed_chip`; what it answers is left to the caller. -/
def put (site : StoreSite) (data : Json) (receiptCid : String) (metadata : ExecutionMetadata) :
    Process (Except ChipStoreError String) :=
  .atomic (.put site) fun s =>
    let stored := storeExecutedChip rt.lib (out.storedAt site) (out.putFault site) data receiptCid
      metadata s.chips
    (.ok stored.1, { s with chips := stored.2 })

/-- `store_audit_artifact`. -/
def storeArtifact (i : Nat) (artifact : Artifact) : Process Unit := do
  let expected ← Prog.ofExcept <| match chipCid rt.crypto artifact.payload with
    | .error e => .error (.internal (artifact.encodeError ++ e))
    | .ok cid => .ok cid
  match ← put rt out (.artifact i) artifact.payload "self" artifact.metadata with
  | .error e => .fail (.storageError (artifact.storeError ++ e.text))
  | .ok cid =>
    if cid ≠ expected then
      .fail (.internal ("artifact CID mismatch: expected " ++ expected ++ ", got " ++ cid))
    else pure ()

def storeArtifacts (i : Nat) : List Artifact → Process Unit
  | [] => pure ()
  | artifact :: artifacts => do
    storeArtifact rt out i artifact
    storeArtifacts (i + 1) artifacts

def stageTransition (request : ParsedChipRequest) (check : CheckResult) :
    Process PipelineReceipt := do
  let transition ← Prog.reads .transition fun s =>
    match out.transitionFault with
    | some e => .error e
    | none => rt.stageTransition (chipStore rt s) request check
  storeArtifacts rt out 0 transition.artifacts
  Prog.ofExcept transition.receipt

def advisoryMetadata (runtimeVersion : String) : ExecutionMetadata where
  runtimeVersion := runtimeVersion
  executionTimeMs := 0
  fuelConsumed := 0
  policiesApplied := []
  executorDid := "did:key:advisory"
  reproducible := false

/-- An advisory hook: the body is made at once, and a spawned task stores it. -/
def advise (site : StoreSite) (runtimeVersion : String) (advisory : AdvisoryEngine → Advisory) :
    Process Unit :=
  match rt.advisoryEngine, rt.hasChipStore with
  | some engine, true => .modify (.put site) fun s =>
    let body := (advisory engine).toChipBody (nextId s.advisoryCounter) engine.world
    let s := { s with advisoryCounter := s.advisoryCounter + 1 }
    if out.taskRuns site then
      { s with chips := (storeExecutedChip rt.lib (out.storedAt site) (out.putFault site) body
          "self" (advisoryMetadata runtimeVersion) s.chips).2 }
    else s
  | _, _ => pure ()

/-! ## Persistence -/

def executionMetadata (runtimeVersion : String) (check : CheckResult) : ExecutionMetadata where
  runtimeVersion := runtimeVersion
  executionTimeMs := out.totalMs
  fuelConsumed := rt.fuelLimit
  policiesApplied := check.trace.map PolicyTraceEntry.policyId
  executorDid := rt.did
  reproducible := true

/-- The new secret takes the place of the current one; what that was is answered. -/
def rotateStageSecrets (newSecret : String) : Process (Option String) :=
  .atomic .rotate fun s =>
    let prev := some s.stageSecrets.current
    (.ok prev, { s with stageSecrets := ⟨newSecret, prev⟩ })

def putStageSecrets (secrets : StageSecrets) : Process Unit :=
  .atomic .putSecrets fun s =>
    match s.durable.putStageSecrets out.secretsFault secrets with
    | (.error e, d) =>
      (.error (.storageError ("stage secret persist: " ++ e.text)), { s with durable := d })
    | (.ok (), d) => (.ok (), { s with durable := d })

def rotationError (e : KeyRotationError) : PipelineError := .internal ("Key rotation: " ++ e.text)

/-- What follows for `ubl/key.rotate` when its chip has been handed to the store. -/
def rotateKey (request : ParsedChipRequest) (check : CheckResult) (receiptCid : String)
    (stored : Except ChipStoreError String) : Process Unit := do
  let rotationChipCid ← Prog.ofExcept <| match stored with
    | .error e => .error (.storageError ("key.rotate store: " ++ e.text))
    | .ok cid => .ok cid
  let req ← Prog.ofExcept <| match KeyRotateRequest.parse request.body with
    | .error e => .error (.invalidChip ("Key rotation: " ++ e.text))
    | .ok req => .ok req
  let material ← Prog.ofExcept <|
    (deriveMaterial rt.crypto rt.kms req request.body rt.signingSeed).mapError rotationError
  let mapping := mappingChip rt.crypto out.mappingCreatedAt request.world rotationChipCid receiptCid
    req.reason material
  match ← put rt out .mapping mapping receiptCid (executionMetadata rt out "key_rotation/0.1" check) with
  | .error e => .fail (.storageError ("key.rotate mapping store: " ++ e.text))
  | .ok _ =>
    let newSk ← Prog.ofExcept <| match deriveNewSigningKey rt.crypto request.body rt.signingSeed with
      | .error e => .error (.internal ("key rotation new key: " ++ e.text))
      | .ok sk => .ok sk
    let newSecret := deriveStageSecret rt.crypto newSk
    let prev ← rotateStageSecrets newSecret
    if rt.hasDurableStore then putStageSecrets out ⟨newSecret, prev⟩ else pure ()

/-- The chip goes to the chip store; for `ubl/key.rotate` a failure there is fatal. -/
def persistChip (request : ParsedChipRequest) (check : CheckResult) (receiptCid : String) :
    Process Unit :=
  if rt.hasChipStore then do
    let stored ← put rt out .body request.body receiptCid
      (executionMetadata rt out "ubl_vm/0.1" check)
    if request.chipType = "ubl/key.rotate" then rotateKey rt out request check receiptCid stored
    else pure ()
  else if request.chipType = "ubl/key.rotate" then
    .fail (.storageError "ubl/key.rotate requires ChipStore persistence")
  else pure ()

def commitInput (idemKey : Option IdempotencyKey) (world : String) (result : PipelineResult) :
    CommitInput where
  receiptCid := result.receipt.receiptCid
  receiptJson := result.receipt.toJson
  did := rt.did
  kid := rt.kid
  rtHash := (result.receipt.rt.map RuntimeInfo.binaryHash).getD rt.runtimeInfo.binaryHash
  decision := decisionToWire result.decision
  idemKey := idemKey.map (IdempotencyKey.toDurableKey rt.crypto)
  chain := result.chain
  outboxEvents := [⟨"emit_receipt", .object [
    ("receipt_cid", .string result.receipt.receiptCid),
    ("decision", .string (decisionToWire result.decision)), ("world", .string world)]⟩]
  createdAt := out.committedAt
  failAfterReceiptWrite := false

def cachedResult (result : PipelineResult) : CachedResult where
  receiptCid := result.receipt.receiptCid
  responseJson := result.receipt.toJson
  decision := decisionToWire result.decision
  chain := result.chain
  createdAt := out.cachedAt

def persistFinalResult (idemKey : Option IdempotencyKey) (world : String)
    (result : PipelineResult) : Process Unit :=
  if rt.hasDurableStore then
    .atomic .commit fun s =>
      match s.durable.commitWfAtomically .values out.commitFault
        (commitInput rt out idemKey world result) with
      | (.ok (), d) => (.ok (), { s with durable := d })
      | (.error (.idempotencyConflict e), d) =>
        (.error (.idempotencyConflict e), { s with durable := d })
      | (.error e, d) => (.error (.durableCommitFailed e.text), { s with durable := d })
  else
    match idemKey with
    | none => pure ()
    | some key => .modify .commit fun s =>
      { s with idempotency := (key, cachedResult out result) :: s.idempotency }

/-! ## The request -/

/-- A denial: the receipt is denied, finished, signed and committed. -/
def finishDenied (request : ParsedChipRequest) (idemKey : IdempotencyKey) (wa : PipelineReceipt)
    (check : CheckResult) (receipt : UnifiedReceipt) : Process PipelineResult := do
  let receipt ← Prog.reads .deny fun s => .ok
    (receipt.denyWithSecrets rt.crypto check.reason (some s.stageSecrets.current))
  let wf ← Prog.ofExcept (createDenyReceipt rt out wa check)
  let receipt ← appendStageReceipt rt "WF(DENY)" { stageExecution out .writeFinished wa.bodyCid
    (some wf.bodyCid) out.denyMs with policyTrace := timedTrace out check.trace } receipt
  let receipt ← Prog.ofExcept (finalizeAndSign rt "WF(DENY) sign" receipt)
  let result : PipelineResult := ⟨wf, [wa.bodyCid, "no-tr", wf.bodyCid], .deny, receipt, false⟩
  persistFinalResult rt out (some idemKey) request.world result
  pure result

/-- The stage entry of TR, with what the VM reports in the body. -/
def transitionStage (wa tr : PipelineReceipt) : StageExecution :=
  { stageExecution out .transition wa.bodyCid (some tr.bodyCid) (out.durationMs .transition) with
    fuelUsed := ((tr.body.get "vm_state").bind (·.get "fuel_used")).bind Json.asU64
    vmSig := (tr.body.get "vm_sig").bind Json.asStr
    vmSigPayloadCid := (tr.body.get "vm_sig_payload_cid").bind Json.asStr }

/-- TR, WF, the signature, and then everything that is written. -/
def finishAllowed (request : ParsedChipRequest) (idemKey : IdempotencyKey) (wa : PipelineReceipt)
    (check : CheckResult) (receipt : UnifiedReceipt) : Process PipelineResult := do
  let tr ← stageTransition rt out request check
  let receipt ← appendStageReceipt rt "TR" (transitionStage out wa tr) receipt
  let wf ← Prog.ofExcept (stageWriteFinished rt out request wa tr check)
  let receipt ← appendStageReceipt rt "WF" (stageExecution out .writeFinished tr.bodyCid
    (some wf.bodyCid) (out.durationMs .writeFinished)) receipt
  let receipt ← Prog.ofExcept (finalizeAndSign rt "WF finalize/sign" receipt)
  persistChip rt out request check receipt.receiptCid
  advise rt out .postWf "advisory/post-wf" fun engine =>
    engine.postWfAdvisory wf.bodyCid request.chipType "allow" out.totalMs
  let result : PipelineResult :=
    ⟨wf, [wa.bodyCid, tr.bodyCid, wf.bodyCid], check.decision, receipt, false⟩
  persistFinalResult rt out (some idemKey) request.world result
  pure result

/-- The way of a request that is not a replay. -/
def execute (ctx : AuthorshipContext) (request : ParsedChipRequest) (idemKey : IdempotencyKey) :
    Process PipelineResult := do
  markNonce rt out
  let receipt := newReceipt rt out request.world
    (ctx.subjectDidHint.getD (rt.resolveSubjectDid request.body))
    (ctx.knockCid.getD (rt.knockCidFromValue request.body))
  let wa ← stageWriteAhead rt out request
  let receipt ← appendStageReceipt rt "WA" (stageExecution out .writeAhead wa.bodyCid
    (some wa.bodyCid) (out.durationMs .writeAhead)) receipt
  let check ← stageCheck rt out request
  let receipt ← appendStageReceipt rt "CHECK" { stageExecution out .check wa.bodyCid none
    (out.durationMs .check) with policyTrace := timedTrace out check.trace } receipt
  advise rt out .postCheck "advisory/post-check" fun engine =>
    engine.postCheckAdvisory wa.bodyCid (if check.decision = .deny then "deny" else "allow")
      check.reason check.trace.length
  if check.decision = .deny then finishDenied rt out request idemKey wa check receipt
  else finishAllowed rt out request idemKey wa check receipt

def processChipWithContext (ctx : AuthorshipContext) (request : ChipRequest) :
    Process PipelineResult := do
  let parsed ← Prog.ofExcept (ParsedChipRequest.parse rt.crypto.text request)
  let idemKey ← Prog.ofExcept (idemKeyOf parsed.body)
  match ← lookup rt out idemKey with
  | some cached => pure (replay rt out cached)
  | none => execute rt out ctx parsed idemKey

/-- The members that a rejection at KNOCK adds to the effects. -/
def knockEffects (reasonCode knockCid : String) (receipt : UnifiedReceipt) : UnifiedReceipt :=
  { receipt with
    effects := UnifiedReceipt.insertMember "knock_cid" (.string knockCid)
      (UnifiedReceipt.insertMember "reason_code" (.string reasonCode) receipt.effects)
    effects_distinct := UnifiedReceipt.insertMember_distinct _ (.string _ trivial)
      (UnifiedReceipt.insertMember_distinct _ (.string _ trivial) receipt.effects_distinct) }

/-- `anonymous` is the DID of a request without a body. -/
def processKnockRejection (knockCid reasonCode reason anonymous : String)
    (subjectDidHint : Option String) : Process PipelineResult := do
  let receipt := { newReceipt rt out "ubl/system" (subjectDidHint.getD anonymous) knockCid with
    receiptType := "ubl/knock.deny.v1" }
  let receipt ← appendStageReceipt rt "KNOCK(DENY)" (stageExecution out .knock knockCid
    (some knockCid) 0) receipt
  let receipt := knockEffects reasonCode knockCid receipt
  let receipt ← Prog.reads .deny fun s => .ok
    (receipt.denyWithSecrets rt.crypto reason (some s.stageSecrets.current))
  let receipt ← appendStageReceipt rt "WF(KNOCK_DENY)" (stageExecution out .writeFinished knockCid
    none 0) receipt
  let receipt ← Prog.ofExcept (finalizeAndSign rt "WF(KNOCK_DENY) sign" receipt)
  let result : PipelineResult := ⟨⟨receipt.receiptCid, "ubl/wf", receipt.toJson⟩,
    [knockCid, "no-tr", receipt.receiptCid], .deny, receipt, false⟩
  persistFinalResult rt out none "ubl/system" result
  pure result

end Request

/-! ## A small runtime -/

section Sample

variable (fromJson : Json → Except String UnifiedReceipt)

/-- A stand-in for the hash: the sum of the bytes. -/
def sumHash (bytes : List UInt8) : List UInt8 :=
  [UInt8.ofNat (bytes.foldl (fun n b => n + b.toNat) 0)]

def sumCrypto : Crypto where
  text := Nrf.asciiText
  blake3 := sumHash
  keyed key bytes := sumHash (key.toList ++ bytes)
  debugChar _ := "?"

/-- A runtime that allows documents and denies everything else. -/
def sampleRuntime (hasDurableStore : Bool) : Runtime where
  lib := ⟨sumCrypto, fun _ => none⟩
  kms := ⟨fun _ => "did:key:z2", fun _ => "did:key:z2#ed25519", fun _ => "b3:02"⟩
  rfc3339 _ := ""
  fromJson := fromJson
  signDomain _ := .ok "ed25519:00"
  resolveSubjectDid _ := "did:ubl:anon"
  knockCidFromValue _ := "b3:0k"
  genesisChipCid := "b3:00"
  did := "did:key:z1"
  kid := "did:key:z1#ed25519"
  signingSeed := Receipt.paddedKey [1]
  runtimeInfo := ⟨"b3:00", "", "0", ⟨"", "", "", "", none, none⟩, .empty, .empty⟩
  fuelLimit := 1000000
  advisoryEngine := none
  hasChipStore := true
  hasDurableStore := hasDurableStore
  stageCheck _ request := .ok <|
    if request.chipType = "ubl/document" then ⟨.allow, "All policies allowed", false, []⟩
    else ⟨.deny, "type not allowed", true, []⟩
  stageTransition _ _ _ := .ok ⟨[], .ok ⟨"b3:01", "ubl/transition", .object []⟩⟩

/-- No store fails, and the nonces are the given ones. -/
def sampleOutside (nonce waNonce : String) : Outside where
  nonce := nonce
  waNonce := waNonce
  createdAt := "t"
  frozenTime := "t"
  timestamp _ := "t"
  durationMs _ := 0
  policyMs _ := 0
  rbNanos _ _ := 0
  denyMs := 0
  totalMsBeforeWf := 0
  totalMs := 0
  storedAt _ := "t"
  mappingCreatedAt := "t"
  nonceTime := 0
  committedAt := 0
  cachedAt := "t"
  idempotencyFault := none
  nonceFault := none
  checkFault := none
  transitionFault := none
  putFault _ := none
  taskRuns _ := true
  secretsFault := none
  commitFault := none

def sampleRequest (chipType : String) : ChipRequest where
  chipType := chipType
  body := .object [("@type", .string chipType), ("@id", .string "1"), ("@ver", .string "1"),
    ("@world", .string "a/x")]
  parents := []
  operation := none

def sampleState (secret : String) : PipelineState where
  chips := []
  stageSecrets := ⟨secret, none⟩
  idempotency := []
  durable := .empty Json
  seenNonces := []
  advisoryCounter := 0

end Sample

end Ubl.Pipeline
