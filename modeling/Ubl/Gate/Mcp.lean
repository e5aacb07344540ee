import Ubl.Gate.RateLimit
import Ubl.Gate.Receipts
import Ubl.Gate.Scope
import Ubl.Pipeline.Gate
import Ubl.Pipeline.MetaChip

/-!
# `mcp.rs`: tools over JSON-RPC

`handleMcpRpcRequest` is the program of one call: its acts are the points where it touches what the
sessions share, and other requests may act between any two of them.  A WebSocket session makes one
call after the other under the scope of its token.  A tool that writes is refused unless the scope
has `write`, `mcp:write` or `*`, and a tool that is not refused writes only if it is such a one:

    no act of a session without these scopes changes the chips or the durable store
                                                                   (read_only_session_keeps)

What a chip that is submitted goes through is a parameter: `submitChipBytes` may be any program.
-/

namespace Ubl.Gate

open Chipstore Pipeline
open Pipeline.Serde
open Ubl.Vm (ExecError VmConfig VmEnv VmOutcome decodeStream)

/-! ## The state -/

/-- What the calls share. -/
structure McpState where
  pipeline : PipelineState
  /-- `McpTokenRateLimiter::buckets`. -/
  buckets : KeyTree String (List Instant)

structure McpWsAuth where
  tokenId : String
  scope : List String

/-- The kinds of acts of a call. -/
inductive McpAction where
  | checkToken
  | readChip
  | readReceipt
  | persistAdvisory
  | submit
deriving DecidableEq

/-- A panic ends the call. -/
inductive McpPanic where
  | panic

abbrev McpProcess := Prog McpAction McpState McpPanic

abbrev HeaderMap := List (String × String)

/-- The status and the payload. -/
abbrev McpReply := Nat × Json

structure ManifestType where
  chipType : String
  description : String
  requiredCap : Option String

/-- `AppState`, and what other crates do. -/
structure McpGate where
  rt : Runtime
  env : StageEnv
  vm : UblPipeline
  advisoryEngine : AdvisoryEngine
  /-- `McpTokenRateLimiter::per_minute`. -/
  perMinute : Nat
  /-- `manifest.to_mcp_manifest()["tools"]`. -/
  tools : Json
  chipTypes : List ManifestType
  /-- `serde_json::to_string`. -/
  toText : Json → String
  /-- `serde_json::from_str`. -/
  fromText : String → Except String Json
  /-- What `ExecError` displays. -/
  execErrorText : ExecError → String
  hexErrorText : Hex.DecodeError → String
  submitChipBytes : Option HeaderMap → Bool → List UInt8 → McpProcess McpReply

/-- What a call gets from outside. -/
structure McpOutside where
  now : Instant
  chipFault : Option ChipStoreError
  receiptFault : Option DurableError
  /-- The time of the narration. -/
  generatedAt : String
  storedAt : String
  putFault : Option PutFault
  /-- `err-tamper-` and the microseconds. -/
  tamperId : String
  /-- The acts that fit into the 30 s, where the call takes longer. -/
  deadline : Option Nat

/-! ## The limiter of the tokens -/

/-- 60 s. -/
def tokenWindow : Duration := 60 * 1000000000

/-- Seconds to wait where the token is limited. -/
def checkTokenBucket (perMinute : Nat) (now : Instant) (tokenId : String)
    (buckets : KeyTree String (List Instant)) : Option Nat × KeyTree String (List Instant) :=
  let bucket := ((buckets.get tokenId).getD []).dropWhile fun ts =>
    decide (tokenWindow ≤ durationSince now ts)
  if perMinute ≤ bucket.length then
    (some (match bucket.head? with
      | some oldest => (tokenWindow - durationSince now oldest) / 1000000000 + 1
      | none => 1), buckets.insert tokenId bucket)
  else (none, buckets.insert tokenId (bucket ++ [now]))

/-! ## Replies -/

def rpcCode (code : Int64) : Json := .number (.ofI64 code)

def mcpErrorValue (id : Json) (code : Int64) (message : String) (data : Option Json) : Json :=
  .object [("jsonrpc", .string "2.0"), ("id", id),
    ("error", .object ([("code", rpcCode code), ("message", .string message)] ++
      (data.map fun d => ("data", d)).toList))]

def rpcResult (id result : Json) : Json :=
  .object [("jsonrpc", .string "2.0"), ("id", id), ("result", result)]

/-- One text as the content of a result. -/
def textResult (id : Json) (text : String) : Json :=
  rpcResult id (.object [("content",
    .array [.object [("type", .string "text"), ("text", .string text)]])])

def replyError (id : Json) (code : Int64) (message : String) : McpReply :=
  (200, mcpErrorValue id code message none)

/-- The codes of each category, as they are written. -/
def mcpCodes : List (Int64 × List String) :=
  [(-32602, ["KNOCK_BODY_TOO_LARGE", "KNOCK_DEPTH_EXCEEDED", "KNOCK_ARRAY_TOO_LONG",
      "KNOCK_DUPLICATE_KEY", "KNOCK_INVALID_UTF8", "KNOCK_MISSING_ANCHOR", "KNOCK_NOT_OBJECT",
      "KNOCK_RAW_FLOAT", "KNOCK_MALFORMED_NUM", "KNOCK_NUMERIC_LITERAL_NOT_ALLOWED",
      "KNOCK_INPUT_NORMALIZATION", "KNOCK_SCHEMA_VALIDATION", "INVALID_CHIP", "CANON_ERROR",
      "FUEL_EXHAUSTED", "WASM_ABI_MISSING_VERSION", "WASM_ABI_UNSUPPORTED_VERSION",
      "WASM_ABI_INVALID_PAYLOAD", "WASM_VERIFY_HASH_MISMATCH", "WASM_VERIFY_SIGNATURE_INVALID",
      "WASM_VERIFY_TRUST_ANCHOR_MISMATCH", "WASM_DETERMINISM_VIOLATION",
      "WASM_RESOURCE_FUEL_EXHAUSTED", "WASM_RESOURCE_MEMORY_LIMIT", "WASM_RESOURCE_TIMEOUT",
      "WASM_RECEIPT_BINDING_MISSING_CLAIM", "TYPE_MISMATCH", "STACK_UNDERFLOW", "CAS_NOT_FOUND",
      "invalid_signature", "runtime_hash_mismatch"]),
    (-32001, ["UNAUTHORIZED", "SIGN_ERROR"]),
    (-32003, ["POLICY_DENIED", "WASM_CAPABILITY_DENIED", "WASM_CAPABILITY_DENIED_NETWORK"]),
    (-32004, ["NOT_FOUND", "DEPENDENCY_MISSING"]),
    (-32005, ["REPLAY_DETECTED", "idempotency_conflict", "TAMPER_DETECTED"]),
    (-32006, ["TOO_MANY_REQUESTS"]),
    (-32603, ["STORAGE_ERROR", "durable_commit_failed", "INTERNAL_ERROR"]),
    (-32000, ["UNAVAILABLE"])]

/-- `mcp_code` of the error code that is written so. -/
def mcpCodeOf (code : String) : Option Int64 :=
  (mcpCodes.find? fun category => code ∈ category.2).map Prod.fst

/-- `serde_json::from_value::<UblError>`: the code and the message. -/
def ublErrorOf (v : Json) : Option (Int64 × String) :=
  if isStruct 8 v then do
    let _ ← required Json.asStr v "@type" 0
    let _ ← required Json.asStr v "@id" 1
    let _ ← required Json.asStr v "@ver" 2
    let _ ← required Json.asStr v "@world" 3
    let code ← required (fun w => w.asStr.bind mcpCodeOf) v "code" 4
    let message ← required Json.asStr v "message" 5
    let _ ← required Json.asStr v "link" 6
    pure (code, message)
  else none

/-- The code for a status whose payload is no `UblError`. -/
def codeOfStatus (status : Nat) : Int64 :=
  if status = 429 then -32006
  else if status = 400 ∨ status = 422 then -32602
  else if status = 401 then -32001
  else if status = 403 then -32003
  else if status = 404 then -32004
  else if status = 409 then -32005
  else if status = 503 then -32000
  else -32603

/-- `UblError::to_json` of a tampered receipt. -/
def tamperJson (out : McpOutside) (e : TamperError) : Json :=
  .object [("@type", .string "ubl/error"), ("@id", .string out.tamperId), ("@ver", .string "1.0"),
    ("@world", .string "a/system/t/errors"), ("code", .string "TAMPER_DETECTED"),
    ("message", .string e.message),
    ("link", .string "https://docs.ubl.agency/errors#TAMPER_DETECTED"),
    ("details", .object [("receipt_cid", .string e.receiptCid), ("reason", .string e.reason)])]

/-! ## Names of tools -/

def canonicalToolName (name : String) : String :=
  if name = "ubl.chip.submit" then "ubl.deliver"
  else if name = "ubl.chip.get" then "ubl.query"
  else if name = "ubl.chip.verify" then "ubl.verify"
  else name

/-- An argument that is text, or the empty text. -/
def argStr (arguments : Json) (name : String) : String := (strField arguments name).getD ""

/-- `persist` is true: nothing else counts as true. -/
def wantsPersist (arguments : Json) : Bool :=
  ((arguments.get "persist").bind Json.asBool).getD false

def isWriteToolCall (toolName : String) (arguments : Json) : Bool :=
  if canonicalToolName toolName = "ubl.deliver" then true
  else if canonicalToolName toolName = "ubl.narrate" then wantsPersist arguments
  else false

def mcpScopeAllowsWrite (auth : McpWsAuth) : Bool :=
  scopeAllowsAny auth.scope ["write", "mcp:write"]

/-! ## The tools -/

section Tools

variable (g : McpGate) (out : McpOutside)

/-- `state.chip_store.get_chip`. -/
def readChip (cid : String) : McpProcess (Except ChipStoreError (Option StoredChip)) :=
  .reads .readChip fun s => .ok <| match out.chipFault with
    | some e => .error e
    | none => .ok (s.pipeline.chips.getChip cid)

def readChipByReceipt (cid : String) : McpProcess (Except ChipStoreError (Option StoredChip)) :=
  .reads .readChip fun s => .ok <| match out.chipFault with
    | some e => .error e
    | none => .ok (s.pipeline.chips.getChipByReceiptCid cid)

/-- `store.get_receipt`. -/
def readReceipt (cid : String) : McpProcess (Except DurableError (Option Json)) :=
  .reads .readReceipt fun s => .ok (s.pipeline.durable.getReceipt .values out.receiptFault cid)

def deliver (headers : Option HeaderMap) (trusted : Bool) (arguments id : Json) :
    McpProcess McpReply := do
  let chip := (arguments.get "chip").getD (.object [])
  let (status, payload) ← g.submitChipBytes headers trusted (g.vm.toVec chip)
  if 200 ≤ status ∧ status < 300 then pure (200, textResult id (g.toText payload))
  else
    let (code, message) := (ublErrorOf payload).getD (codeOfStatus status, "HTTP " ++ toString status)
    pure (200, mcpErrorValue id code message (some payload))

def chipNotFound (id : Json) (cid : String) : McpReply :=
  replyError id (-32004) ("Chip " ++ cid ++ " not found")

def receiptNotFound (id : Json) (cid : String) : McpReply :=
  replyError id (-32004) ("Receipt " ++ cid ++ " not found")

def missingArgument (id : Json) (name : String) : McpReply :=
  replyError id (-32602) ("missing required argument: " ++ name)

def query (arguments id : Json) : McpProcess McpReply := do
  let cid := argStr arguments "cid"
  match ← readChip out cid with
  | .error e => pure (replyError id (-32603) e.text)
  | .ok none => pure (chipNotFound id cid)
  | .ok (some chip) =>
    pure (200, textResult id (g.toText (.object [("cid", .string chip.cid),
      ("chip_type", .string chip.chipType), ("chip_data", chip.chipData),
      ("receipt_cid", .string chip.receiptCid)])))

def receipt (arguments id : Json) : McpProcess McpReply :=
  let cid := argStr arguments "cid"
  if cid = "" then pure (missingArgument id "cid")
  else if !g.rt.hasDurableStore then
    pure (replyError id (-32000) "receipt store unavailable")
  else do
    match ← readReceipt out cid with
    | .error e => pure (replyError id (-32603) e.text)
    | .ok none => pure (receiptNotFound id cid)
    | .ok (some receipt) => pure (200, textResult id (g.toText receipt))

def verify (arguments id : Json) : McpProcess McpReply := do
  let cid := argStr arguments "cid"
  match ← readChip out cid with
  | .error e => pure (replyError id (-32603) e.text)
  | .ok none => pure (chipNotFound id cid)
  | .ok (some chip) =>
    let verified := match chipCid g.rt.crypto chip.chipData with
      | .ok c => c == cid
      | .error _ => false
    pure (200, textResult id (g.toText (.object [("cid", .string cid), ("verified", .bool verified)])))

/-- `serde_json::to_value` of the metadata. -/
def metadataJson (m : ExecutionMetadata) : Json :=
  .object [("runtime_version", .string m.runtimeVersion),
    ("execution_time_ms", .number (.ofI64 m.executionTimeMs)),
    ("fuel_consumed", .number (.posInt m.fuelConsumed)),
    ("policies_applied", .array (m.policiesApplied.map .string)),
    ("executor_did", .string m.executorDid), ("reproducible", .bool m.reproducible)]

/-- The chip of a receipt whose chain has been checked, or that is not kept durably. -/
def tracedChip (cid : String) (id : Json) : McpProcess McpReply := do
  match ← readChipByReceipt out cid with
  | .error e => pure (replyError id (-32603) e.text)
  | .ok none => pure (receiptNotFound id cid)
  | .ok (some chip) =>
    pure (200, textResult id (g.toText (.object [("receipt_cid", .string cid),
      ("chip_cid", .string chip.cid), ("chip_type", .string chip.chipType),
      ("execution_metadata", metadataJson chip.executionMetadata)])))

def receiptTrace (arguments id : Json) : McpProcess McpReply :=
  let cid := argStr arguments "cid"
  if cid = "" then pure (missingArgument id "cid")
  else if !g.rt.hasDurableStore then tracedChip g out cid id
  else do
    match ← readReceipt out cid with
    | .error e => pure (replyError id (-32603) ("Receipt fetch failed: " ++ e.text))
    | .ok none => pure (receiptNotFound id cid)
    | .ok (some receiptJson) =>
      match verifyReceiptAuthChain g.rt g.env cid receiptJson with
      | .error e => pure (200, mcpErrorValue id (-32005) e.message (some (tamperJson out e)))
      | .ok () => tracedChip g out cid id

def cidOfValue (arguments id : Json) : McpReply :=
  let payload := (((arguments.get "value").or (arguments.get "json")).or
    (arguments.get "chip")).getD (.object [])
  match chipCid g.rt.crypto payload with
  | .error e => replyError id (-32602) ("CID compute failed: " ++ e)
  | .ok cid => (200, textResult id (g.toText (.object [("cid", .string cid)])))

/-- The machine of a call: it has a store of its own and no inputs. -/
def rbEnv : VmEnv PipelineCas where
  put := PipelineCas.put g.vm.blake3
  get := PipelineCas.get
  signJws _ := List.replicate 64 0
  canon := Vm.rho g.vm.text
  fromSlice := g.vm.fromSlice
  toVec := g.vm.toVec
  numFromValue := g.vm.numFromValue
  parseBigInt := g.vm.parseBigInt
  blake3 := g.vm.blake3
  verify := g.vm.verify
  base64 := g.vm.base64
  now := g.vm.now
  inputs := []
  bodySize := 0

def outcomeJson (outcome : VmOutcome) : Json :=
  .object [("rc_cid", Receipt.stringOrNull (outcome.rcCid.map Vm.Cid.text)),
    ("rc_sig", Receipt.stringOrNull outcome.rcSig),
    ("rc_payload_cid", Receipt.stringOrNull (outcome.rcPayloadCid.map Vm.Cid.text)),
    ("steps", .number (.posInt (UInt64.ofNat outcome.steps))),
    ("fuel_used", .number (.posInt (UInt64.ofNat outcome.fuelUsed))),
    ("trace_len", .number (.posInt (UInt64.ofNat outcome.trace.length)))]

def rbExecute (arguments id : Json) : McpProcess McpReply :=
  let bytecodeHex := argStr arguments "bytecode_hex"
  if bytecodeHex = "" then pure (missingArgument id "bytecode_hex")
  else
    let fuelLimit := max (((arguments.get "fuel_limit").bind Json.asU64).getD 1000000) 1
    match Hex.decode (Utf8.utf8 bytecodeHex) with
    | .error e => pure (replyError id (-32602) ("invalid bytecode_hex: " ++ g.hexErrorText e))
    | .ok bytecode =>
      match decodeStream bytecode with
      | .error e => pure (replyError id (-32602) ("invalid bytecode stream: " ++ e.text))
      | .ok instructions =>
        match Vm.run (rbEnv g) ⟨fuelLimit, false, true⟩ [] instructions with
        | .error .panic => .fail .panic
        | .error (.error e) =>
          pure (replyError id (-32602) ("rb execute failed: " ++ g.execErrorText e))
        | .ok (outcome, _) => pure (200, textResult id (g.toText (outcomeJson outcome)))

def narrationJson (receiptCid : String) (chip : StoredChip) : Json :=
  .object [("@type", .string "ubl/advisory.narration"), ("receipt_cid", .string receiptCid),
    ("chip_cid", .string chip.cid), ("chip_type", .string chip.chipType),
    ("decision", .string "allow"),
    ("world", .string ((strField chip.chipData "@world").getD "a/system/t/unknown")),
    ("policy_count",
      .number (.posInt (UInt64.ofNat chip.executionMetadata.policiesApplied.length))),
    ("latency_ms", .number (.ofI64 chip.executionMetadata.executionTimeMs)),
    ("fuel_consumed", .number (.posInt chip.executionMetadata.fuelConsumed)),
    ("summary", .string (chip.chipType ++ " processed as allow in " ++
      toString chip.executionMetadata.executionTimeMs ++ "ms (fuel " ++
      toString chip.executionMetadata.fuelConsumed ++ ", policies " ++
      toString chip.executionMetadata.policiesApplied.length ++ ").")),
    ("generated_at", .string out.generatedAt)]

/-- The advisory of a narration goes to the chip store. -/
def persistNarration (receiptCid : String) (chip : StoredChip) :
    McpProcess (Except ChipStoreError String) :=
  .atomic .persistAdvisory fun s =>
    let advisory : Advisory := ⟨g.advisoryEngine.passportCid, "narrate", receiptCid,
      narrationJson out receiptCid chip, 90, g.advisoryEngine.model, .onDemand⟩
    let stored := storeExecutedChip g.rt.lib out.storedAt out.putFault
      (advisory.toChipBody (nextId s.pipeline.advisoryCounter) g.advisoryEngine.world) receiptCid
      ⟨"advisory/on-demand", 0, 0, [], chip.executionMetadata.executorDid, true⟩ s.pipeline.chips
    (.ok stored.1, { s with pipeline := { s.pipeline with
      chips := stored.2, advisoryCounter := s.pipeline.advisoryCounter + 1 } })

def narrated (receiptCid : String) (chip : StoredChip) (advisoryCid : Option String) (id : Json) :
    McpReply :=
  (200, textResult id (g.toText (.object [("receipt_cid", .string receiptCid),
    ("narration", narrationJson out receiptCid chip),
    ("persisted_advisory_cid", Receipt.stringOrNull advisoryCid)])))

def narrate (arguments id : Json) : McpProcess McpReply :=
  let receiptCid := argStr arguments "cid"
  if receiptCid = "" then pure (missingArgument id "cid")
  else do
    match ← readChipByReceipt out receiptCid with
    | .error e => pure (replyError id (-32603) e.text)
    | .ok none => pure (receiptNotFound id receiptCid)
    | .ok (some chip) =>
      if wantsPersist arguments then do
        match ← persistNarration g out receiptCid chip with
        | .error e => pure (replyError id (-32603) ("narration persist failed: " ++ e.text))
        | .ok advisoryCid => pure (narrated g out receiptCid chip (some advisoryCid) id)
      else pure (narrated g out receiptCid chip none id)

def listTypes (id : Json) : McpReply :=
  (200, textResult id (g.toText (.array (g.chipTypes.map fun ct =>
    .object [("type", .string ct.chipType), ("description", .string ct.description),
      ("required_cap", Receipt.stringOrNull ct.requiredCap)]))))

def dispatchToolCall (toolName : String) (arguments id : Json) (headers : Option HeaderMap)
    (wsAuth : Option McpWsAuth) : McpProcess McpReply :=
  let tool := canonicalToolName toolName
  if tool = "ubl.deliver" then deliver g headers wsAuth.isSome arguments id
  else if tool = "ubl.query" then query g out arguments id
  else if tool = "ubl.receipt" then receipt g out arguments id
  else if tool = "ubl.verify" then verify g out arguments id
  else if tool = "ubl.receipt.trace" then receiptTrace g out arguments id
  else if tool = "ubl.cid" then pure (cidOfValue g arguments id)
  else if tool = "ubl.rb.execute" then rbExecute g arguments id
  else if tool = "ubl.narrate" then narrate g out arguments id
  else if tool = "registry.listTypes" then pure (listTypes g id)
  else pure (replyError id (-32601) ("Tool not found: " ++ toolName))

/-! ## Calls -/

/-- `tools/call`, under a token where the call comes over a WebSocket. -/
def toolsCall (params id : Json) (headers : Option HeaderMap) (wsAuth : Option McpWsAuth) :
    McpProcess McpReply := do
  let toolName := argStr params "name"
  let arguments := (params.get "arguments").getD (.object [])
  let dispatch := do
    match out.deadline with
    | none => dispatchToolCall g out toolName arguments id headers wsAuth
    | some n =>
      match ← (dispatchToolCall g out toolName arguments id headers wsAuth).within n with
      | some reply => pure reply
      | none => pure (200, mcpErrorValue id (-32000) "Tool call timed out (30s limit)"
          (some (.object [("timeout_seconds", .number (.posInt 30))])))
  match wsAuth with
  | none => dispatch
  | some auth =>
    let limited ← Prog.atomic .checkToken fun s =>
      let (retryAfter, buckets) := checkTokenBucket g.perMinute out.now auth.tokenId s.buckets
      (.ok retryAfter, { s with buckets := buckets })
    match limited with
    | some retryAfter =>
      pure (200, mcpErrorValue id (-32006)
        ("Rate limit exceeded for token; retry in " ++ toString retryAfter ++ "s")
        (some (.object [("retry_after_seconds", .number (.posInt (UInt64.ofNat retryAfter)))])))
    | none =>
      if isWriteToolCall toolName arguments && !mcpScopeAllowsWrite auth then
        pure (200, mcpErrorValue id (-32003) "token scope does not allow write tools"
          (some (.object [("tool", .string toolName), ("required_scope", .string "write|*")])))
      else dispatch

def handleMcpRpcRequest (rpc : Json) (headers : Option HeaderMap) (wsAuth : Option McpWsAuth) :
    McpProcess McpReply :=
  let id := (rpc.get "id").getD .null
  let method := argStr rpc "method"
  let params := (rpc.get "params").getD (.object [])
  if strField rpc "jsonrpc" ≠ some "2.0" then
    pure (400, mcpErrorValue id (-32600) "Invalid Request: missing jsonrpc 2.0" none)
  else if method = "tools/list" then pure (200, rpcResult id (.object [("tools", g.tools)]))
  else if method = "tools/call" then toolsCall g out params id headers wsAuth
  else pure (replyError id (-32601) ("Method not found: " ++ method))

end Tools

/-! ## Sessions -/

/-- What comes in over the socket. -/
inductive WsMessage where
  | text (s : String)
  | binary (bytes : List UInt8)
  | ping
  | pong
  | close
  | broken

/-- A message, what its call gets from outside, and whether its answer can be sent. -/
structure WsTurn where
  message : WsMessage
  out : McpOutside
  sent : Bool

section Sessions

variable (g : McpGate) (auth : McpWsAuth)

def parseError (message : String) : Json :=
  mcpErrorValue .null (-32700) ("Parse error: " ++ message) none

/-- The answer to a text, and whether the session goes on after it: an answer to a text that is no
JSON need not arrive. -/
def answerText (turn : WsTurn) (text : String) : McpProcess (Json × Bool) :=
  match g.fromText text with
  | .error e => pure (parseError e, true)
  | .ok rpc => do
    let (_, payload) ← handleMcpRpcRequest g turn.out rpc none (some auth)
    pure (payload, turn.sent)

/-- The answers of a session. -/
def mcpWsSession : List WsTurn → McpProcess (List Json)
  | [] => pure []
  | turn :: turns =>
    match turn.message with
    | .broken | .close => pure []
    | .pong => mcpWsSession turns
    | .ping => if turn.sent then mcpWsSession turns else pure []
    | .text text => do
      let (payload, goesOn) ← answerText g auth turn text
      if goesOn then do
        let answers ← mcpWsSession turns
        pure (payload :: answers)
      else pure [payload]
    | .binary bytes =>
      match Utf8.fromUtf8 bytes with
      | none => do
        let answers ← mcpWsSession turns
        pure (parseError "binary payload must be UTF-8 JSON-RPC text" :: answers)
      | some text => do
        let (payload, goesOn) ← answerText g auth turn text
        if goesOn then do
          let answers ← mcpWsSession turns
          pure (payload :: answers)
        else pure [payload]

end Sessions

/-! ## What a call may change -/

/-- The chips and the durable store are as before. -/
def Keeps (_ : McpAction) (s s' : McpState) : Prop :=
  s'.pipeline.chips = s.pipeline.chips ∧ s'.pipeline.durable = s.pipeline.durable

theorem keeps_refl (label : McpAction) (s : McpState) : Keeps label s s := ⟨rfl, rfl⟩

section Keeping

variable {g : McpGate} {out : McpOutside} {auth : McpWsAuth}

/-- An act that is no submission may leave everything as it is. -/
def AllowsLooks (F : McpAction → McpState → McpState → Prop) : Prop :=
  ∀ label s, label ≠ .submit → F label s s

theorem allowsLooks_keeps : AllowsLooks Keeps := fun label s _ => keeps_refl label s

section Looks

variable {F : McpAction → McpState → McpState → Prop}

theorem acts_pure {α : Type} (a : α) : (pure a : McpProcess α).Acts F := trivial

variable (hF : AllowsLooks F)

include hF

theorem acts_readChip (cid : String) : (readChip out cid).Acts F :=
  Prog.acts_atomic fun s => hF _ s nofun

theorem acts_readChipByReceipt (cid : String) : (readChipByReceipt out cid).Acts F :=
  Prog.acts_atomic fun s => hF _ s nofun

theorem acts_readReceipt (cid : String) : (readReceipt out cid).Acts F :=
  Prog.acts_atomic fun s => hF _ s nofun

theorem acts_query (arguments id : Json) : (query g out arguments id).Acts F := by
  refine (acts_readChip hF _).bind fun chip => ?_
  rcases chip with e | _ | chip <;> exact acts_pure _

theorem acts_receipt (arguments id : Json) : (receipt g out arguments id).Acts F := by
  unfold receipt
  dsimp only
  split_ifs
  · exact acts_pure _
  · exact acts_pure _
  · refine (acts_readReceipt hF _).bind fun receipt => ?_
    rcases receipt with e | _ | receipt <;> exact acts_pure _

theorem acts_verify (arguments id : Json) : (verify g out arguments id).Acts F := by
  refine (acts_readChip hF _).bind fun chip => ?_
  rcases chip with e | _ | chip <;> exact acts_pure _

theorem acts_tracedChip (cid : String) (id : Json) : (tracedChip g out cid id).Acts F := by
  refine (acts_readChipByReceipt hF _).bind fun chip => ?_
  rcases chip with e | _ | chip <;> exact acts_pure _

theorem acts_receiptTrace (arguments id : Json) :
    (receiptTrace g out arguments id).Acts F := by
  unfold receiptTrace
  dsimp only
  split_ifs
  · exact acts_pure _
  · exact acts_tracedChip hF _ _
  · refine (acts_readReceipt hF _).bind fun receipt => ?_
    rcases receipt with e | _ | receipt
    · exact acts_pure _
    · exact acts_pure _
    · dsimp only
      split
      · exact acts_pure _
      · exact acts_tracedChip hF _ _

omit hF in
theorem acts_rbExecute (arguments id : Json) : (rbExecute g arguments id).Acts F := by
  unfold rbExecute
  dsimp only
  split_ifs
  · exact acts_pure _
  · split
    · exact acts_pure _
    · split
      · exact acts_pure _
      · split
        · trivial
        · exact acts_pure _
        · exact acts_pure _

/-- A narration only looks, unless it is to be kept. -/
theorem acts_narrate {arguments : Json}
    (hpersist : wantsPersist arguments = false ∨ ∀ s t, F .persistAdvisory s t) (id : Json) :
    (narrate g out arguments id).Acts F := by
  unfold narrate
  dsimp only
  split_ifs with _ hkeep
  · exact acts_pure _
  · refine (acts_readChipByReceipt hF _).bind fun chip => ?_
    rcases chip with e | _ | chip
    · exact acts_pure _
    · exact acts_pure _
    · have hmay : ∀ s t, F .persistAdvisory s t := hpersist.resolve_left (by simp [hkeep])
      refine Prog.Acts.bind (Prog.acts_atomic fun s => hmay s _) fun stored => ?_
      cases stored <;> exact acts_pure _
  · refine (acts_readChipByReceipt hF _).bind fun chip => ?_
    rcases chip with e | _ | chip <;> exact acts_pure _

/-- A tool that delivers no chip. -/
theorem acts_dispatch_of_ne_deliver {toolName : String} {arguments : Json}
    (hdeliver : canonicalToolName toolName ≠ "ubl.deliver")
    (hnarrate : canonicalToolName toolName = "ubl.narrate" →
      wantsPersist arguments = false ∨ ∀ s t, F .persistAdvisory s t)
    (id : Json) (headers : Option HeaderMap) (wsAuth : Option McpWsAuth) :
    (dispatchToolCall g out toolName arguments id headers wsAuth).Acts F := by
  unfold dispatchToolCall
  dsimp only
  rw [if_neg hdeliver]
  split_ifs with _ _ _ _ _ _ hname
  · exact acts_query hF _ _
  · exact acts_receipt hF _ _
  · exact acts_verify hF _ _
  · exact acts_receiptTrace hF _ _
  · exact acts_pure _
  · exact acts_rbExecute _ _
  · exact acts_narrate hF (hnarrate hname) _
  · exact acts_pure _
  · exact acts_pure _

end Looks

/-- The classifier knows the tools that write. -/
theorem acts_dispatchToolCall {toolName : String} {arguments : Json}
    (hread : isWriteToolCall toolName arguments = false) (id : Json) (headers : Option HeaderMap)
    (wsAuth : Option McpWsAuth) :
    (dispatchToolCall g out toolName arguments id headers wsAuth).Acts Keeps := by
  unfold isWriteToolCall at hread
  split_ifs at hread with hdeliver hnarrate
  · exact acts_dispatch_of_ne_deliver allowsLooks_keeps hdeliver (fun _ => .inl hread) _ _ _
  · exact acts_dispatch_of_ne_deliver allowsLooks_keeps hdeliver (fun h => absurd h hnarrate) _ _ _

theorem acts_checkToken {α : Type} (f : McpState → α × KeyTree String (List Instant)) :
    (Prog.atomic .checkToken fun s => (.ok (f s).1, { s with buckets := (f s).2 }) :
      McpProcess α).Acts Keeps :=
  Prog.acts_atomic fun _ => ⟨rfl, rfl⟩

theorem acts_toolsCall (hscope : mcpScopeAllowsWrite auth = false) (params id : Json)
    (headers : Option HeaderMap) :
    (toolsCall g out params id headers (some auth)).Acts Keeps := by
  unfold toolsCall
  refine (acts_checkToken _).bind fun limited => ?_
  cases limited with
  | some retryAfter => exact acts_pure _
  | none =>
    dsimp only
    split_ifs with hwrite
    · exact acts_pure _
    · have hread : isWriteToolCall (argStr params "name")
          ((params.get "arguments").getD (.object [])) = false := by
        simpa [hscope] using hwrite
      have hdispatch := @acts_dispatchToolCall g out _ _ hread id headers (some auth)
      cases out.deadline with
      | none => exact hdispatch
      | some n =>
        refine (hdispatch.within n).bind fun reply => ?_
        cases reply <;> exact acts_pure _

theorem acts_handleMcpRpcRequest (hscope : mcpScopeAllowsWrite auth = false) (rpc : Json)
    (headers : Option HeaderMap) :
    (handleMcpRpcRequest g out rpc headers (some auth)).Acts Keeps := by
  unfold handleMcpRpcRequest
  dsimp only
  split_ifs
  · exact acts_pure _
  · exact acts_pure _
  · exact acts_toolsCall hscope _ _ _
  · exact acts_pure _

/-- The scopes that a write takes. -/
theorem mcpScopeAllowsWrite_eq_false : mcpScopeAllowsWrite auth = false ↔
    "write" ∉ auth.scope ∧ "mcp:write" ∉ auth.scope ∧ "*" ∉ auth.scope := by
  simp only [mcpScopeAllowsWrite, scopeAllowsAny, List.any_cons, List.any_nil, Bool.or_false,
    Bool.or_eq_false_iff, List.any_eq_false, beq_iff_eq, List.forall_mem_ne']
  tauto

/-- What no act of a program changes, a run does not change. -/
theorem Keeps.run {α : Type} {x : McpProcess α} (hx : x.Acts Keeps) (s : McpState) :
    Keeps .submit s (x.run s).2 :=
  hx.run (J := fun t => Keeps .submit s t)
    (fun _ _ _ hstep hs => ⟨hstep.1.trans hs.1, hstep.2.trans hs.2⟩) (keeps_refl _ s)

theorem acts_answerText (hscope : mcpScopeAllowsWrite auth = false) (turn : WsTurn)
    (text : String) : (answerText g auth turn text).Acts Keeps := by
  unfold answerText
  split
  · exact acts_pure _
  · exact (acts_handleMcpRpcRequest hscope _ _).bind fun _ => acts_pure _

theorem acts_mcpWsSession (hscope : mcpScopeAllowsWrite auth = false) (turns : List WsTurn) :
    (mcpWsSession g auth turns).Acts Keeps := by
  induction turns with
  | nil => exact acts_pure _
  | cons turn turns ih =>
    have hanswer (text : String) : (do
        let (payload, goesOn) ← answerText g auth turn text
        if goesOn then do
          let answers ← mcpWsSession g auth turns
          pure (payload :: answers)
        else pure [payload] : McpProcess (List Json)).Acts Keeps := by
      refine (acts_answerText hscope turn text).bind fun answer => ?_
      dsimp only
      split_ifs
      · exact ih.bind fun _ => acts_pure _
      · exact acts_pure _
    unfold mcpWsSession
    split
    · exact acts_pure _
    · exact acts_pure _
    · exact ih
    · split_ifs
      · exact ih
      · exact acts_pure _
    · exact hanswer _
    · split
      · exact ih.bind fun _ => acts_pure _
      · exact hanswer _

end Keeping

/-- A token without a scope to write changes neither the chips nor the durable store: in one call
over any state, in a whole session, and in no act of them, whatever other requests do in between. -/
theorem read_only_session_keeps (g : McpGate) (auth : McpWsAuth)
    (hscope : "write" ∉ auth.scope ∧ "mcp:write" ∉ auth.scope ∧ "*" ∉ auth.scope) :
    (∀ (out : McpOutside) (rpc : Json) (headers : Option HeaderMap) (s : McpState),
      ((handleMcpRpcRequest g out rpc headers (some auth)).run s).2.pipeline.chips =
        s.pipeline.chips ∧
      ((handleMcpRpcRequest g out rpc headers (some auth)).run s).2.pipeline.durable =
        s.pipeline.durable) ∧
      (∀ out rpc headers, (handleMcpRpcRequest g out rpc headers (some auth)).Acts Keeps) ∧
      ∀ turns, (mcpWsSession g auth turns).Acts Keeps := by
  have hwrite := mcpScopeAllowsWrite_eq_false.mpr hscope
  refine ⟨fun out rpc headers s => ?_, fun out rpc headers => ?_, fun turns => ?_⟩
  · exact Keeps.run (acts_handleMcpRpcRequest hwrite rpc headers) s
  · exact acts_handleMcpRpcRequest hwrite rpc headers
  · exact acts_mcpWsSession hwrite turns

/-! ## A narration that is to be kept -/

def sampleMcp : McpGate where
  rt := sampleRuntime (fun _ => .error "") true
  env := ⟨.error .notPresent, .error .notPresent⟩
  vm := samplePipeline ⟨[], fun _ => none⟩
  advisoryEngine := ⟨"b3:0p", "model", "a/system"⟩
  perMinute := 60
  tools := .array []
  chipTypes := []
  toText _ := ""
  fromText _ := .error ""
  execErrorText _ := ""
  hexErrorText _ := ""
  submitChipBytes _ _ _ := pure (200, .null)

def sampleMcpOutside : McpOutside := ⟨0, none, none, "t", "t", none, "err-tamper-0", none⟩

def narratedChip : StoredChip :=
  ⟨"b3:0c", "ubl/document", .object [], "b3:0r", "t", ⟨"", 0, 0, [], "did:key:z1", true⟩, [], []⟩

def sampleMcpState : McpState :=
  ⟨{ sampleState "s0" with chips := [⟨narratedChip, true⟩] }, .empty⟩

/-- `tools/call` of `ubl.narrate`. -/
def narrateCall (persist : Json) : Json :=
  .object [("jsonrpc", .string "2.0"), ("id", .null), ("method", .string "tools/call"),
    ("params", .object [("name", .string "ubl.narrate"),
      ("arguments", .object [("cid", .string "b3:0r"), ("persist", persist)])])]

/-- The text `true` is not taken for a flag. -/
theorem read_only_session_keeps_narrate :
    ((handleMcpRpcRequest sampleMcp sampleMcpOutside (narrateCall (.string "true")) none
      (some ⟨"t1", ["read"]⟩)).run sampleMcpState).2.pipeline.chips =
        sampleMcpState.pipeline.chips :=
  ((read_only_session_keeps sampleMcp ⟨"t1", ["read"]⟩ (by decide)).1 sampleMcpOutside
    (narrateCall (.string "true")) none sampleMcpState).1

set_option maxRecDepth 8000 in
example : ((handleMcpRpcRequest sampleMcp sampleMcpOutside (narrateCall (.bool true)) none
    (some ⟨"t1", ["mcp:write"]⟩)).run sampleMcpState).2.pipeline.chips.length = 2 := by
  with_unfolding_all rfl

end Ubl.Gate
