import Ubl.Nrf.FromJson
import Ubl.Silicon.Resolve
import Ubl.Vm.Canon

/-!
# Stage CHECK

`stageCheck` runs the type-specific pre-checks, enforces the `@silicon_gate` of the body and
evaluates the policy chain, genesis first.  The pre-checks and the policies attached to the
ancestors are parameters of the pipeline; durations are left out of the trace.
-/

namespace Ubl.Pipeline

open Utf8
open Ubl.Vm
open Ubl.Silicon (TextLib ChipStore gateCompile)
open Ubl.Policy

/-! ## Requests, results and errors -/

structure ChipRequest where
  chipType : String
  body : Json
  parents : List String
  operation : Option String

structure ParsedChipRequest where
  request : ChipRequest
  chipType : String
  chipId : Option String
  world : String

def ParsedChipRequest.body (request : ParsedChipRequest) : Json := request.request.body

inductive PipelineError where
  | knock (text : String)
  | policyDenied (text : String)
  | invalidChip (text : String)
  | dependencyMissing (text : String)
  | fuelExhausted (text : String)
  | typeMismatch (text : String)
  | stackUnderflow (text : String)
  | casNotFound (text : String)
  | replayDetected (text : String)
  | canonError (text : String)
  | signError (text : String)
  | storageError (text : String)
  | idempotencyConflict (text : String)
  | durableCommitFailed (text : String)
  | internal (text : String)
deriving DecidableEq

/-- How a stage ends when it does not return `Ok`. -/
inductive Stop where
  | error (e : PipelineError)
  | panic
deriving DecidableEq

structure PolicyTraceEntry where
  level : String
  policyId : String
  result : Decision
  reason : String
  rbResults : List RbResult

structure CheckResult where
  decision : Decision
  reason : String
  shortCircuited : Bool
  trace : List PolicyTraceEntry

/-! ## The genesis policy -/

section Genesis

/-- A bit that denies unless its condition holds. -/
def genesisRb (id name : String) (condition : Expression) (requiresContext : List String) :
    ReasoningBit :=
  ⟨id, name, condition, .allow, .deny, requiresContext⟩

def createTypeValidationRb : ReasoningBit :=
  genesisRb "type_validation" "Valid Chip Type"
    (.or [.typeEquals "ubl/app", .typeEquals "ubl/tenant", .typeEquals "ubl/user",
      .typeEquals "ubl/policy", .typeEquals "ubl/token", .typeEquals "ubl/invite",
      .typeEquals "ubl/ai.passport", .typeEquals "ubl/wasm.module", .typeEquals "ubl/verification",
      .typeEquals "ubl/advisory", .typeEquals "ubl/adapter", .typeEquals "ubl/membership",
      .typeEquals "ubl/revoke", .typeEquals "ubl/key.rotate", .typeEquals "ubl/document",
      .typeEquals "audit/report.request.v1", .typeEquals "audit/ledger.snapshot.request.v1",
      .typeEquals "ledger/segment.compact.v1", .typeEquals "audit/advisory.request.v1"])
    ["chip.@type"]

def createIdRequiredRb : ReasoningBit :=
  genesisRb "has_logical_id" "Has ID Field" (.contextHas "chip.id") ["chip.id"]

def createSizeLimitRb : ReasoningBit :=
  genesisRb "size_limit" "Body Size Limit" (.bodySizeLte 1048576) []

def createNoMaliciousContentRb : ReasoningBit :=
  genesisRb "no_malicious_content" "No Malicious Content"
    (.and [.not (.contextEquals "body.script" (.string "*")),
      .not (.contextEquals "body.query" (.string "DROP TABLE*"))]) []

def createGenesisCircuit : Circuit :=
  .mk "genesis_validation" "Genesis Validation Circuit"
    [createTypeValidationRb, createIdRequiredRb, createSizeLimitRb, createNoMaliciousContentRb]
    .sequential .all

def createGenesisPolicy : PolicyBit :=
  ⟨"ubl.genesis.v1", "UBL Genesis Policy", [createGenesisCircuit],
    ⟨["*"], ["create", "update"], "genesis"⟩⟩

end Genesis

/-! ## The store of a run -/

def hexDigit (n : Nat) : Char := "0123456789abcdef".toList.getD n '0'

def hexEncode (bytes : List UInt8) : String :=
  String.ofList (bytes.flatMap fun b => [hexDigit (b.toNat / 16), hexDigit (b.toNat % 16)])

/-- The entries by CID; the newest entry of a CID is the one that is found. -/
abbrev PipelineCas := List (String × List UInt8)

def PipelineCas.put (blake3 : List UInt8 → List UInt8) (cas : PipelineCas) (bytes : List UInt8) :
    PipelineCas × Cid :=
  let cid := "b3:" ++ hexEncode (blake3 bytes)
  ((cid, bytes) :: cas, ⟨cid⟩)

def PipelineCas.get (cas : PipelineCas) (cid : Cid) : Option (List UInt8) := cas.lookup cid.text

/-! ## The stage -/

structure UblPipeline where
  text : Nrf.Text
  lib : TextLib
  /-- `serde_json::from_slice`. -/
  fromSlice : List UInt8 → Option Json
  /-- `serde_json::to_vec`. -/
  toVec : Json → List UInt8
  /-- `serde_json::from_value::<Num>`. -/
  numFromValue : Json → Option Unc1.Num
  /-- `BigInt::from_str`. -/
  parseBigInt : String → Except String Int
  blake3 : List UInt8 → List UInt8
  verify : (pubkey sig msg : List UInt8) → Bool
  base64 : List UInt8 → String
  /-- `PipelineSigner::sign_jws`. -/
  signJws : List UInt8 → List UInt8
  now : Int64
  chipStore : Option ChipStore
  fuelLimit : UInt64
  /-- Onboarding, key rotation, audit and silicon validation. -/
  preChecks : ParsedChipRequest → Except PipelineError Unit
  /-- The policies attached to the ancestors of the request. -/
  attachedPolicies : ParsedChipRequest → Except String (List PolicyBit)

namespace UblPipeline

variable (p : UblPipeline)

/-- The machine of the gate: input 0 is the NRF encoding of the body. -/
def gateEnv (chipNrf : List UInt8) : VmEnv PipelineCas where
  put := PipelineCas.put p.blake3
  get := PipelineCas.get
  signJws := p.signJws
  canon := rho p.text
  fromSlice := p.fromSlice
  toVec := p.toVec
  numFromValue := p.numFromValue
  parseBigInt := p.parseBigInt
  blake3 := p.blake3
  verify := p.verify
  base64 := p.base64
  now := p.now
  inputs := [(PipelineCas.put p.blake3 [] chipNrf).2]
  bodySize := UInt64.ofNat chipNrf.length

def gateCas (chipNrf : List UInt8) : PipelineCas := (PipelineCas.put p.blake3 [] chipNrf).1

def gateConfig : VmConfig := ⟨p.fuelLimit, true, false⟩

/-- `vm.run(&instructions)` as the stage sets it up. -/
def gateRun (instructions : List Instr) (chipNrf : List UInt8) :
    Except Fault (VmOutcome × Machine PipelineCas) :=
  run (p.gateEnv chipNrf) p.gateConfig (p.gateCas chipNrf) instructions

/-- The value of `@silicon_gate`. -/
def gateCid (request : ParsedChipRequest) : Option String :=
  (request.body.get "@silicon_gate").bind Json.asStr

def gateDenied (gateCid reason : String) : CheckResult where
  decision := .deny
  reason := "@silicon_gate '" ++ gateCid ++ "' denied: " ++ reason
  shortCircuited := true
  trace := [⟨"silicon_gate", "silicon_gate:" ++ gateCid, .deny,
    "silicon gate denied: " ++ reason, []⟩]

/-- What the stage makes of the run of the gate. -/
def gateVerdict (gateCid : String) (r : Except Fault (VmOutcome × Machine PipelineCas)) :
    Except Stop (Option CheckResult) :=
  match r with
  | .error (.error (.deny reason)) => .ok (some (gateDenied gateCid reason))
  | .error .panic => .error .panic
  -- `if let Err(ExecError::Deny(reason))` has no other arm
  | _ => .ok none

/-- The gate of a request; `none` where the stage goes on to the policies. -/
def gateCheck (request : ParsedChipRequest) : Except Stop (Option CheckResult) :=
  match gateCid request, p.chipStore with
  | some cid, some store =>
    match gateCompile p.lib store cid with
    | .error e => .error (.error (.invalidChip ("@silicon_gate compile: " ++ e.text)))
    | .ok bytecode =>
      match decodeStream bytecode with
      | .error e => .error (.error (.internal ("@silicon_gate decode: " ++ e.text)))
      | .ok instructions =>
        match Nrf.toNrf1Bytes p.text request.body with
        | .error e => .error (.error (.internal ("@silicon_gate nrf: " ++ e.text)))
        | .ok chipNrf =>
          gateVerdict cid (p.gateRun instructions chipNrf)
  | _, _ => .ok none

/-- `load_policy_chain`: the genesis policy comes first. -/
def loadPolicyChain (request : ParsedChipRequest) : Except String (List PolicyBit) := do
  let attached ← p.attachedPolicies request
  .ok (createGenesisPolicy :: attached)

def policyResultToTrace (result : PolicyResult) : PolicyTraceEntry :=
  ⟨((result.policyId.toList.splitOn '.')[1]?.map String.ofList).getD "unknown", result.policyId,
    result.decision, result.reason, result.circuitResults.flatMap CircuitResult.rbResults⟩

/-- The loop over the policies; it stops at the first denial. -/
def policiesLoop (context : EvalContext) (trace : List PolicyTraceEntry) :
    List PolicyBit → CheckResult
  | [] => ⟨.allow, "All policies allowed", false, trace⟩
  | policy :: policies =>
    let result := policy.evaluate context
    let trace := trace ++ [policyResultToTrace result]
    if result.decision = .deny then ⟨.deny, result.reason, true, trace⟩
    else policiesLoop context trace policies

def evalContext (request : ParsedChipRequest) : EvalContext where
  chip := request.body
  bodySize := UInt64.ofNat (p.toVec request.body).length
  vars := ("chip.@type", .string request.chipType) ::
    (request.chipId.map fun id => ("chip.id", Json.string id)).toList

def evaluatePolicies (request : ParsedChipRequest) : Except Stop CheckResult :=
  match p.loadPolicyChain request with
  | .error e => .error (.error (.internal ("Policy loading: " ++ e)))
  | .ok policies => .ok (policiesLoop (p.evalContext request) [] policies)

def stageCheck (request : ParsedChipRequest) : Except Stop CheckResult :=
  match p.preChecks request with
  | .error e => .error (.error e)
  | .ok () =>
    match p.gateCheck request with
    | .error stop => .error stop
    | .ok (some result) => .ok result
    | .ok none => p.evaluatePolicies request

/-- The stage comes to its policies. -/
def GoesOn (request : ParsedChipRequest) : Prop :=
  p.preChecks request = .ok () ∧ p.gateCheck request = .ok none

end UblPipeline

end Ubl.Pipeline
