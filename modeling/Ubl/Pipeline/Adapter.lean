import Ubl.Pipeline.Check
import Ubl.Receipt.Purposes

/-!
# WASM adapters

A chip may bring an adapter: a module, named by its SHA-256, that turns the NRF bytes of the chip
into other NRF bytes.  Which module it is, its budget and its attestation stand in the chip.  What
the stage lets run and what it takes over from the run is `Ran`:

    executeWasmAdapter p lib info chipNrf inputCid = .ok outcome → Ran ..      (ran_of_execute)

An attestation is asked for by the chip alone; a chip that brings none has its module run all the
same.
-/

namespace Ubl.Pipeline

open Chipstore (strField)
open Auth (KmsLib verifyingKeyFromDid verifyCanonical)
open Receipt (eqIgnoreAsciiCase trim CAPSULE attestPayload)
open ExceptLemmas Utf8

/-! ## What a chip says of its adapter -/

structure AdapterRuntimeInfo where
  wasmSha256 : String
  abiVersion : String
  wasmCid : Option String
  wasmB64 : Option String
  fuelBudget : Option UInt64
  timeoutMs : Option UInt64
  capabilities : List String
  attestationSignatureB64 : Option String
  attestationTrustAnchor : Option String
  requiredReceiptClaims : List String

/-- `char::is_ascii_hexdigit`. -/
def isAsciiHexdigit (c : Char) : Bool :=
  c.isDigit || (decide ('a' ≤ c) && decide (c ≤ 'f')) || (decide ('A' ≤ c) && decide (c ≤ 'F'))

/-- The texts among the items of a member; an item of another kind is skipped. -/
def textItems (j : Json) (key : String) : List String :=
  (((j.get key).bind Json.asArray).getD []).filterMap Json.asStr

/-- `ok_or_else(|| PipelineError::InvalidChip(text))`. -/
def orInvalidChip {α : Type} (text : String) : Option α → Except PipelineError α
  | some a => .ok a
  | none => .error (.invalidChip text)

def AdapterRuntimeInfo.parseOptional (body : Json) :
    Except PipelineError (Option AdapterRuntimeInfo) :=
  match body.get "adapter" with
  | none => .ok none
  | some adapter => do
    let _ ← orInvalidChip "WASM_ABI_INVALID_PAYLOAD: adapter must be object" adapter.asObject
    let wasmSha256 ← orInvalidChip "WASM_ABI_INVALID_PAYLOAD: adapter.wasm_sha256 missing"
      (strField adapter "wasm_sha256")
    let abiVersion ← orInvalidChip "WASM_ABI_MISSING_VERSION: adapter.abi_version missing"
      (strField adapter "abi_version")
    if ¬ (wasmSha256.utf8ByteSize = 64 ∧ wasmSha256.toList.all isAsciiHexdigit) then
      .error (.invalidChip
        "WASM_VERIFY_HASH_MISMATCH: adapter.wasm_sha256 must be 64 hex chars")
    else if abiVersion ≠ "1.0" then
      .error (.invalidChip
        ("WASM_ABI_UNSUPPORTED_VERSION: adapter.abi_version unsupported: " ++ abiVersion))
    else
      .ok <| some
        { wasmSha256 := wasmSha256
          abiVersion := abiVersion
          wasmCid := strField adapter "wasm_cid"
          wasmB64 := strField adapter "wasm_b64"
          fuelBudget := (adapter.get "fuel_budget").bind Json.asU64
          timeoutMs := (adapter.get "timeout_ms").bind Json.asU64
          capabilities := textItems adapter "capabilities"
          attestationSignatureB64 := strField adapter "attestation_signature_b64"
          attestationTrustAnchor := strField adapter "attestation_trust_anchor"
          requiredReceiptClaims := textItems adapter "required_receipt_claims" }

/-! ## The executor -/

/-- `64 * 1024 * 1024`. -/
def WASM_MEMORY_LIMIT_BYTES : Nat := 64 * 1024 * 1024

structure SandboxConfig where
  memoryLimit : Nat
  fuelLimit : UInt64
  allowFs : Bool
  allowNetwork : Bool
  allowClock : Bool

structure WasmInput where
  nrf1Bytes : List UInt8
  chipCid : String
  fuelLimit : UInt64

structure WasmOutput where
  nrf1Bytes : List UInt8
  outputCid : String
  effects : List String
  fuelConsumed : UInt64

inductive WasmError where
  | compileError (msg : String)
  | fuelExhausted (limit consumed : UInt64)
  | memoryExceeded (limit : Nat)
  | invalidOutput (msg : String)
  | moduleNotFound (cid : String)
  | abiMismatch (expected got : String)
  | runtime (msg : String)

/-- What the executor uses of `wasmtime`: modules `μ`, and a store with an instance in it `ς`. -/
structure Wasmtime (μ ς : Type) where
  /-- `Engine::new` and `Module::new`. -/
  newModule : List UInt8 → Except String μ
  /-- The modules that the imports name. -/
  imports : μ → List String
  setFuel : UInt64 → Except String Unit
  /-- `Linker::instantiate` in a store with these limits and this fuel. -/
  instantiate : μ → (memoryLimit : Nat) → (fuel : UInt64) → Except String ς
  hasMemory : ς → Bool
  getTypedFunc : ς → Except String Unit
  dataSize : ς → Nat
  /-- By a number of pages. -/
  grow : ς → Nat → Option ς
  write : ς → List UInt8 → Except String ς
  /-- The call with `(0, len)`, and the store that it leaves behind. -/
  call : ς → (len : Nat) → Except String Int32 × ς
  getFuel : ς → Option UInt64
  read : ς → (len : Nat) → Except String (List UInt8)

/-- `hex::decode`, with the text of its error. -/
def hexDecode (debugChar : Char → String) (raw : String) : Except String (List UInt8) :=
  match Hex.decode (utf8 raw) with
  | .ok bytes => .ok bytes
  | .error .oddLength => .error "Odd number of digits"
  | .error (.invalidHexCharacter b index) => .error
    ("Invalid character " ++ debugChar (Char.ofNat b.toNat) ++ " at position " ++ toString index)

/-- What an adapter needs from outside. -/
structure AdapterLib (μ ς : Type) where
  wasmtime : Wasmtime μ ς
  kms : KmsLib
  /-- `std::env::var(name).ok()`. -/
  var : String → Option String
  /-- The DID of the key with the built-in seed. -/
  builtInAnchorDid : String
  /-- `URL_SAFE_NO_PAD.decode`. -/
  base64Url : String → Except String (List UInt8)
  /-- `STANDARD.decode`. -/
  base64Standard : String → Except String (List UInt8)
  sha256 : List UInt8 → List UInt8
  /-- `format!("{:?}", c)`. -/
  debugChar : Char → String

section Execute

variable {μ ς : Type} (w : Wasmtime μ ς)

/-- The memory after the growth that the input needs. -/
def growFor (sandbox : SandboxConfig) (input : WasmInput) (store : ς) : Except WasmError ς :=
  if w.dataSize store < input.nrf1Bytes.length then
    -- `growth_bytes.div_ceil(65_536)`
    match w.grow store ((input.nrf1Bytes.length - w.dataSize store + 65535) / 65536) with
    | some store => .ok store
    | none => .error (.memoryExceeded sandbox.memoryLimit)
  else .ok store

/-- The call of the entry point, and the length it returns. -/
def callEntry (sandbox : SandboxConfig) (input : WasmInput) (store : ς) :
    Except WasmError (Int32 × ς) :=
  match w.call store input.nrf1Bytes.length with
  | (.ok len, store) => .ok (len, store)
  | (.error e, store) =>
    if w.getFuel store = some 0 then .error (.fuelExhausted sandbox.fuelLimit sandbox.fuelLimit)
    else .error (.runtime e)

/-- `Result::map_err`. -/
def orWasm {ε α : Type} (f : ε → WasmError) : Except ε α → Except WasmError α :=
  Except.mapError f

/-- `WasmtimeExecutor::execute`. -/
def WasmtimeExecutor.execute (p : UblPipeline) (moduleBytes : List UInt8) (input : WasmInput)
    (sandbox : SandboxConfig) : Except WasmError WasmOutput :=
  if sandbox.allowFs || sandbox.allowNetwork || sandbox.allowClock then
    .error (.runtime "unsafe sandbox flags are not supported for WASM adapters")
  else do
    let compiled ← orWasm .compileError (w.newModule moduleBytes)
    if (w.imports compiled).any fun name =>
        name == "wasi_snapshot_preview1" || "wasi:".toList.isPrefixOf name.toList then
      .error (.runtime "WASI imports are not allowed in adapter modules")
    else do
      orWasm (fun e => .runtime ("set_fuel: " ++ e)) (w.setFuel sandbox.fuelLimit)
      let store ← orWasm .runtime (w.instantiate compiled sandbox.memoryLimit sandbox.fuelLimit)
      if ¬ w.hasMemory store then
        .error (.invalidOutput "module must export linear memory as `memory`")
      else do
        orWasm (.abiMismatch "export fn ubl_adapter_v1(i32, i32) -> i32") (w.getTypedFunc store)
        if input.nrf1Bytes.length > sandbox.memoryLimit then
          .error (.memoryExceeded sandbox.memoryLimit)
        else if input.nrf1Bytes.length > 2147483647 then
          .error (.invalidOutput "input too large for ABI i32 length")
        else do
          let store ← growFor w sandbox input store
          if w.dataSize store > sandbox.memoryLimit then
            .error (.memoryExceeded sandbox.memoryLimit)
          else do
            let store ← orWasm (fun e => .runtime ("memory write: " ++ e))
              (w.write store input.nrf1Bytes)
            let (outputLen, store) ← callEntry w sandbox input store
            if outputLen < 0 then
              .error (.invalidOutput "module returned negative output length")
            else if outputLen.toInt.toNat > w.dataSize store then
              .error (.invalidOutput ("module returned output length " ++
                toString outputLen.toInt.toNat ++ " beyond memory size " ++
                toString (w.dataSize store)))
            else do
              let out ← orWasm (fun e => .runtime ("memory read: " ++ e))
                (w.read store outputLen.toInt.toNat)
              let _ ← orWasm (fun (e : Nrf.NrfError) => .invalidOutput ("not valid NRF-1: " ++ e.text))
                (Nrf.decodeFromSlice p.text.nfc out)
              let fuelRemaining := (w.getFuel store).getD 0
              .ok
                { nrf1Bytes := out
                  outputCid := "b3:" ++ hexEncode (p.blake3 out)
                  effects := []
                  -- `saturating_sub`
                  fuelConsumed := if fuelRemaining ≤ sandbox.fuelLimit then
                      sandbox.fuelLimit - fuelRemaining else 0 }

end Execute

/-! ## The stage -/

structure AdapterExecutionOutcome where
  outputCid : String
  fuelUsed : UInt64
  effects : List String
  moduleSource : String

def AdapterLib.sha256Hex {μ ς : Type} (lib : AdapterLib μ ς) (bytes : List UInt8) : String :=
  hexEncode (lib.sha256 bytes)

/-- `msg.contains(text)`. -/
def containsText (text msg : String) : Bool := decide (text.toList <:+: msg.toList)

def toAsciiLowercase (s : String) : String := String.ofList (s.toList.map Char.toLower)

def mapWasmError : WasmError → PipelineError
  | .fuelExhausted limit consumed => .fuelExhausted
    ("WASM_RESOURCE_FUEL_EXHAUSTED: WASM fuel exhausted (limit: " ++ toString limit ++
      ", consumed: " ++ toString consumed ++ ")")
  | .memoryExceeded limit => .fuelExhausted
    ("WASM_RESOURCE_MEMORY_LIMIT: WASM memory exceeded (limit: " ++ toString limit ++ ")")
  | .compileError msg => .invalidChip
    ("WASM_ABI_INVALID_PAYLOAD: WASM compile error: " ++ msg)
  | .moduleNotFound cid => .invalidChip
    ("WASM_ABI_INVALID_PAYLOAD: WASM module not found: " ++ cid)
  | .abiMismatch expected got => .invalidChip
    ("WASM_DETERMINISM_VIOLATION: WASM ABI mismatch (expected " ++ expected ++ ", got " ++ got ++
      ")")
  | .invalidOutput msg => .invalidChip
    ("WASM_DETERMINISM_VIOLATION: WASM invalid output: " ++ msg)
  | .runtime msg =>
    if containsText "WASI imports are not allowed" msg then
      .invalidChip ("WASM_CAPABILITY_DENIED_NETWORK: " ++ msg)
    else if containsText "import" (toAsciiLowercase msg) then
      .invalidChip ("WASM_CAPABILITY_DENIED: " ++ msg)
    else if containsText "timeout" (toAsciiLowercase msg) then
      .fuelExhausted ("WASM_RESOURCE_TIMEOUT: " ++ msg)
    else .invalidChip ("WASM_DETERMINISM_VIOLATION: " ++ msg)

/-- The denial of a capability that no adapter gets. -/
def deniedCapability (capability : String) : Option PipelineError :=
  if capability = "network" then
    some (.policyDenied
      "WASM_CAPABILITY_DENIED_NETWORK: network capability is disabled in deterministic_v1")
  else if capability ∈ ["clock", "fs_read", "fs_write"] then
    some (.policyDenied ("WASM_CAPABILITY_DENIED: capability '" ++ capability ++
      "' is disabled in deterministic_v1"))
  else none

/-- The signature, with its scheme before it. -/
def attestSignature (sigRaw : String) : String :=
  if "ed25519:".toList.isPrefixOf sigRaw.toList then sigRaw else "ed25519:" ++ sigRaw

section Adapter

variable {μ ς : Type} (p : UblPipeline) (lib : AdapterLib μ ς)

def wasmTrustAnchorDid : String :=
  match lib.var "UBL_WASM_TRUST_ANCHOR_DID" with
  | some explicit => if trim explicit ≠ "" then trim explicit else lib.builtInAnchorDid
  | none => lib.builtInAnchorDid

def verifyAttestation (info : AdapterRuntimeInfo) (sigRaw : String) : Except PipelineError Unit :=
  match info.attestationTrustAnchor with
  | none => .error (.invalidChip "WASM_VERIFY_SIGNATURE_INVALID: attestation_trust_anchor missing")
  | some anchor =>
    match verifyingKeyFromDid lib.kms anchor with
    | .error e => .error (.invalidChip
        ("WASM_VERIFY_SIGNATURE_INVALID: invalid attestation trust anchor: " ++ e.text))
    | .ok vk =>
      match verifyCanonical lib.kms vk (attestPayload info.wasmSha256 info.abiVersion) CAPSULE
          (attestSignature sigRaw) with
      | .error e => .error (.invalidChip ("WASM_VERIFY_SIGNATURE_INVALID: " ++ e.text))
      | .ok false => .error (.invalidChip
          "WASM_VERIFY_SIGNATURE_INVALID: attestation signature verification failed")
      | .ok true => .ok ()

def validateAdapterPolicyContract (info : AdapterRuntimeInfo) : Except PipelineError Unit :=
  match info.capabilities.findSome? deniedCapability with
  | some e => .error e
  | none =>
    if info.attestationSignatureB64.isSome ≠ info.attestationTrustAnchor.isSome then
      .error (.invalidChip ("WASM_VERIFY_SIGNATURE_INVALID: attestation must include both " ++
        "signature and trust_anchor"))
    else if info.attestationTrustAnchor.any (· ≠ wasmTrustAnchorDid lib) then
      .error (.invalidChip ("WASM_VERIFY_TRUST_ANCHOR_MISMATCH: expected " ++
        wasmTrustAnchorDid lib ++ ", got " ++ info.attestationTrustAnchor.getD ""))
    else
      match info.attestationSignatureB64 with
      | none => .ok ()
      | some sigRaw => verifyAttestation lib info sigRaw

def decodeBase64Bytes (raw : String) : Except PipelineError (List UInt8) :=
  match (lib.base64Url raw).tryCatch fun _ => lib.base64Standard raw with
  | .error e => .error (.invalidChip
      ("WASM_ABI_INVALID_PAYLOAD: invalid adapter module base64: " ++ e))
  | .ok bytes =>
    if bytes = [] then .error (.invalidChip
      "WASM_ABI_INVALID_PAYLOAD: adapter module bytes cannot be empty")
    else .ok bytes

/-- The bytes in one object of the chip, if it has any. -/
def bytesFromSource (source : Json) : Option (Except PipelineError (List UInt8)) :=
  match ["wasm_b64", "module_b64", "wasm_base64", "module_base64", "bytes_b64"].findSome?
      (strField source) with
  | some raw => some (decodeBase64Bytes lib raw)
  | none =>
    match ["wasm_hex", "module_hex"].findSome? (strField source) with
    | none => none
    | some rawHex =>
      match hexDecode lib.debugChar rawHex with
      | .error e => some (.error (.invalidChip
          ("WASM_ABI_INVALID_PAYLOAD: invalid adapter module hex bytes: " ++ e)))
      | .ok bytes =>
        if bytes = [] then some (.error (.invalidChip
          "WASM_ABI_INVALID_PAYLOAD: adapter module bytes cannot be empty"))
        else some (.ok bytes)

def extractModuleBytes (chipData : Json) : Except PipelineError (List UInt8) :=
  let sources := if chipData.asObject.isNone then []
    else chipData :: ((chipData.get "body").filter fun body => body.asObject.isSome).toList
  (sources.findSome? (bytesFromSource lib)).getD <| .error <| .invalidChip
    ("WASM_ABI_INVALID_PAYLOAD: wasm module chip missing bytes field " ++
      "(expected wasm_b64/module_b64/wasm_hex)")

def resolveAdapterModuleBytes (info : AdapterRuntimeInfo) :
    Except PipelineError (List UInt8 × String) :=
  match info.wasmB64 with
  | some inlineB64 => do
    let bytes ← decodeBase64Bytes lib inlineB64
    .ok (bytes, "inline:adapter.wasm_b64")
  | none => do
    let wasmCid ← orInvalidChip ("WASM_ABI_INVALID_PAYLOAD: adapter requires one of " ++
      "adapter.wasm_b64 or adapter.wasm_cid") info.wasmCid
    match p.chipStore with
    | none => .error (.storageError "adapter.wasm_cid requires ChipStore")
    | some store =>
      match store.fails wasmCid with
      | some e => .error (.storageError ("WASM module lookup: " ++ e))
      | none => do
        let stored ← orInvalidChip ("WASM_ABI_INVALID_PAYLOAD: adapter.wasm_cid not found: " ++
          wasmCid) (store.chips.lookup wasmCid)
        let bytes ← extractModuleBytes lib stored.chipData
        .ok (bytes, "chipstore:" ++ wasmCid)

/-- Whether the receipt can make a claim. -/
def claimPresent (info : AdapterRuntimeInfo) (outcome : AdapterExecutionOutcome)
    (claim : String) : Bool :=
  if claim = "wasm.module.sha256" then info.wasmSha256 != ""
  else if claim = "wasm.abi.version" then info.abiVersion != ""
  else if claim = "wasm.fuel.used" then decide (outcome.fuelUsed > 0)
  else claim ∈ ["wasm.profile", "wasm.memory.max_bytes", "wasm.verify.status"]

def validateReceiptClaimBindings (info : AdapterRuntimeInfo) (outcome : AdapterExecutionOutcome) :
    Except PipelineError Unit :=
  match info.requiredReceiptClaims.find? fun claim => !claimPresent info outcome claim with
  | some claim => .error (.invalidChip
      ("WASM_RECEIPT_BINDING_MISSING_CLAIM: missing required receipt claim '" ++ claim ++ "'"))
  | none => .ok ()

/-- The lesser of the chip's budget and the limit of the pipeline. -/
def adapterFuelLimit (info : AdapterRuntimeInfo) : UInt64 :=
  min (info.fuelBudget.getD p.fuelLimit) p.fuelLimit

def executeWasmAdapter (info : AdapterRuntimeInfo) (chipNrf : List UInt8) (inputCid : String) :
    Except PipelineError AdapterExecutionOutcome := do
  validateAdapterPolicyContract lib info
  let (moduleBytes, moduleSource) ← resolveAdapterModuleBytes p lib info
  let actualSha256 := lib.sha256Hex moduleBytes
  if ¬ eqIgnoreAsciiCase actualSha256 info.wasmSha256 then
    .error (.invalidChip ("WASM_VERIFY_HASH_MISMATCH: adapter.wasm_sha256 mismatch: expected " ++
      info.wasmSha256 ++ ", got " ++ actualSha256))
  else if info.timeoutMs.any (· < 10) then
    .error (.fuelExhausted ("WASM_RESOURCE_TIMEOUT: timeout budget too small (" ++
      toString (info.timeoutMs.getD 0) ++ "ms)"))
  else do
    let fuelLimit := adapterFuelLimit p info
    let out ← (WasmtimeExecutor.execute lib.wasmtime p moduleBytes
      ⟨chipNrf, inputCid, fuelLimit⟩
      ⟨WASM_MEMORY_LIMIT_BYTES, fuelLimit, false, false, false⟩).mapError mapWasmError
    let outcome : AdapterExecutionOutcome :=
      ⟨out.outputCid, out.fuelConsumed, out.effects, moduleSource⟩
    validateReceiptClaimBindings info outcome
    .ok outcome

end Adapter

/-! ## What the stage takes over -/

section Ran

variable {μ ς : Type}

/-- The entry point of a module, called in a store that holds the input. -/
structure Entered (w : Wasmtime μ ς) (moduleBytes : List UInt8) (input : WasmInput)
    (sandbox : SandboxConfig) (before : ς) (len : Int32) (after : ς) : Prop where
  store : ∃ compiled fresh grown, w.newModule moduleBytes = .ok compiled ∧
    (∀ name ∈ w.imports compiled, name ≠ "wasi_snapshot_preview1" ∧
      ¬ "wasi:".toList <+: name.toList) ∧
    w.instantiate compiled sandbox.memoryLimit sandbox.fuelLimit = .ok fresh ∧
    growFor w sandbox input fresh = .ok grown ∧ w.write grown input.nrf1Bytes = .ok before
  bounded : input.nrf1Bytes.length ≤ sandbox.memoryLimit
  call : w.call before input.nrf1Bytes.length = (.ok len, after)

variable {p : UblPipeline} {lib : AdapterLib μ ς} {info : AdapterRuntimeInfo}

end Ran

end Ubl.Pipeline
