import Ubl.Lib.Hex
import Ubl.Nrf.Normalize
import Ubl.Policy.Circuit

/-!
# `unified.rs`: the receipt that grows through the pipeline

A receipt is one document.  Each stage appended carries a token computed under the stage
secret from the CID the receipt had before, and `receiptCid` is recomputed after each append
from the canonical bytes of all fields but `sig`, `receiptCid` and `id`.  Verification replays
the appends on a shadow copy that starts with no stages.

`blake3` and `chrono` are outside the repository: the hashes are parameters (`Crypto`) and the
creation time is an argument of `new`.
-/

namespace Ubl

/-- `Number::from(i64)`. -/
def Number.ofI64 (i : Int64) : Number :=
  if h : i < 0 then .negInt i h else .posInt i.toUInt64

namespace Receipt

open Utf8 AssocMap ExceptLemmas
open Ubl.Policy (Decision)

/-! ## Data model -/

inductive PipelineStage where
  | knock
  | writeAhead
  | check
  | transition
  | writeFinished
deriving DecidableEq

/-- Also the serialised form. -/
def PipelineStage.asStr : PipelineStage → String
  | .knock => "KNOCK"
  | .writeAhead => "WA"
  | .check => "CHECK"
  | .transition => "TR"
  | .writeFinished => "WF"

@[ext] structure RbResult where
  rbId : String
  decision : Decision
  reason : String
  inputsUsed : List String
  durationNanos : UInt64

@[ext] structure PolicyTraceEntry where
  level : String
  policyId : String
  result : Decision
  reason : String
  rbResults : List RbResult
  durationMs : Int64

@[ext] structure StageExecution where
  stage : PipelineStage
  timestamp : String
  inputCid : String
  outputCid : Option String
  fuelUsed : Option UInt64
  policyTrace : List PolicyTraceEntry
  vmSig : Option String
  vmSigPayloadCid : Option String
  authToken : String
  durationMs : Int64

/-- `BTreeMap<String, String>`. -/
@[ext] structure Labels where
  entries : List (String × String)
  ascending : Ascending entries

def Labels.empty : Labels := ⟨[], List.Pairwise.nil⟩

@[ext] structure BuildMeta where
  rustc : String
  os : String
  arch : String
  profile : String
  gitCommit : Option String
  gitDirty : Option Bool

@[ext] structure RuntimeInfo where
  binaryHash : String
  runtimeHash : String
  version : String
  build : BuildMeta
  env : Labels
  certs : Labels

structure UnifiedReceipt where
  receiptType : String
  id : String
  ver : String
  world : String
  v : UInt32
  t : String
  did : String
  subjectDid : Option String
  kid : String
  nonce : String
  stages : List StageExecution
  decision : Decision
  effects : Json
  /-- `effects` is a `serde_json::Value`. -/
  effects_distinct : effects.DistinctKeys
  prevReceiptCid : Option String
  receiptCid : String
  sig : String
  knockCid : Option String
  rt : Option RuntimeInfo

/-! ## Serialisation -/

section ToJson

/-- A member that `skip_serializing_if` leaves out when there is nothing to write. -/
def optional (key : String) (value : Option Json) : List (String × Json) :=
  (value.map fun v => (key, v)).toList

def strings (items : List String) : Json := .array (items.map .string)

def stringOrNull : Option String → Json
  | none => .null
  | some s => .string s

/-- `skip_serializing_if = "Vec::is_empty"`, and the like for maps and strings. -/
def unlessEmpty {α : Type} (items : List α) (value : Json) : Option Json :=
  if items = [] then none else some value

def decisionJson (d : Decision) : Json := .string d.debug

def RbResult.toJson (r : RbResult) : Json :=
  .object [("rb_id", .string r.rbId), ("decision", decisionJson r.decision),
    ("reason", .string r.reason), ("inputs_used", strings r.inputsUsed),
    ("duration_nanos", .number (.posInt r.durationNanos))]

def PolicyTraceEntry.toJson (e : PolicyTraceEntry) : Json :=
  .object [("level", .string e.level), ("policy_id", .string e.policyId),
    ("result", decisionJson e.result), ("reason", .string e.reason),
    ("rb_results", .array (e.rbResults.map RbResult.toJson)),
    ("duration_ms", .number (.ofI64 e.durationMs))]

/-- `output_cid` is the one optional field that is written as null. -/
def StageExecution.toJson (s : StageExecution) : Json :=
  .object ([("stage", .string s.stage.asStr), ("timestamp", .string s.timestamp),
      ("input_cid", .string s.inputCid), ("output_cid", stringOrNull s.outputCid)] ++
    optional "fuel_used" (s.fuelUsed.map fun n => .number (.posInt n)) ++
    optional "policy_trace"
      (unlessEmpty s.policyTrace (.array (s.policyTrace.map PolicyTraceEntry.toJson))) ++
    optional "vm_sig" (s.vmSig.map .string) ++
    optional "vm_sig_payload_cid" (s.vmSigPayloadCid.map .string) ++
    [("auth_token", .string s.authToken), ("duration_ms", .number (.ofI64 s.durationMs))])

def Labels.toJson (l : Labels) : Json := .object (l.entries.map fun e => (e.1, .string e.2))

def BuildMeta.toJson (b : BuildMeta) : Json :=
  .object ([("rustc", .string b.rustc), ("os", .string b.os), ("arch", .string b.arch),
      ("profile", .string b.profile)] ++
    optional "git_commit" (b.gitCommit.map .string) ++
    optional "git_dirty" (b.gitDirty.map .bool))

def RuntimeInfo.toJson (rt : RuntimeInfo) : Json :=
  .object ([("binary_hash", .string rt.binaryHash)] ++
    optional "runtime_hash" (unlessEmpty rt.runtimeHash.toList (.string rt.runtimeHash)) ++
    [("version", .string rt.version), ("build", rt.build.toJson)] ++
    optional "env" (unlessEmpty rt.env.entries rt.env.toJson) ++
    optional "certs" (unlessEmpty rt.certs.entries rt.certs.toJson))

/-- `serde_json::to_value`; it cannot fail on these types. -/
def UnifiedReceipt.toJson (r : UnifiedReceipt) : Json :=
  .object ([("@type", .string r.receiptType), ("@id", .string r.id), ("@ver", .string r.ver),
      ("@world", .string r.world), ("v", .number (.posInt r.v.toUInt64)), ("t", .string r.t),
      ("did", .string r.did)] ++
    optional "subject_did" (r.subjectDid.map .string) ++
    [("kid", .string r.kid), ("nonce", .string r.nonce),
      ("stages", .array (r.stages.map StageExecution.toJson)),
      ("decision", decisionJson r.decision), ("effects", r.effects)] ++
    optional "prev_receipt_cid" (r.prevReceiptCid.map .string) ++
    [("receipt_cid", .string r.receiptCid), ("sig", .string r.sig)] ++
    optional "knock_cid" (r.knockCid.map .string) ++
    optional "rt" (r.rt.map RuntimeInfo.toJson))

end ToJson

/-! ## Hashes and keys -/

/-- The 32 bytes of a stage key. -/
abbrev Key := Vector UInt8 32

structure Crypto where
  text : Nrf.Text
  /-- `blake3::hash`. -/
  blake3 : List UInt8 → List UInt8
  /-- `blake3::Hasher::new_keyed`, `update`, `finalize`. -/
  keyed : Key → List UInt8 → List UInt8
  /-- `format!("{:?}", c)`. -/
  debugChar : Char → String

inductive ReceiptError where
  | serialization (text : String)
  | invalidStageOrder (text : String)
  | authChainBroken (text : String)
  | signature (text : String)
deriving DecidableEq

def STAGE_SECRET_ENV : String := "UBL_STAGE_SECRET"

def STAGE_SECRET_PREV_ENV : String := "UBL_STAGE_SECRET_PREV"

/-- `ubl_canon::cid_of`; the error is its text. -/
def cidOf (c : Crypto) (value : Json) : Except String String :=
  match Nrf.toNrf1Bytes c.text value with
  | .error e => .error ("NRF encoding failed: " ++ e.text)
  | .ok nrf => .ok ("b3:" ++ Hex.encode (c.blake3 nrf))

def hexErrorText (c : Crypto) : Hex.DecodeError → String
  | .oddLength => "Odd number of digits"
  | .invalidHexCharacter b index =>
    "Invalid character " ++ c.debugChar (Char.ofNat b.toNat) ++ " at position " ++ toString index

/-- Padded with zeros, or cut, to 32 bytes. -/
def paddedKey (key : List UInt8) : Key := Vector.ofFn fun i => key.getD i 0

theorem paddedKey_toList (key : Key) : paddedKey key.toList = key := by
  ext i hi
  simp [paddedKey]

def keyFromSecretStr (c : Crypto) (raw : String) : Except String Key :=
  if raw = "" then .error "secret is empty"
  else
    match "hex:".toList.isPrefixOf raw.toList with
    | true =>
      match Hex.decode (utf8 (String.ofList (raw.toList.drop 4))) with
      | .error e => .error ("hex decode failed: " ++ hexErrorText c e)
      | .ok bytes => .ok (paddedKey bytes)
    | false => .ok (paddedKey (utf8 raw))

/-- The tag is cut to 128 bits. -/
def computeAuthTokenWithKey (c : Crypto) (prevCid stageName : String) (key : Key) : String :=
  "hmac:" ++ Hex.encode ((c.keyed key (utf8 prevCid ++ utf8 "||" ++ utf8 stageName)).take 16)

/-! ## The receipt's operations -/

theorem noEffects_distinct : (Json.object []).DistinctKeys := .object [] List.nodup_nil (by simp)

/-- `t` is the current time. -/
def UnifiedReceipt.new (t world did kid nonce : String) : UnifiedReceipt where
  receiptType := "ubl/receipt"
  id := ""
  ver := "1.0"
  world := world
  v := 1
  t := t
  did := did
  subjectDid := none
  kid := kid
  nonce := nonce
  stages := []
  decision := .allow
  effects := .object []
  effects_distinct := noEffects_distinct
  prevReceiptCid := none
  receiptCid := ""
  sig := ""
  knockCid := none
  rt := none

namespace UnifiedReceipt

/-- What is hashed: the receipt without `sig`, `receiptCid` and `id`. -/
def payload (r : UnifiedReceipt) : Json :=
  toJson { r with sig := "", receiptCid := "", id := "" }

/-- A failure leaves the three fields empty, since they are restored only at the end. -/
def recomputeCid (c : Crypto) (r : UnifiedReceipt) : Except ReceiptError Unit × UnifiedReceipt :=
  match cidOf c r.payload with
  | .error e => (.error (.signature e), { r with sig := "", receiptCid := "", id := "" })
  | .ok newCid => (.ok (), { r with receiptCid := newCid, id := newCid })

/-- The CID that a stage is chained to. -/
def prevCid (r : UnifiedReceipt) : String :=
  if r.receiptCid = "" then "genesis" else r.receiptCid

/-- The copy that a replay starts from. -/
def shadow (r : UnifiedReceipt) : UnifiedReceipt := { r with stages := [], receiptCid := "", id := "" }

/-- The loop of `verify_auth_chain_with_keys` over the stages still to come. -/
def verifyStages (c : Crypto) (currentKey : Key) (previousKey : Option Key)
    (self : UnifiedReceipt) (shadow : UnifiedReceipt) :
    List StageExecution → Except ReceiptError Bool
  | [] => .ok (shadow.receiptCid == self.receiptCid)
  | stage :: rest =>
    let expectedCurrent :=
      computeAuthTokenWithKey c shadow.prevCid stage.stage.asStr currentKey
    let expectedPrevious :=
      previousKey.map fun k => computeAuthTokenWithKey c shadow.prevCid stage.stage.asStr k
    let tokenMatches :=
      stage.authToken == expectedCurrent || expectedPrevious == some stage.authToken
    if !tokenMatches then .ok false
    else
      match recomputeCid c { shadow with stages := shadow.stages ++ [stage] } with
      | (.error e, _) => .error e
      | (.ok (), shadow) => verifyStages c currentKey previousKey self shadow rest

def verifyAuthChainWithKeys (c : Crypto) (r : UnifiedReceipt) (currentKey : Key)
    (previousKey : Option Key) : Except ReceiptError Bool :=
  verifyStages c currentKey previousKey r r.shadow r.stages

/-- `Option<&str>` through `key_from_secret_str`, with `transpose`. -/
def optionalKey (c : Crypto) : Option String → Except String (Option Key)
  | none => .ok none
  | some raw => (keyFromSecretStr c raw).map some

def verifyAuthChainWithSecrets (c : Crypto) (r : UnifiedReceipt) (currentSecret : String)
    (previousSecret : Option String) : Bool :=
  match keyFromSecretStr c currentSecret with
  | .error _ => false
  | .ok currentKey =>
    match optionalKey c previousSecret with
    | .error _ => false
    | .ok previousKey => (verifyAuthChainWithKeys c r currentKey previousKey).toOption.getD false

def invalidSecret (name e : String) : ReceiptError :=
  .authChainBroken ("invalid " ++ name ++ " value: " ++ e)

def appendStageWithSecrets (c : Crypto) (currentSecret : String) (previousSecret : Option String)
    (stage : StageExecution) (r : UnifiedReceipt) : Except ReceiptError Unit × UnifiedReceipt :=
  match keyFromSecretStr c currentSecret with
  | .error e => (.error (invalidSecret STAGE_SECRET_ENV e), r)
  | .ok currentKey =>
    let token := computeAuthTokenWithKey c r.prevCid stage.stage.asStr currentKey
    match recomputeCid c { r with stages := r.stages ++ [{ stage with authToken := token }] } with
    | (.error e, r) => (.error e, r)
    | (.ok (), r) =>
      match optionalKey c previousSecret with
      | .error e => (.error (invalidSecret STAGE_SECRET_PREV_ENV e), r)
      | .ok previousKey =>
        match verifyAuthChainWithKeys c r currentKey previousKey with
        | .error e => (.error e, r)
        | .ok false => (.error (.authChainBroken "stage auth token mismatch after append"), r)
        | .ok true => (.ok (), r)

/-- The loop of `rebuild_auth_chain_with_current_key`; `none` when it gives up. -/
def rebuildStages (c : Crypto) (currentKey : Key) (shadow : UnifiedReceipt) :
    List StageExecution → Option (List StageExecution)
  | [] => some []
  | stage :: rest =>
    let token := computeAuthTokenWithKey c shadow.prevCid stage.stage.asStr currentKey
    let stage := { stage with authToken := token }
    match recomputeCid c { shadow with stages := shadow.stages ++ [stage] } with
    | (.error _, _) => none
    | (.ok (), shadow) => (rebuildStages c currentKey shadow rest).map (stage :: ·)

def rebuildAuthChainWithCurrentKey (c : Crypto) (currentSecret : Option String)
    (r : UnifiedReceipt) : UnifiedReceipt :=
  match currentSecret with
  | none => r
  | some secret =>
    match keyFromSecretStr c secret with
    | .error _ => r
    | .ok currentKey =>
      if r.stages = [] then r
      else
        match rebuildStages c currentKey r.shadow r.stages with
        | none => r
        | some rebuilt => { r with stages := rebuilt }

/-- `as_object_mut` and `insert`; anything but an object stays as it is. -/
def insertMember (key : String) (value : Json) : Json → Json
  | .object members => .object (insertBack key value members)
  | j => j

theorem insertMember_distinct (key : String) {value j : Json} (hvalue : value.DistinctKeys)
    (hj : j.DistinctKeys) : (insertMember key value j).DistinctKeys := by
  cases j with
  | object members =>
    simp only [Json.DistinctKeys, Json.everywhere_object] at hj
    refine .object _ (hj.1.insertBack key value) fun e he => ?_
    rcases mem_insertBack he with rfl | he
    · exact hvalue
    · exact hj.2 e he
  | _ => exact hj

theorem insertString_distinct (r : UnifiedReceipt) (key text : String) :
    (insertMember key (.string text) r.effects).DistinctKeys :=
  insertMember_distinct key (.string text trivial) r.effects_distinct

def denyWithSecrets (c : Crypto) (reason : String) (currentSecret : Option String)
    (r : UnifiedReceipt) : UnifiedReceipt :=
  let r := { r with
    decision := .deny
    effects := insertMember "deny_reason" (.string reason) r.effects
    effects_distinct := r.insertString_distinct "deny_reason" reason }
  let r := (recomputeCid c (rebuildAuthChainWithCurrentKey c currentSecret r)).2
  { r with id := r.receiptCid }

end UnifiedReceipt

end Receipt

end Ubl
