import Ubl.Silicon.Compile

/-!
# From stored chips to bytecode

`gateCompile` loads a `ubl/silicon.chip`, follows its circuits and their entries through the
chip store and compiles the graph it finds.  An entry may be a chip again; the chips on the
way down are kept in `visiting`, so the descent ends: each level takes one more of the
stored chips.
-/

namespace Ubl.Silicon

open AssocMap
open Ubl.Policy (Decision)

/-! ## Reading conditions -/

theorem sizeOf_of_get {v w : Json} {k : String} (h : v.get k = some w) : sizeOf w < sizeOf v := by
  cases v with
  | object members =>
    have hmem := List.sizeOf_lt_of_mem (mem_of_lookup (show members.lookup k = some w from h))
    simp only [Prod.mk.sizeOf_spec] at hmem
    simp only [Json.object.sizeOf_spec]
    omega
  | _ => cases h

theorem sizeOf_of_asArray {v w : Json} {items : List Json} (h : v.asArray = some items)
    (hw : w ∈ items) : sizeOf w < sizeOf v := by
  cases v with
  | array items' =>
    obtain rfl : items' = items := Option.some.inj h
    have hmem := List.sizeOf_lt_of_mem hw
    simp only [Json.array.sizeOf_spec]
    omega
  | _ => cases h

/-- The value of a field that is an array, with the field's name for the termination argument. -/
theorem sizeOf_of_arrayField {v w : Json} {k : String} {items : List Json}
    (h : (v.get k).bind Json.asArray = some items) (hw : w ∈ items) : sizeOf w < sizeOf v := by
  obtain ⟨a, ha, hitems⟩ := Option.bind_eq_some_iff.mp h
  exact (sizeOf_of_asArray hitems hw).trans (sizeOf_of_get ha)

/-- `v.get(key).and_then(as).ok_or_else(MissingField(path))`. -/
def reqField {α : Type} (cast : Json → Option α) (v : Json) (key path : String) :
    Except SiliconError α :=
  match (v.get key).bind cast with
  | some a => .ok a
  | none => .error (.missingField path)

mutual

/-- `ConditionSpec::from_value`: the tagged form, else the compact one. -/
def conditionFromValue (v : Json) : Except SiliconError ConditionSpec :=
  match (v.get "op").bind Json.asStr with
  | some op => parseTagged op v
  | none =>
    match v.get "Always" with
    | some val =>
      match val.asBool with
      | some b => .ok (.always b)
      | none => .error (.invalidField "Always value must be bool")
    | none =>
      match (v.get "ContextHas").bind Json.asStr with
      | some key => .ok (.contextHas key)
      | none =>
        match (v.get "ContextEquals").bind Json.asArray with
        | some [key, value] =>
          match key.asStr with
          | some key => .ok (.contextEquals key value)
          | none => .error (.invalidField "ContextEquals key must be string")
        | some _ => .error (.invalidField "ContextEquals must be [key, value]")
        | none =>
          match (v.get "BodySizeLte").bind Json.asU64 with
          | some n => .ok (.bodySizeLte n)
          | none =>
            match (v.get "TypeEquals").bind Json.asStr with
            | some t => .ok (.typeEquals t)
            | none =>
              match hand : (v.get "And").bind Json.asArray with
              | some conditions => do
                let parsed ← conditions.attach.mapM fun ⟨c, hc⟩ =>
                  have := sizeOf_of_arrayField hand hc
                  conditionFromValue c
                .ok (.and parsed)
              | none =>
                match hor : (v.get "Or").bind Json.asArray with
                | some conditions => do
                  let parsed ← conditions.attach.mapM fun ⟨c, hc⟩ =>
                    have := sizeOf_of_arrayField hor hc
                    conditionFromValue c
                  .ok (.or parsed)
                | none =>
                  match hnot : v.get "Not" with
                  | some inner => do
                    have := sizeOf_of_get hnot
                    let condition ← conditionFromValue inner
                    .ok (.not condition)
                  | none => .error (.invalidField
                      "condition must have 'op' field or be a legacy compact object")
termination_by (sizeOf v, 1)

/-- `ConditionSpec::parse_tagged`. -/
def parseTagged (op : String) (v : Json) : Except SiliconError ConditionSpec :=
  if op = "always" then do
    let value ← reqField Json.asBool v "value" "condition.value"
    .ok (.always value)
  else if op = "context_has" then do
    let key ← reqField Json.asStr v "key" "condition.key"
    .ok (.contextHas key)
  else if op = "context_equals" then do
    let key ← reqField Json.asStr v "key" "condition.key"
    let value ← reqField some v "value" "condition.value"
    .ok (.contextEquals key value)
  else if op = "body_size_lte" then do
    let limit ← reqField Json.asU64 v "limit" "condition.limit"
    .ok (.bodySizeLte limit)
  else if op = "type_equals" then do
    let chipType ← reqField Json.asStr v "chip_type" "condition.chip_type"
    .ok (.typeEquals chipType)
  else if op = "and" then
    match h : (v.get "conditions").bind Json.asArray with
    | some conditions => do
      let parsed ← conditions.attach.mapM fun ⟨c, hc⟩ =>
        have := sizeOf_of_arrayField h hc
        conditionFromValue c
      .ok (.and parsed)
    | none => .error (.missingField "condition.conditions")
  else if op = "or" then
    match h : (v.get "conditions").bind Json.asArray with
    | some conditions => do
      let parsed ← conditions.attach.mapM fun ⟨c, hc⟩ =>
        have := sizeOf_of_arrayField h hc
        conditionFromValue c
      .ok (.or parsed)
    | none => .error (.missingField "condition.conditions")
  else if op = "not" then
    match h : v.get "condition" with
    | some inner => do
      have := sizeOf_of_get h
      let condition ← conditionFromValue inner
      .ok (.not condition)
    | none => .error (.missingField "condition.condition")
  else if op = "amount_lte" then do
    let field ← reqField Json.asStr v "field" "condition.field"
    let amount ← reqField Json.asI64 v "amount" "condition.amount"
    .ok (.amountLte field amount)
  else if op = "timestamp_within_secs" then do
    let field ← reqField Json.asStr v "field" "condition.field"
    let windowSecs ← reqField Json.asI64 v "window_secs" "condition.window_secs"
    .ok (.timestampWithinSecs field windowSecs)
  else .error (.invalidField ("unknown condition op: " ++ op))
termination_by (sizeOf v, 0)

end

/-! ## Reading chips -/

def reqStr (body : Json) (field : String) : Except SiliconError String :=
  reqField Json.asStr body field field

def parseDecision (lib : TextLib) (body : Json) (field : String) :
    Except SiliconError Decision := do
  let s ← reqStr body field
  let s := lib.toLowercase s
  if s = "allow" then .ok .allow
  else if s = "deny" then .ok .deny
  else if s = "require" then .ok .require
  else .error (.invalidField (field ++ " must be allow|deny|require, got '" ++ s ++ "'"))

/-- The strings of an array field; anything else is skipped, a missing field is empty. -/
def stringList (body : Json) (field : String) : List String :=
  (((body.get field).bind Json.asArray).map fun items => items.filterMap Json.asStr).getD []

def parseBit (lib : TextLib) (body : Json) : Except SiliconError SiliconBitBody := do
  let id ← reqStr body "id"
  let name ← reqStr body "name"
  let conditionVal ← reqField some body "condition" "condition"
  let condition ← conditionFromValue conditionVal
  let onTrue ← parseDecision lib body "on_true"
  let onFalse ← parseDecision lib body "on_false"
  .ok ⟨id, name, condition, onTrue, onFalse, stringList body "requires_context"⟩

/-- The elements of `field` as strings, the first that is none named by its index. -/
def stringItems (field : String) (idx : Nat) : List Json → Except SiliconError (List String)
  | [] => .ok []
  | v :: items =>
    match v.asStr with
    | none => .error (.invalidField (field ++ "[" ++ toString idx ++ "] must be string"))
    | some s => do
      let rest ← stringItems field (idx + 1) items
      .ok (s :: rest)

/-- The index of the first string that is no `b3:` CID. -/
def checkCids (field : String) (idx : Nat) : List String → Except SiliconError Unit
  | [] => .ok ()
  | cid :: cids =>
    if "b3:".toList.isPrefixOf cid.toList then checkCids field (idx + 1) cids
    else .error (.invalidField (field ++ "[" ++ toString idx ++ "] must be a CID (b3:...)"))

/-- The CIDs of `bits` and of `circuits`. -/
def parseCids (body : Json) (field : String) : Except SiliconError (List String) := do
  let items ← reqField Json.asArray body field field
  let cids ← stringItems field 0 items
  if cids.isEmpty then .error (.invalidField (field ++ " cannot be empty"))
  else do
    checkCids field 0 cids
    .ok cids

def parseCircuit (lib : TextLib) (body : Json) : Except SiliconError SiliconCircuitBody := do
  let id ← reqStr body "id"
  let name ← reqStr body "name"
  let bits ← parseCids body "bits"
  let composition ← reqStr body "composition"
  let aggregator ← reqStr body "aggregator"
  let circuit : SiliconCircuitBody := ⟨id, name, bits, composition, aggregator⟩
  let _ ← circuit.compositionMode lib
  let _ ← circuit.aggregationMode lib
  .ok circuit

structure HalProfile where
  profile : String
  targets : List String
  deterministic : Bool
  timebaseNs : Option UInt64
  energyUnit : Option String
  costUnit : Option String

def HalProfile.fromValue (v : Json) : Except SiliconError HalProfile := do
  let profile ← reqField Json.asStr v "profile" "hal.profile"
  .ok ⟨profile, stringList v "targets", ((v.get "deterministic").bind Json.asBool).getD true,
    (v.get "timebase_ns").bind Json.asU64, (v.get "energy_unit").bind Json.asStr,
    (v.get "cost_unit").bind Json.asStr⟩

structure SiliconChipBody where
  id : String
  name : String
  circuits : List String
  hal : HalProfile
  version : String

def parseChip (body : Json) : Except SiliconError SiliconChipBody := do
  let id ← reqStr body "id"
  let name ← reqStr body "name"
  let circuits ← parseCids body "circuits"
  let halVal ← reqField some body "hal" "hal"
  let hal ← HalProfile.fromValue halVal
  .ok ⟨id, name, circuits, hal, ((body.get "version").bind Json.asStr).getD "1.0"⟩

/-! ## The chip store -/

def TYPE_SILICON_BIT : String := "ubl/silicon.bit"
def TYPE_SILICON_CHIP : String := "ubl/silicon.chip"

structure StoredChip where
  chipType : String
  chipData : Json

/-- What the backend holds, and the errors it answers look-ups with. -/
structure ChipStore where
  chips : List (String × StoredChip)
  fails : String → Option String

def ChipStore.getChip (store : ChipStore) (cid : String) :
    Except SiliconError (Option StoredChip) :=
  match store.fails cid with
  | some e => .error (.chipStore e)
  | none => .ok (store.chips.lookup cid)

theorem mem_keys_of_getChip {store : ChipStore} {cid : String} {chip : StoredChip}
    (h : store.getChip cid = .ok (some chip)) : cid ∈ keys store.chips := by
  unfold ChipStore.getChip at h
  split at h
  · cases h
  · exact lookup_isSome.mp (by rw [Except.ok.inj h]; rfl)

/-- The stored chips that the descent has not entered yet. -/
def unvisited (store : ChipStore) (visiting : List String) : List String :=
  (keys store.chips).filter fun cid => cid ∉ visiting

theorem unvisited_shrinks {store : ChipStore} {visiting : List String} {cid : String}
    (hmem : cid ∈ keys store.chips) (hnew : cid ∉ visiting) :
    (unvisited store (cid :: visiting)).length < (unvisited store visiting).length := by
  have hsub : unvisited store (cid :: visiting) =
      (unvisited store visiting).filter fun c => c ≠ cid := by
    simp only [unvisited, List.filter_filter, List.mem_cons, not_or, Bool.decide_and]
  rw [hsub, List.length_filter_lt_length_iff_exists]
  exact ⟨cid, by simp [unvisited, hmem, hnew], by simp⟩

/-! ## The chip graph -/

/-- An entry of `bits`: a bit, or a chip that `sub` resolves. -/
def resolveEntry (lib : TextLib) (store : ChipStore) (visiting : List String)
    (sub : (cid : String) → cid ∈ keys store.chips → cid ∉ visiting → SiliconChipBody →
      Except SiliconError (List ResolvedCircuit))
    (entryCid : String) : Except SiliconError ResolvedNode :=
  match h : store.getChip entryCid with
  | .error e => .error e
  | .ok none => .error (.bitNotFound entryCid)
  | .ok (some stored) =>
    if stored.chipType = TYPE_SILICON_BIT then do
      let body ← parseBit lib stored.chipData
      .ok (.bit ⟨entryCid, body⟩)
    else if stored.chipType = TYPE_SILICON_CHIP then
      if hv : entryCid ∈ visiting then .error (.cyclicChipGraph entryCid)
      else do
        let chip ← parseChip stored.chipData
        let circuits ← sub entryCid (mem_keys_of_getChip h) hv chip
        .ok (.subChip circuits)
    else .error (.invalidField ("circuit bits[" ++ entryCid ++ "] has unsupported type '" ++
      stored.chipType ++ "'; expected bit or chip"))

/-- `resolve_chip_graph_inner`; a chip leaves `visiting` again when its graph is done. -/
def resolveChipGraphInner (lib : TextLib) (store : ChipStore) (visiting : List String)
    (chip : SiliconChipBody) : Except SiliconError (List ResolvedCircuit) :=
  chip.circuits.mapM fun circuitCid => do
    match ← store.getChip circuitCid with
    | none => .error (.circuitNotFound circuitCid)
    | some stored => do
      let body ← parseCircuit lib stored.chipData
      let nodes ← body.bits.mapM (resolveEntry lib store visiting fun cid hmem hnew subChip =>
        have := unvisited_shrinks hmem hnew
        resolveChipGraphInner lib store (cid :: visiting) subChip)
      .ok (.mk circuitCid body nodes)
termination_by (unvisited store visiting).length

def resolveChipGraph (lib : TextLib) (store : ChipStore) (chip : SiliconChipBody) :
    Except SiliconError (List ResolvedCircuit) :=
  resolveChipGraphInner lib store [] chip

/-- The first half of `gate_compile`: the circuits of the gate chip. -/
def gateCircuits (lib : TextLib) (store : ChipStore) (gateChipCid : String) :
    Except SiliconError (List ResolvedCircuit) := do
  match ← store.getChip gateChipCid with
  | none => .error (.chipNotFound gateChipCid)
  | some stored =>
    if stored.chipType ≠ TYPE_SILICON_CHIP then .error (.chipTypeMismatch gateChipCid)
    else do
      let chip ← parseChip stored.chipData
      resolveChipGraph lib store chip

def gateCompile (lib : TextLib) (store : ChipStore) (gateChipCid : String) :
    Except SiliconError (List UInt8) := do
  let circuits ← gateCircuits lib store gateChipCid
  compileChipToUblVm lib circuits

end Ubl.Silicon
