import Ubl.Json.Text
import Ubl.Pipeline.Check
import Ubl.Silicon.Unreadable
import Ubl.Silicon.Weakening

/-!
# The silicon gate

The stage hands the gate the NRF encoding of the body, and the compiled conditions parse input 0
as JSON.  NRF bytes start with their magic and are no JSON text, so every condition that looks
at the body ends in a denial (`readBody_gate`): `gate_admits_iff` says which bodies are admitted
all the same, `stageCheck_failsClosed_iff` which runs that fail are turned into a rejection.
-/

namespace Ubl.Pipeline

open Utf8 Metered ExceptLemmas
open Ubl.Vm
open Ubl.Grammar (JsonDoc JsonText)
open Ubl.Silicon
open Ubl.Nrf (MAGIC toNrf1Bytes)

/-! ## NRF bytes are no JSON text -/

/-- `serde_json` takes JSON texts only. -/
def RejectsNonJson (fromSlice : List UInt8 → Option Json) : Prop :=
  ∀ bytes v, fromSlice bytes = some v → ∃ doc : JsonDoc, bytes = doc.render

theorem render_ne_magic (doc : JsonDoc) (rest : List UInt8) : doc.render ≠ MAGIC ++ rest := by
  rcases doc with ⟨⟨ws, hws⟩, value, after⟩
  intro h
  cases ws with
  | cons b ws =>
    obtain ⟨rfl, -⟩ := List.cons.inj h
    have hb := hws _ List.mem_cons_self
    revert hb
    decide
  | nil =>
    -- the only value that starts with the first byte of the magic is `null`
    have hvalue : value.render ++ after.1 = MAGIC ++ rest := h
    cases value with
    | null => cases hvalue
    | bool b => cases b <;> cases hvalue
    | number lit hlit =>
      obtain ⟨b, more, hlit, hb⟩ := Grammar.head_isNumber hlit
      rw [JsonText.render, hlit] at hvalue
      obtain ⟨rfl, -⟩ := List.cons.inj hvalue
      revert hb
      decide
    | string items => cases hvalue
    | array ws elements => cases hvalue
    | object ws members => cases hvalue

theorem toNrf1Bytes_magic {t : Nrf.Text} {body : Json} {chipNrf : List UInt8}
    (h : toNrf1Bytes t body = .ok chipNrf) : ∃ rest, chipNrf = MAGIC ++ rest := by
  unfold toNrf1Bytes at h
  split at h
  · cases h
  · rename_i v _
    exact ⟨Nrf.encodeValue v, (Except.ok.inj h).symm⟩

section Gate

variable {p : UblPipeline} (hjson : RejectsNonJson p.fromSlice) {body : Json}
  {chipNrf : List UInt8} (hnrf : toNrf1Bytes p.text body = .ok chipNrf)

include hjson hnrf

/-- The machine of the gate cannot read the body. -/
theorem readBody_gate : ∃ reason, (readBody (p.gateEnv chipNrf) (p.gateCas chipNrf)).result =
    .error (.error (.deny reason)) := by
  obtain ⟨rest, rfl⟩ := toNrf1Bytes_magic hnrf
  have hnone : p.fromSlice (MAGIC ++ rest) = none := by
    rw [Option.eq_none_iff_forall_ne_some]
    intro v hv
    obtain ⟨doc, hdoc⟩ := hjson _ _ hv
    exact render_ne_magic doc rest hdoc.symm
  have hget : (p.gateEnv (MAGIC ++ rest)).get (p.gateCas (MAGIC ++ rest))
      (PipelineCas.put p.blake3 [] (MAGIC ++ rest)).2 = some (MAGIC ++ rest) := by
    simp [UblPipeline.gateEnv, UblPipeline.gateCas, PipelineCas.get, PipelineCas.put]
  refine ⟨"json_parse_error", ?_⟩
  have hinput : (p.gateEnv (MAGIC ++ rest)).inputs[0]? =
      some (PipelineCas.put p.blake3 [] (MAGIC ++ rest)).2 := rfl
  have hslice : (p.gateEnv (MAGIC ++ rest)).fromSlice (MAGIC ++ rest) = none := hnone
  simp only [readBody, hinput, charged_ok_bind, hget, hslice]
  rfl

end Gate

/-! ## The run of the gate -/

theorem gateCompile_eq_ok {lib : TextLib} {store : ChipStore} {cid : String} {bytes : List UInt8}
    (h : gateCompile lib store cid = .ok bytes) {circuits : List ResolvedCircuit}
    (hcircuits : gateCircuits lib store cid = .ok circuits) :
    ∃ code, compileCircuitsInner lib circuits = .ok code ∧ bytes = encode (code ++ terminator) := by
  simp only [gateCompile, hcircuits, bind_ok, compileChipToUblVm, bind_eq_ok] at h
  obtain ⟨code, hcode, h⟩ := h
  exact ⟨code, hcode, (Except.ok.inj h).symm⟩

/-- The fuel the gate needs for a chip: one unit for every instruction up to the end of the
run. -/
def gateFuel (p : UblPipeline) (chipNrf : List UInt8) (circuits : List ResolvedCircuit) : Nat :=
  fuelFor (withTerminator
    (evalCircuits (p.gateEnv chipNrf) p.lib (p.gateCas chipNrf) circuits)).cost

/-- The fuel of the gate lasts, and its run comes to no count of the mixed path. -/
structure GateDecides (p : UblPipeline) (chipNrf : List UInt8) (circuits : List ResolvedCircuit) :
    Prop where
  fuel : gateFuel p chipNrf circuits ≤ p.fuelLimit.toNat
  noMixedCount : ¬ ReachesMixedCount (p.gateEnv chipNrf) p.lib (p.gateCas chipNrf) circuits

section Run

variable {p : UblPipeline} (hjson : RejectsNonJson p.fromSlice) {body : Json}
  {chipNrf : List UInt8} (hnrf : toNrf1Bytes p.text body = .ok chipNrf)
  {circuits : List ResolvedCircuit} {code : List Instr}
  (hcode : compileCircuitsInner p.lib circuits = .ok code) {decoded : List Instr}
  (hdecode : decodeStream (encode (code ++ terminator)) = .ok decoded)

include hjson hnrf hcode hdecode

theorem run_gate_decoded (cfg : VmConfig) :
    run (p.gateEnv chipNrf) cfg (p.gateCas chipNrf) decoded =
      run (p.gateEnv chipNrf) cfg (p.gateCas chipNrf) (code ++ terminator) :=
  run_decoded (bodyView_of_denied (readBody_gate hjson hnrf))
    (composable_cut.compileCircuitsInner p.lib hcode) hdecode cfg

/-- The run of the gate ends well or in a denial where it decides, and in one of two other errors
where it does not. -/
theorem gateRun_outcome (hsign : ∀ b, p.signJws b ≠ []) :
    (GateDecides p chipNrf circuits →
      (∃ out, p.gateRun decoded chipNrf = .ok out) ∨
        ∃ reason, p.gateRun decoded chipNrf = .error (.error (.deny reason))) ∧
    (¬ GateDecides p chipNrf circuits →
      ∃ e, p.gateRun decoded chipNrf = .error (.error e) ∧ ∀ reason, e ≠ .deny reason) := by
  have hread := readBody_gate hjson hnrf
  have hblock := block_compileCircuitsInner (p.gateEnv chipNrf) p.lib hcode (p.gateCas chipNrf)
  have hinputs : (p.gateEnv chipNrf).inputs ≠ [] := by simp [UblPipeline.gateEnv]
  have hrun : p.gateRun decoded chipNrf = _ := run_gate_decoded hjson hnrf hcode hdecode p.gateConfig
  obtain ⟨hreach, hdeny⟩ := evalCircuits_outcome hread hcode
  rw [hrun]
  constructor
  · rintro ⟨hfuel, hmixed⟩
    cases hresult : (evalCircuits (p.gateEnv chipNrf) p.lib (p.gateCas chipNrf) circuits).result with
    | ok u =>
      obtain ⟨out, vm, hok, -⟩ := run_block_ok hblock hinputs hsign p.gateConfig hresult hfuel
      exact .inl ⟨_, hok⟩
    | error e =>
      obtain ⟨reason, rfl⟩ := hdeny hmixed e hresult
      exact .inr ⟨reason, run_block_error hblock hinputs p.gateConfig hresult hfuel⟩
  · intro hnot
    by_cases hfuel : gateFuel p chipNrf circuits ≤ p.fuelLimit.toNat
    · have hmixed : ReachesMixedCount (p.gateEnv chipNrf) p.lib (p.gateCas chipNrf) circuits := by
        by_contra hmixed
        exact hnot ⟨hfuel, hmixed⟩
      refine ⟨_, run_block_error hblock hinputs p.gateConfig (hreach hmixed) hfuel, ?_⟩
      simp
    · refine ⟨_, run_block_exhausted hblock hinputs hsign p.gateConfig hfuel, ?_⟩
      simp

end Run

/-! ## Stored gates -/

section Samples

def bitChip (condition : Json) : StoredChip :=
  ⟨"ubl/silicon.bit", .object [("condition", condition), ("id", .string "B"), ("name", .string "B"),
    ("on_false", .string "deny"), ("on_true", .string "allow")]⟩

def circuitChip (bits : List String) (composition aggregator : String) : StoredChip :=
  ⟨"ubl/silicon.circuit", .object [("aggregator", .string aggregator),
    ("bits", .array (bits.map .string)), ("composition", .string composition), ("id", .string "C"),
    ("name", .string "C")]⟩

def siliconChip (circuits : List String) : StoredChip :=
  ⟨"ubl/silicon.chip", .object [("circuits", .array (circuits.map .string)),
    ("hal", .object [("profile", .string "HAL/v0/cpu")]), ("id", .string "S"), ("name", .string "S")]⟩

/-- The bit of `bitChip`, resolved. -/
def resolvedBit (cid : String) (c : ConditionSpec) : ResolvedNode :=
  .bit ⟨cid, ⟨"B", "B", c, .allow, .deny, []⟩⟩

theorem conditionFromValue_tagged {v : Json} {op : String}
    (h : (v.get "op").bind Json.asStr = some op) : conditionFromValue v = parseTagged op v := by
  rw [conditionFromValue]
  simp only [h]

theorem parseBit_bitChip {condition : Json} {c : ConditionSpec}
    (h : conditionFromValue condition = .ok c) :
    parseBit plainLib (bitChip condition).chipData = .ok ⟨"B", "B", c, .allow, .deny, []⟩ := by
  have hid : reqStr (bitChip condition).chipData "id" = .ok "B" := rfl
  have hname : reqStr (bitChip condition).chipData "name" = .ok "B" := rfl
  have hcond : reqField some (bitChip condition).chipData "condition" "condition" =
      .ok condition := rfl
  have htrue : parseDecision plainLib (bitChip condition).chipData "on_true" = .ok .allow := rfl
  have hfalse : parseDecision plainLib (bitChip condition).chipData "on_false" = .ok .deny := rfl
  simp only [parseBit, hid, hname, hcond, h, htrue, hfalse, bind_ok]
  rfl

theorem resolveEntry_bitChip {store : ChipStore} {cid : String} {condition : Json}
    {c : ConditionSpec} (hget : store.getChip cid = .ok (some (bitChip condition)))
    (hcond : conditionFromValue condition = .ok c) (visiting : List String)
    (sub : (cid : String) → cid ∈ AssocMap.keys store.chips → cid ∉ visiting → SiliconChipBody →
      Except SiliconError (List ResolvedCircuit)) :
    resolveEntry plainLib store visiting sub cid = .ok (resolvedBit cid c) := by
  unfold resolveEntry
  split
  · rename_i h
    rw [hget] at h
    cases h
  · rename_i h
    rw [hget] at h
    cases h
  · rename_i stored h
    rw [hget] at h
    cases h
    simp only [parseBit_bitChip hcond]
    rfl

end Samples

/-! ## Admission -/

mutual

/-- The condition holds of a body of `size` NRF bytes at the time `now`. -/
def Holds (body : Json) (size : Nat) (now : Int64) : ConditionSpec → Prop
  | .always value => value = true
  | .contextHas key => ∃ v, body.get key = some v ∧ v.isNull = false
  | .contextEquals key value => body.get key = some value
  | .bodySizeLte limit => size ≤ limit.toNat
  | .typeEquals chipType => body.get "@type" = some (.string chipType)
  | .and conditions => HoldsAll body size now conditions
  | .or conditions => HoldsAny body size now conditions
  | .not condition => ¬ Holds body size now condition
  | .amountLte field amount => ∃ i, (body.get field).bind Json.asI64 = some i ∧ i ≤ amount
  | .timestampWithinSecs field windowSecs =>
    ∃ i, (body.get field).bind Json.asI64 = some i ∧ now.toInt - i.toInt ≤ windowSecs.toInt

def HoldsAll (body : Json) (size : Nat) (now : Int64) : List ConditionSpec → Prop
  | [] => True
  | c :: cs => Holds body size now c ∧ HoldsAll body size now cs

def HoldsAny (body : Json) (size : Nat) (now : Int64) : List ConditionSpec → Prop
  | [] => False
  | c :: cs => Holds body size now c ∨ HoldsAny body size now cs

end

/-- A circuit of bits that allow on true and deny on false, one after the other, all needed. -/
structure SequentialAll (lib : TextLib) (circuit : ResolvedCircuit) (bits : List ResolvedBit) :
    Prop where
  nodes : bitsOf circuit.nodes = some bits
  composition : circuit.body.compositionMode lib = .ok .sequential
  aggregator : circuit.body.aggregationMode lib = .ok .all
  decisions : ∀ bit ∈ bits, bit.body.onTrue = .allow ∧ bit.body.onFalse = .deny

section Admission

variable {σ : Type} {env : VmEnv σ} {lib : TextLib} {cas : σ}

theorem evalCircuit_sequentialAll {circuit : ResolvedCircuit} {bits : List ResolvedBit}
    (hseq : SequentialAll lib circuit bits) :
    (evalCircuit env lib cas circuit).IsOk ↔ ∀ c ∈ nodesConditions circuit.nodes,
      Readable (bodyView env cas) c ∧ vmValue lib (bodyView env cas) env.bodySize env.now c = true := by
  have hmeaning : evalCircuit env lib cas circuit = evalEach (evalCond env lib cas) bits := by
    unfold evalCircuit
    rw [hseq.composition, hseq.aggregator, hseq.nodes]
    rfl
  have heach := evalEach_eq_ok (evalCond_result env lib cas) bits
  rw [hmeaning, nodesConditions_of_bitsOf hseq.nodes, List.forall_mem_map]
  constructor
  · rintro ⟨⟨⟩, hok⟩ bit hbit
    obtain ⟨hread, hvalue⟩ := heach.mp hok
    exact ⟨hread bit hbit, hvalue bit hbit (hseq.decisions bit hbit).2⟩
  · intro h
    exact ⟨(), heach.mpr ⟨fun bit hbit => (h bit hbit).1, fun bit hbit _ => (h bit hbit).2⟩⟩

theorem evalCircuits_sequentialAll {circuits : List ResolvedCircuit}
    (hseq : ∀ circuit ∈ circuits, ∃ bits, SequentialAll lib circuit bits) :
    (evalCircuits env lib cas circuits).IsOk ↔ ∀ c ∈ circuitsConditions circuits,
      Readable (bodyView env cas) c ∧ vmValue lib (bodyView env cas) env.bodySize env.now c = true := by
  induction circuits with
  | nil =>
    simp only [circuitsConditions, List.not_mem_nil, false_implies, implies_true, iff_true]
    exact ⟨(), rfl⟩
  | cons circuit circuits ih =>
    obtain ⟨bits, hfirst⟩ := hseq circuit List.mem_cons_self
    have hhead : (evalCircuit env lib cas circuit).IsOk ↔ _ := evalCircuit_sequentialAll hfirst
    have htail := ih fun c hc => hseq c (List.mem_cons_of_mem _ hc)
    rcases circuit with ⟨cid, body, nodes⟩
    rw [evalCircuits, circuitsConditions, List.forall_mem_append, isOk_bind_iff, ← htail]
    rw [← show (ResolvedCircuit.mk cid body nodes).nodes = nodes from rfl, ← hhead]
    constructor
    · rintro ⟨u, hu, hrest⟩
      exact ⟨⟨u, hu⟩, hrest⟩
    · rintro ⟨⟨u, hu⟩, hrest⟩
      exact ⟨u, hu, hrest⟩

end Admission

/-- With enough fuel, whatever the rest of the configuration, the run of the gate returns `Ok`. -/
def Admits (p : UblPipeline) (bytecode chipNrf : List UInt8) : Prop :=
  ∃ instructions, decodeStream bytecode = .ok instructions ∧
    ∀ cfg, EnoughFuel cfg instructions →
      ∃ out, run (p.gateEnv chipNrf) cfg (p.gateCas chipNrf) instructions = .ok out

/-- The gate admits a body exactly when the program of its chip goes on. -/
theorem admits_iff_isOk {p : UblPipeline} (hjson : RejectsNonJson p.fromSlice)
    (hsign : ∀ b, p.signJws b ≠ []) {body : Json} {chipNrf : List UInt8}
    (hnrf : toNrf1Bytes p.text body = .ok chipNrf) {circuits : List ResolvedCircuit}
    {code : List Instr} (hcode : compileCircuitsInner p.lib circuits = .ok code) :
    Admits p (encode (code ++ terminator)) chipNrf ↔
      (evalCircuits (p.gateEnv chipNrf) p.lib (p.gateCas chipNrf) circuits).IsOk := by
  have hview := bodyView_of_denied (readBody_gate hjson hnrf)
  have hblock := block_compileCircuitsInner (p.gateEnv chipNrf) p.lib hcode (p.gateCas chipNrf)
  have hinputs : (p.gateEnv chipNrf).inputs ≠ [] := by simp [UblPipeline.gateEnv]
  constructor
  · rintro ⟨decoded, hdecode, hrun⟩
    obtain ⟨out, hok⟩ := hrun _ (enoughFuel_max true false decoded)
    rw [run_gate_decoded hjson hnrf hcode hdecode] at hok
    cases hresult : (evalCircuits (p.gateEnv chipNrf) p.lib (p.gateCas chipNrf) circuits).result with
    | ok u => exact ⟨u, hresult⟩
    | error e =>
      have hfuel := enoughFuel_block hblock hinputs (enoughFuel_max true false (code ++ terminator))
      rw [run_block_error hblock hinputs _ hresult hfuel] at hok
      cases hok
  · rintro ⟨u, hresult⟩
    -- a program that goes on has not loaded the body, so all of it is plain
    have hplain : ∀ ins ∈ code, Plain ins := by
      rcases composable_cut.compileCircuitsInner p.lib hcode with hplain | ⟨pre, post, rfl, hpre⟩
      · exact hplain
      · obtain ⟨e, herror⟩ := exec_load_error hpre hview
        have hexec := hblock.exec_append (initial (p.gateCas chipNrf)) rfl []
        rw [List.append_nil, ← List.append_assoc, exec_append, bind_eq_of_error herror,
          bind_eq_of_result hresult] at hexec
        cases hexec
    refine ⟨_, decodeStream_plain hplain, fun cfg hfuel => ?_⟩
    obtain ⟨out, vm, hok, -⟩ := (emits_block_iff hblock hinputs hsign hfuel).mpr hresult
    exact ⟨_, hok⟩

/-- A gate of bits that all have to hold admits the bodies of which they hold exactly when none of
them reads the body and they also hold with sizes compared as signed numbers. -/
theorem gate_admits_iff (p : UblPipeline) (hjson : RejectsNonJson p.fromSlice)
    (hsign : ∀ b, p.signJws b ≠ []) (store : ChipStore) (cid : String)
    (circuits : List ResolvedCircuit) (hcircuits : gateCircuits p.lib store cid = .ok circuits)
    (hseq : ∀ circuit ∈ circuits, ∃ bits, SequentialAll p.lib circuit bits)
    (bytecode : List UInt8) (hcompile : gateCompile p.lib store cid = .ok bytecode)
    (body : Json) (chipNrf : List UInt8) (hnrf : toNrf1Bytes p.text body = .ok chipNrf) :
    ((∀ c ∈ circuitsConditions circuits, Holds body chipNrf.length p.now c) →
        Admits p bytecode chipNrf) ↔
      ((∀ c ∈ circuitsConditions circuits, Holds body chipNrf.length p.now c) →
        ∀ c ∈ circuitsConditions circuits, BodyFree c ∧
          vmValue p.lib none (UInt64.ofNat chipNrf.length) p.now c = true) := by
  obtain ⟨code, hcode, rfl⟩ := gateCompile_eq_ok hcompile hcircuits
  refine imp_congr_right fun _ => ?_
  rw [admits_iff_isOk hjson hsign hnrf hcode, evalCircuits_sequentialAll hseq,
    bodyView_of_denied (readBody_gate hjson hnrf)]
  rfl

/-- A gate with one circuit of one bit. -/
def oneBitStore (condition : Json) : ChipStore :=
  ⟨[("b3:01", siliconChip ["b3:02"]), ("b3:02", circuitChip ["b3:03"] "sequential" "all"),
    ("b3:03", bitChip condition)], fun _ => none⟩

def oneBitCircuit (c : ConditionSpec) : ResolvedCircuit :=
  .mk "b3:02" ⟨"C", "C", ["b3:03"], "sequential", "all"⟩ [resolvedBit "b3:03" c]

theorem circuitsConditions_oneBitCircuit (c : ConditionSpec) :
    circuitsConditions [oneBitCircuit c] = [c] := rfl

theorem gateCircuits_oneBitStore {condition : Json} {c : ConditionSpec}
    (h : conditionFromValue condition = .ok c) :
    gateCircuits plainLib (oneBitStore condition) "b3:01" = .ok [oneBitCircuit c] := by
  have hchip : gateCircuits plainLib (oneBitStore condition) "b3:01" =
      resolveChipGraph plainLib (oneBitStore condition)
        ⟨"S", "S", ["b3:02"], ⟨"HAL/v0/cpu", [], true, none, none, none⟩, "1.0"⟩ := rfl
  have hget : (oneBitStore condition).getChip "b3:02" =
      .ok (some (circuitChip ["b3:03"] "sequential" "all")) := rfl
  have hparse : parseCircuit plainLib (circuitChip ["b3:03"] "sequential" "all").chipData =
      .ok ⟨"C", "C", ["b3:03"], "sequential", "all"⟩ := rfl
  have hbit : (oneBitStore condition).getChip "b3:03" = .ok (some (bitChip condition)) := rfl
  rw [hchip, resolveChipGraph, resolveChipGraphInner]
  simp only [List.mapM_cons, List.mapM_nil, hget, bind_ok, hparse, resolveEntry_bitChip hbit h,
    pure_bind]
  rfl

theorem gateCompile_oneBitStore {condition : Json} {c : ConditionSpec}
    (h : conditionFromValue condition = .ok c) :
    gateCompile plainLib (oneBitStore condition) "b3:01" =
      compileChipToUblVm plainLib [oneBitCircuit c] := by
  rw [gateCompile, gateCircuits_oneBitStore h, bind_ok]

theorem sequentialAll_oneBitCircuit (c : ConditionSpec) : ∀ circuit ∈ [oneBitCircuit c],
    ∃ bits, SequentialAll plainLib circuit bits := by
  intro circuit hcircuit
  obtain rfl := List.mem_singleton.mp hcircuit
  exact ⟨[⟨"b3:03", ⟨"B", "B", c, .allow, .deny, []⟩⟩], rfl, rfl, rfl, by simp⟩

/-- `{"@id":"d","@silicon_gate":"b3:01","@type":"ubl/document","@world":"a/acme","role":"admin"}`. -/
def gatedBody : Json :=
  .object [("@id", .string "d"), ("@silicon_gate", .string "b3:01"),
    ("@type", .string "ubl/document"), ("@world", .string "a/acme"), ("role", .string "admin")]

theorem toNrf1Bytes_gatedBody : toNrf1Bytes Nrf.asciiText gatedBody =
    .ok (MAGIC ++ Nrf.encodeValue (Nrf.nrfOf gatedBody)) := by
  with_unfolding_all rfl

def gatedText : String :=
  "\x7b\"@id\":\"d\",\"@silicon_gate\":\"b3:01\",\"@type\":\"ubl/document\"," ++
    "\"@world\":\"a/acme\",\"role\":\"admin\"\x7d"

/-- A pipeline over a chip store, without policies beside genesis.  The only JSON text it is asked
to write is that of `gatedBody`. -/
def samplePipeline (store : ChipStore) : UblPipeline where
  text := Nrf.asciiText
  lib := plainLib
  fromSlice _ := none
  toVec _ := utf8 gatedText
  numFromValue _ := none
  parseBigInt _ := .error ""
  blake3 _ := List.replicate 32 0
  verify _ _ _ := false
  base64 _ := ""
  signJws _ := List.replicate 64 0
  now := 1700000000
  chipStore := some store
  fuelLimit := 1000000
  preChecks _ := .ok ()
  attachedPolicies _ := .ok []

theorem rejectsNonJson_samplePipeline (store : ChipStore) :
    RejectsNonJson (samplePipeline store).fromSlice := by
  intro bytes v h
  cases h

/-- `{"limit": 4096, "op": "body_size_lte"}`. -/
def sizeCondition : Json :=
  .object [("limit", .number (.posInt 4096)), ("op", .string "body_size_lte")]

theorem conditionFromValue_sizeCondition :
    conditionFromValue sizeCondition = .ok (.bodySizeLte 4096) := by
  rw [conditionFromValue_tagged rfl, parseTagged]
  rfl

theorem gate_admits_iff_size : ∃ bytecode chipNrf,
    gateCompile plainLib (oneBitStore sizeCondition) "b3:01" = .ok bytecode ∧
      toNrf1Bytes Nrf.asciiText gatedBody = .ok chipNrf ∧
      ((∀ c ∈ circuitsConditions [oneBitCircuit (.bodySizeLte 4096)],
          Holds gatedBody chipNrf.length 1700000000 c) →
        Admits (samplePipeline (oneBitStore sizeCondition)) bytecode chipNrf) := by
  have hcond := conditionFromValue_sizeCondition
  have hcompile := gateCompile_oneBitStore hcond
  have hnrf := toNrf1Bytes_gatedBody
  refine ⟨_, _, hcompile, hnrf, ?_⟩
  refine (gate_admits_iff (samplePipeline (oneBitStore sizeCondition))
    (rejectsNonJson_samplePipeline _) (by simp [samplePipeline]) (oneBitStore sizeCondition) "b3:01"
    [oneBitCircuit (.bodySizeLte 4096)] (gateCircuits_oneBitStore hcond)
    (sequentialAll_oneBitCircuit _) _ hcompile gatedBody _ hnrf).mpr ?_
  intro _ c hc
  obtain rfl : c = .bodySizeLte 4096 := List.mem_singleton.mp hc
  refine ⟨trivial, ?_⟩
  with_unfolding_all rfl

/-- `{"key": "role", "op": "context_has"}`. -/
def roleCondition : Json :=
  .object [("key", .string "role"), ("op", .string "context_has")]

theorem conditionFromValue_roleCondition :
    conditionFromValue roleCondition = .ok (.contextHas "role") := by
  rw [conditionFromValue_tagged rfl, parseTagged]
  rfl

/-- The body has the role the gate asks for, and the gate does not admit it. -/
theorem gate_denies_role : ∃ bytecode chipNrf,
    gateCompile plainLib (oneBitStore roleCondition) "b3:01" = .ok bytecode ∧
      toNrf1Bytes Nrf.asciiText gatedBody = .ok chipNrf ∧
      (∀ c ∈ circuitsConditions [oneBitCircuit (.contextHas "role")],
        Holds gatedBody chipNrf.length 1700000000 c) ∧
      ¬ Admits (samplePipeline (oneBitStore roleCondition)) bytecode chipNrf := by
  have hcond := conditionFromValue_roleCondition
  have hcompile := gateCompile_oneBitStore hcond
  have hnrf := toNrf1Bytes_gatedBody
  refine ⟨_, _, hcompile, hnrf, ?_, ?_⟩
  · intro c hc
    obtain rfl : c = .contextHas "role" := List.mem_singleton.mp hc
    exact ⟨.string "admin", rfl, rfl⟩
  · have hjson := rejectsNonJson_samplePipeline (oneBitStore roleCondition)
    obtain ⟨code, hcode, hbytes⟩ := gateCompile_eq_ok hcompile (gateCircuits_oneBitStore hcond)
    rw [hbytes, admits_iff_isOk hjson (by simp [samplePipeline]) hnrf hcode]
    intro hok
    have hfree := (evalCircuits_sequentialAll (sequentialAll_oneBitCircuit _)).mp hok
    rw [bodyView_of_denied (readBody_gate hjson hnrf), circuitsConditions_oneBitCircuit] at hfree
    obtain ⟨hread, -⟩ := hfree _ List.mem_cons_self
    cases hread

/-! ## Failing closed -/

/-- A denial or an error. -/
def Rejects (r : Except Stop CheckResult) : Prop :=
  (∃ stop, r = .error stop) ∨ ∃ result, r = .ok result ∧ result.decision = .deny

/-- A run of the gate that does not return `Ok` makes the stage reject the request before it
comes to the policies. -/
def FailsClosed (p : UblPipeline) (request : ParsedChipRequest) (bytecode : List UInt8) : Prop :=
  ∀ instructions chipNrf, decodeStream bytecode = .ok instructions →
    toNrf1Bytes p.text request.body = .ok chipNrf →
    (∀ out, p.gateRun instructions chipNrf ≠ .ok out) →
    Rejects (p.stageCheck request) ∧ ¬ p.GoesOn request

/-- The gate of a request that gets as far as its run. -/
theorem gateCheck_eq {p : UblPipeline} {request : ParsedChipRequest} {cid : String}
    (hcid : UblPipeline.gateCid request = some cid) {store : ChipStore}
    (hstore : p.chipStore = some store) {bytecode chipNrf : List UInt8}
    (hcompile : gateCompile p.lib store cid = .ok bytecode) {instructions : List Instr}
    (hdecode : decodeStream bytecode = .ok instructions)
    (hnrf : toNrf1Bytes p.text request.body = .ok chipNrf) :
    p.gateCheck request = UblPipeline.gateVerdict cid (p.gateRun instructions chipNrf) := by
  unfold UblPipeline.gateCheck
  rw [hcid, hstore]
  simp only [hcompile, hdecode, hnrf]

/-- The gate fails closed exactly when its run decides, or the stage does not get to it. -/
theorem stageCheck_failsClosed_iff (p : UblPipeline) (hjson : RejectsNonJson p.fromSlice)
    (hsign : ∀ b, p.signJws b ≠ []) (request : ParsedChipRequest) (cid : String)
    (hcid : UblPipeline.gateCid request = some cid) (store : ChipStore)
    (hstore : p.chipStore = some store) (circuits : List ResolvedCircuit)
    (hcircuits : gateCircuits p.lib store cid = .ok circuits) (bytecode : List UInt8)
    (hcompile : gateCompile p.lib store cid = .ok bytecode) :
    FailsClosed p request bytecode ↔
      p.preChecks request ≠ .ok () ∨ (∀ instructions, decodeStream bytecode ≠ .ok instructions) ∨
        ∀ chipNrf, toNrf1Bytes p.text request.body = .ok chipNrf →
          GateDecides p chipNrf circuits := by
  obtain ⟨code, hcode, rfl⟩ := gateCompile_eq_ok hcompile hcircuits
  cases hpre : p.preChecks request with
  | error e =>
    have hstage : p.stageCheck request = .error (.error e) := by
      unfold UblPipeline.stageCheck
      rw [hpre]
    refine ⟨fun _ => .inl (by simp), fun _ => ?_⟩
    intro instructions chipNrf _ _ _
    refine ⟨.inl ⟨_, hstage⟩, fun hgoes => ?_⟩
    have hok := hgoes.1
    rw [hpre] at hok
    cases hok
  | ok u =>
    cases hdecode : decodeStream (encode (code ++ terminator)) with
    | error e =>
      refine ⟨fun _ => .inr (.inl (by simp)), fun _ => ?_⟩
      intro instructions chipNrf hinstructions
      rw [hdecode] at hinstructions
      cases hinstructions
    | ok decoded =>
      -- what is left is decided by how the run ends
      have hgate {chipNrf : List UInt8} (hnrf : toNrf1Bytes p.text request.body = .ok chipNrf) :=
        gateCheck_eq hcid hstore hcompile hdecode hnrf
      have houtcome {chipNrf : List UInt8} (hnrf : toNrf1Bytes p.text request.body = .ok chipNrf) :=
        gateRun_outcome hjson hnrf hcode hdecode hsign
      constructor
      · intro hclosed
        refine .inr (.inr fun chipNrf hnrf => ?_)
        by_contra hnot
        obtain ⟨e, hrun, hdeny⟩ := (houtcome hnrf).2 hnot
        have hnone : p.gateCheck request = .ok none := by
          rw [hgate hnrf, hrun]
          cases e <;> first | rfl | exact absurd rfl (hdeny _)
        exact (hclosed decoded chipNrf hdecode hnrf (by simp [hrun])).2 ⟨hpre, hnone⟩
      · rintro (h | h | h)
        · exact absurd rfl h
        · exact absurd rfl (h decoded)
        · intro instructions chipNrf hinstructions hnrf hfails
          obtain rfl : decoded = instructions := Except.ok.inj (hdecode.symm.trans hinstructions)
          obtain ⟨out, hrun⟩ | ⟨reason, hrun⟩ := (houtcome hnrf).1 (h chipNrf hnrf)
          · exact absurd hrun (hfails out)
          · have hsome : p.gateCheck request = .ok (some (UblPipeline.gateDenied cid reason)) := by
              rw [hgate hnrf, hrun]
              rfl
            have hstage : p.stageCheck request = .ok (UblPipeline.gateDenied cid reason) := by
              unfold UblPipeline.stageCheck
              rw [hpre, hsome]
            refine ⟨.inr ⟨_, hstage, rfl⟩, fun hgoes => ?_⟩
            have hnone := hgoes.2
            rw [hsome] at hnone
            cases hnone

/-- A request with `gatedBody`. -/
def gatedRequest : ParsedChipRequest :=
  ⟨⟨"ubl/document", gatedBody, [], none⟩, "ubl/document", some "d", "a/acme"⟩

/-- The gate of `roleCondition` fails closed: its run ends in a denial. -/
theorem stageCheck_failsClosed_iff_role : ∃ bytecode,
    gateCompile plainLib (oneBitStore roleCondition) "b3:01" = .ok bytecode ∧
      FailsClosed (samplePipeline (oneBitStore roleCondition)) gatedRequest bytecode := by
  have hcond := conditionFromValue_roleCondition
  have hcompile := gateCompile_oneBitStore hcond
  refine ⟨_, hcompile, ?_⟩
  refine (stageCheck_failsClosed_iff (samplePipeline (oneBitStore roleCondition))
    (rejectsNonJson_samplePipeline _) (by simp [samplePipeline]) gatedRequest "b3:01" rfl
    (oneBitStore roleCondition) rfl _ (gateCircuits_oneBitStore hcond) _ hcompile).mpr ?_
  refine .inr (.inr fun chipNrf hnrf => ⟨?_, ?_⟩)
  · obtain rfl := Except.ok.inj (toNrf1Bytes_gatedBody.symm.trans hnrf)
    with_unfolding_all decide
  · rintro ⟨before, circuit, after, hsplit, -, hmixed, -⟩
    have hmem : circuit ∈ [oneBitCircuit (.contextHas "role")] := by
      rw [hsplit]
      simp
    obtain rfl := List.mem_singleton.mp hmem
    cases hmixed.mixed

/-- A majority over a sub-chip and a bit, both of which are false. -/
def mixedStore : ChipStore :=
  ⟨[("b3:01", siliconChip ["b3:02"]),
    ("b3:02", circuitChip ["b3:03", "b3:05"] "parallel" "majority"),
    ("b3:03", siliconChip ["b3:04"]), ("b3:04", circuitChip ["b3:05"] "sequential" "all"),
    ("b3:05", bitChip (.object [("op", .string "always"), ("value", .bool false)]))],
   fun _ => none⟩

def falseBit : ResolvedNode := resolvedBit "b3:05" (.always false)

def innerCircuit : ResolvedCircuit :=
  .mk "b3:04" ⟨"C", "C", ["b3:05"], "sequential", "all"⟩ [falseBit]

def mixedCircuit : ResolvedCircuit :=
  .mk "b3:02" ⟨"C", "C", ["b3:03", "b3:05"], "parallel", "majority"⟩
    [.subChip [innerCircuit], falseBit]

def sampleChipBody (circuits : List String) : SiliconChipBody :=
  ⟨"S", "S", circuits, ⟨"HAL/v0/cpu", [], true, none, none, none⟩, "1.0"⟩

theorem resolveEntry_falseBit (visiting : List String)
    (sub : (cid : String) → cid ∈ AssocMap.keys mixedStore.chips → cid ∉ visiting →
      SiliconChipBody → Except SiliconError (List ResolvedCircuit)) :
    resolveEntry plainLib mixedStore visiting sub "b3:05" = .ok falseBit := by
  refine resolveEntry_bitChip rfl ?_ visiting sub
  rw [conditionFromValue_tagged rfl, parseTagged]
  rfl

theorem resolve_innerCircuit (visiting : List String) :
    resolveChipGraphInner plainLib mixedStore visiting (sampleChipBody ["b3:04"]) =
      .ok [innerCircuit] := by
  have hget : mixedStore.getChip "b3:04" =
      .ok (some (circuitChip ["b3:05"] "sequential" "all")) := rfl
  have hparse : parseCircuit plainLib (circuitChip ["b3:05"] "sequential" "all").chipData =
      .ok ⟨"C", "C", ["b3:05"], "sequential", "all"⟩ := rfl
  rw [resolveChipGraphInner]
  simp only [sampleChipBody, List.mapM_cons, List.mapM_nil, hget, bind_ok, hparse,
    resolveEntry_falseBit, pure_bind]
  rfl

theorem gateCircuits_mixedStore : gateCircuits plainLib mixedStore "b3:01" = .ok [mixedCircuit] := by
  have hchip : gateCircuits plainLib mixedStore "b3:01" =
      resolveChipGraphInner plainLib mixedStore [] (sampleChipBody ["b3:02"]) := rfl
  have hget : mixedStore.getChip "b3:02" =
      .ok (some (circuitChip ["b3:03", "b3:05"] "parallel" "majority")) := rfl
  have hparse : parseCircuit plainLib
      (circuitChip ["b3:03", "b3:05"] "parallel" "majority").chipData =
        .ok ⟨"C", "C", ["b3:03", "b3:05"], "parallel", "majority"⟩ := rfl
  have hentry (sub : (cid : String) → cid ∈ AssocMap.keys mixedStore.chips → cid ∉ [] →
      SiliconChipBody → Except SiliconError (List ResolvedCircuit))
      (hsub : ∀ hmem hnew, sub "b3:03" hmem hnew (sampleChipBody ["b3:04"]) = .ok [innerCircuit]) :
      resolveEntry plainLib mixedStore [] sub "b3:03" = .ok (.subChip [innerCircuit]) := by
    unfold resolveEntry
    split
    · rename_i h
      cases h
    · rename_i h
      cases h
    · rename_i stored h
      cases h
      have hchip : parseChip (siliconChip ["b3:04"]).chipData = .ok (sampleChipBody ["b3:04"]) := rfl
      simp only [hchip, bind_ok, hsub]
      rfl
  rw [hchip, resolveChipGraphInner]
  simp only [sampleChipBody, List.mapM_cons, List.mapM_nil, hget, bind_ok, hparse,
    resolveEntry_falseBit, pure_bind]
  rw [hentry _ fun _ _ => resolve_innerCircuit _]
  rfl

/-- The code of `mixedCircuit`: its second `BoolToI64` finds an integer. -/
def mixedCode : List Instr :=
  [⟨.pushBool, [0]⟩, ⟨.pushBool, [0]⟩, ⟨.boolToI64, []⟩, ⟨.boolToI64, []⟩, ⟨.addI64, []⟩,
    ⟨.constI64, i64ToBe 2⟩, ⟨.cmpI64, [5]⟩, ⟨.assertTrue, []⟩] ++ terminator

/-- Both nodes of the majority are false, and the stage allows the request: the run of the gate
ends in a type mismatch and not in a denial. -/
theorem stageCheck_mixed_majority : ∃ bytecode chipNrf result,
    gateCompile plainLib mixedStore "b3:01" = .ok bytecode ∧
      decodeStream bytecode = .ok mixedCode ∧
      toNrf1Bytes Nrf.asciiText gatedBody = .ok chipNrf ∧
      (samplePipeline mixedStore).gateRun mixedCode chipNrf =
        .error (.error (.typeMismatch .boolToI64)) ∧
      (samplePipeline mixedStore).stageCheck gatedRequest = .ok result ∧
      result.decision = .allow ∧
      ¬ FailsClosed (samplePipeline mixedStore) gatedRequest bytecode := by
  have hcompile : gateCompile plainLib mixedStore "b3:01" = .ok (encode mixedCode) := by
    rw [gateCompile, gateCircuits_mixedStore, bind_ok]
    rfl
  have hdecode : decodeStream (encode mixedCode) = .ok mixedCode :=
    decodeStream_encode (by decide)
  set chipNrf := MAGIC ++ Nrf.encodeValue (Nrf.nrfOf gatedBody) with hchipNrf
  have hrun : (samplePipeline mixedStore).gateRun mixedCode chipNrf =
      .error (.error (.typeMismatch .boolToI64)) := rfl
  have hnone : (samplePipeline mixedStore).gateCheck gatedRequest = .ok none := by
    have hgate := gateCheck_eq (show UblPipeline.gateCid gatedRequest = some "b3:01" from rfl)
      (show (samplePipeline mixedStore).chipStore = some mixedStore from rfl) hcompile hdecode
      toNrf1Bytes_gatedBody
    rw [hgate, hrun]
    rfl
  have hstage : (samplePipeline mixedStore).stageCheck gatedRequest =
      (samplePipeline mixedStore).evaluatePolicies gatedRequest := by
    unfold UblPipeline.stageCheck
    rw [hnone]
    rfl
  refine ⟨_, chipNrf, _, hcompile, hdecode, toNrf1Bytes_gatedBody, hrun, hstage.trans rfl, ?_, ?_⟩
  · decide
  · intro hclosed
    refine (hclosed mixedCode chipNrf hdecode toNrf1Bytes_gatedBody ?_).2 ⟨rfl, hnone⟩
    rw [hrun]
    simp

end Ubl.Pipeline
