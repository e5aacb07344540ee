import Ubl.Silicon.Condition

/-!
# Silicon circuits and their bytecode

`compileChipToUblVm` compiles a resolved chip graph: circuit after circuit, each one a block of
instructions that leaves the stack as it found it or ends the run, and then `PushInput(0)`
and `EmitRc`.  A circuit of bits only is compiled by its composition and aggregation; a circuit
with a sub-chip among its nodes takes the mixed path of `collect_bits`.
-/

namespace Ubl.Silicon

open BigEndian
open Ubl.Vm
open Ubl.Policy (Decision CompositionMode AggregationMode)

inductive SiliconError where
  | missingField (field : String)
  | invalidField (text : String)
  | bitNotFound (cid : String)
  | bitTypeMismatch (cid : String)
  | circuitNotFound (cid : String)
  | circuitTypeMismatch (cid : String)
  | chipNotFound (cid : String)
  | chipTypeMismatch (cid : String)
  | unsupportedTarget (target : String)
  | compileError (text : String)
  | chipStoreRequired
  | chipStore (text : String)
  | cyclicChipGraph (cid : String)
deriving DecidableEq

/-- The `Display` text of the error. -/
def SiliconError.text : SiliconError → String
  | .missingField f => "missing field: " ++ f
  | .invalidField s => "invalid field: " ++ s
  | .bitNotFound c => "bit CID not found: " ++ c
  | .bitTypeMismatch c => "bit CID has wrong type (expected ubl/silicon.bit): " ++ c
  | .circuitNotFound c => "circuit CID not found: " ++ c
  | .circuitTypeMismatch c => "circuit CID has wrong type (expected ubl/silicon.circuit): " ++ c
  | .chipNotFound c => "chip CID not found: " ++ c
  | .chipTypeMismatch c => "chip CID has wrong type (expected ubl/silicon.chip): " ++ c
  | .unsupportedTarget s => "unsupported compile target: " ++ s
  | .compileError s => "compile error: " ++ s
  | .chipStoreRequired => "chipstore required for silicon validation"
  | .chipStore s => "chipstore error: " ++ s
  | .cyclicChipGraph c => "cyclic chip graph detected at CID: " ++ c

/-! ## Bits and circuits -/

structure SiliconBitBody where
  id : String
  name : String
  condition : ConditionSpec
  onTrue : Decision
  onFalse : Decision
  requiresContext : List String

structure SiliconCircuitBody where
  id : String
  name : String
  bits : List String
  composition : String
  aggregator : String

structure ResolvedBit where
  cid : String
  body : SiliconBitBody

mutual

/-- A leaf bit or an inlined sub-chip. -/
inductive ResolvedNode where
  | bit (b : ResolvedBit)
  | subChip (circuits : List ResolvedCircuit)

inductive ResolvedCircuit where
  | mk (cid : String) (body : SiliconCircuitBody) (nodes : List ResolvedNode)

end

def ResolvedCircuit.body : ResolvedCircuit → SiliconCircuitBody
  | .mk _ body _ => body

def ResolvedCircuit.nodes : ResolvedCircuit → List ResolvedNode
  | .mk _ _ nodes => nodes

def SiliconCircuitBody.compositionMode (lib : TextLib) (body : SiliconCircuitBody) :
    Except SiliconError CompositionMode :=
  let s := lib.toLowercase body.composition
  if s = "sequential" then .ok .sequential
  else if s = "parallel" then .ok .parallel
  else .error (.invalidField ("composition must be Sequential|Parallel, got '" ++ s ++ "'"))

/-- `str::parse::<usize>`: decimal digits after an optional plus sign. -/
def parseUsize (s : List Char) : Option UInt64 :=
  let digits := match s with
    | '+' :: rest => rest
    | _ => s
  if digits.isEmpty || !digits.all Char.isDigit then none
  else
    let n := digits.foldl (fun acc c => acc * 10 + (c.toNat - '0'.toNat)) 0
    if n < 2 ^ 64 then some (UInt64.ofNat n) else none

/-- `k_of_n:K:N`. -/
def parseKofN (s : String) : Option (UInt64 × UInt64) :=
  let label := "k_of_n:".toList
  if s.toList.take label.length = label then
    match (s.toList.drop label.length).splitOn ':' with
    | [k, n] =>
      match parseUsize k, parseUsize n with
      | some k, some n => some (k, n)
      | _, _ => none
    | _ => none
  else none

def SiliconCircuitBody.aggregationMode (lib : TextLib) (body : SiliconCircuitBody) :
    Except SiliconError AggregationMode :=
  let s := lib.toLowercase body.aggregator
  if s = "all" then .ok .all
  else if s = "any" then .ok .any
  else if s = "majority" then .ok .majority
  else if s = "first_decisive" || s = "firstdecisive" then .ok .firstDecisive
  else
    match parseKofN s with
    | some (k, n) => .ok (.kOfN k n)
    | none => .error (.invalidField
        ("aggregator must be All|Any|Majority|FirstDecisive|k_of_n:K:N, got '" ++ s ++ "'"))

/-! ## Circuits of bits

The code of a circuit is put together from that of its conditions, `toBool`; the compiler takes
`compileToBool` for it.
-/

section Bits

variable (toBool : ConditionSpec → List Instr)

/-- `compile_condition`. -/
def compileCondition (cond : ConditionSpec) (onFalse : Decision) : List Instr :=
  toBool cond ++
    -- informational unless `on_false` is a denial
    [if onFalse = .deny then ⟨.assertTrue, []⟩ else ⟨.drop, []⟩]

/-- All bits to Booleans, folded and asserted. -/
def compileFold (bits : List ResolvedBit) (op : Opcode) : List Instr :=
  bits.flatMap (fun bit => toBool bit.body.condition) ++
    List.replicate (bits.length - 1) ⟨op, []⟩ ++ [⟨.assertTrue, []⟩]

/-- All bits to 0 or 1, summed and compared with a threshold. -/
def compileCount (bits : List ResolvedBit) (threshold : Int64) : List Instr :=
  bits.flatMap (fun bit => toBool bit.body.condition ++ [⟨.boolToI64, []⟩]) ++
    List.replicate (bits.length - 1) ⟨.addI64, []⟩ ++
    [⟨.constI64, i64ToBe threshold⟩, ⟨.cmpI64, [5]⟩, ⟨.assertTrue, []⟩]

/-- The arms of `compile_circuits_inner` for a circuit of bits only. -/
def compileBits (composition : CompositionMode) (aggregation : AggregationMode)
    (bits : List ResolvedBit) : List Instr :=
  match composition, aggregation with
  | .sequential, .all | .sequential, .firstDecisive =>
    bits.flatMap fun bit => compileCondition toBool bit.body.condition bit.body.onFalse
  | _, .any => compileFold toBool bits .boolOr
  | _, .majority => compileCount toBool bits (Int64.ofNat (bits.length / 2) + 1)
  | _, .kOfN k _ => compileCount toBool bits k.toInt64
  | .parallel, .all | .parallel, .firstDecisive => compileFold toBool bits .boolAnd
  | .conditional _, .all | .conditional _, .firstDecisive =>
    bits.flatMap fun bit => compileCondition toBool bit.body.condition bit.body.onFalse

end Bits

/-! ## Circuits with sub-chips -/

/-- The count that `emit_node_as_bool` keeps beside the code. -/
def countNodes : List ResolvedCircuit → Nat
  | [] => 0
  | .mk _ _ nodes :: circuits => nodes.length + countNodes circuits

section Compiler

variable (lib : TextLib)

mutual

/-- `emit_node_as_bool`; every node counts as one Boolean. -/
def emitNodeAsBool : ResolvedNode → List Instr
  | .bit b => compileToBool lib b.body.condition
  | .subChip circuits =>
    let inner := emitCircuitsAsBools circuits
    let innerCount := countNodes circuits
    if innerCount = 0 then inner ++ [⟨.pushBool, [1]⟩]
    else inner ++ List.replicate (innerCount - 1) ⟨.boolAnd, []⟩

def emitNodesAsBools : List ResolvedNode → List Instr
  | [] => []
  | node :: nodes => emitNodeAsBool node ++ emitNodesAsBools nodes

/-- The nodes of all circuits, each as a Boolean. -/
def emitCircuitsAsBools : List ResolvedCircuit → List Instr
  | [] => []
  | .mk _ _ nodes :: circuits => emitNodesAsBools nodes ++ emitCircuitsAsBools circuits

end

/-- `compile_subchip_as_bool`. -/
def compileSubchipAsBool (circuits : List ResolvedCircuit) : List Instr :=
  emitNodeAsBool lib (.subChip circuits)

/-- `BoolToI64` for every node, with an `AddI64` after all but the first. -/
def countInterleaved (n : Nat) : List Instr :=
  (List.range n).flatMap fun i =>
    if i > 0 then [⟨.boolToI64, []⟩, ⟨.addI64, []⟩] else [⟨.boolToI64, []⟩]

/-- The fold at the end of the mixed path. -/
def foldNodes (aggregation : AggregationMode) (n : Nat) : List Instr :=
  match aggregation with
  | .all | .firstDecisive => List.replicate (n - 1) ⟨.boolAnd, []⟩ ++ [⟨.assertTrue, []⟩]
  | .any => List.replicate (n - 1) ⟨.boolOr, []⟩ ++ [⟨.assertTrue, []⟩]
  | .majority =>
    countInterleaved n ++
      [⟨.constI64, i64ToBe (Int64.ofNat (n / 2 + 1))⟩, ⟨.cmpI64, [5]⟩, ⟨.assertTrue, []⟩]
  | .kOfN k _ =>
    countInterleaved n ++ [⟨.constI64, i64ToBe k.toInt64⟩, ⟨.cmpI64, [5]⟩, ⟨.assertTrue, []⟩]

/-- The bits of a circuit that has nothing else. -/
def bitsOf (nodes : List ResolvedNode) : Option (List ResolvedBit) :=
  nodes.mapM fun
    | .bit b => some b
    | .subChip _ => none

/-- `collect_bits`: the bits that are still to be aggregated, or the code of the mixed path. -/
def collectBits (nodes : List ResolvedNode) (aggregation : AggregationMode) :
    Except SiliconError (List ResolvedBit ⊕ List Instr) :=
  match bitsOf nodes with
  | some bits => .ok (.inl bits)
  | none =>
    if nodes.isEmpty then .error (.compileError "circuit has no nodes")
    else .ok (.inr (emitNodesAsBools lib nodes ++ foldNodes aggregation nodes.length))

/-! ## Whole chips -/

/-- One turn of the loop of `compile_circuits_inner`. -/
def compileCircuit (circuit : ResolvedCircuit) : Except SiliconError (List Instr) := do
  let composition ← circuit.body.compositionMode lib
  let aggregation ← circuit.body.aggregationMode lib
  match ← collectBits lib circuit.nodes aggregation with
  | .inl bits =>
    if bits.isEmpty then .error (.compileError "circuit has no bits")
    else .ok (compileBits (compileToBool lib) composition aggregation bits)
  | .inr code => .ok code

def compileCircuitsInner : List ResolvedCircuit → Except SiliconError (List Instr)
  | [] => .ok []
  | circuit :: circuits => do
    let code ← compileCircuit lib circuit
    let rest ← compileCircuitsInner circuits
    .ok (code ++ rest)

/-- `PushInput(0)` and `EmitRc`, at the end of the outermost chip only. -/
def terminator : List Instr := [⟨.pushInput, toBE 2 0⟩, ⟨.emitRc, []⟩]

def compileChipToUblVm (circuits : List ResolvedCircuit) : Except SiliconError (List UInt8) := do
  let code ← compileCircuitsInner lib circuits
  .ok (encode (code ++ terminator))

end Compiler

end Ubl.Silicon
