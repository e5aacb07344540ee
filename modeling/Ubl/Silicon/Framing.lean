import Ubl.Silicon.Inlined
import Ubl.Vm.Stream

/-!
# Which texts of a chip fit their length field

The compiler puts keys, expected values and field names into payloads as they are, and
`tlv_instr` writes the low sixteen bits of their lengths.  The stream of a chip is read back as
the instructions it was made of exactly when no text passes 65535 bytes
(`decodeStream_chip_iff`).  A text of a multiple of 65536 bytes gets the length 0 and is read
as instructions itself (`decodes_wrapped`).
-/

namespace Ubl.Silicon

open BigEndian Utf8 ExceptLemmas
open Ubl.Vm
open Ubl.Policy (CompositionMode AggregationMode)

mutual

/-- The payloads of a condition that its author chooses. -/
def ConditionSpec.texts (lib : TextLib) : ConditionSpec → List (List UInt8)
  | .always _ => []
  | .contextHas key => [utf8 key]
  | .contextEquals key value => [utf8 key, expectedText lib value]
  | .bodySizeLte _ => []
  | .typeEquals chipType => [utf8 chipType]
  | .and conditions => ConditionSpec.textsOfAll lib conditions
  | .or conditions => ConditionSpec.textsOfAll lib conditions
  | .not condition => ConditionSpec.texts lib condition
  | .amountLte field _ => [utf8 field]
  | .timestampWithinSecs field _ => [utf8 field]

def ConditionSpec.textsOfAll (lib : TextLib) : List ConditionSpec → List (List UInt8)
  | [] => []
  | c :: cs => ConditionSpec.texts lib c ++ ConditionSpec.textsOfAll lib cs

end

/-- Every text of the condition fits a length of sixteen bits. -/
def ConditionSpec.FitsWord (lib : TextLib) (c : ConditionSpec) : Prop :=
  ∀ text ∈ c.texts lib, text.length < 65536

/-! ## Short instructions -/

/-- Every payload fits its length field. -/
def AllShort (code : List Instr) : Prop := ∀ ins ∈ code, ins.Short

/-- The reader gets back what was written exactly when every payload fits. -/
theorem decodes_self_iff {code : List Instr} : Decodes code code ↔ AllShort code := by
  constructor
  · intro h
    have hspec := decodeStream_spec (encode code)
    rw [h] at hspec
    exact hspec.1
  · exact Decodes.of_short

theorem allShort_append {xs ys : List Instr} : AllShort (xs ++ ys) ↔ AllShort xs ∧ AllShort ys :=
  List.forall_mem_append

theorem allShort_row (op : Opcode) (n : Nat) : AllShort (List.replicate n ⟨op, []⟩) := short_row op n

theorem allShort_flatMap {α : Type} {l : List α} {f : α → List Instr} :
    AllShort (l.flatMap f) ↔ ∀ a ∈ l, AllShort (f a) := by
  simp only [AllShort, List.mem_flatMap, forall_exists_index, and_imp]
  exact ⟨fun h a ha ins hins => h ins a ha hins, fun h ins a ha hins => h a ha ins hins⟩

/-! ## The code of a condition -/

section Compiler

variable (lib : TextLib)

theorem fitsWord_all {cs : List ConditionSpec} :
    (∀ text ∈ ConditionSpec.textsOfAll lib cs, text.length < 65536) ↔ ∀ c ∈ cs, c.FitsWord lib := by
  induction cs with
  | nil => simp [ConditionSpec.textsOfAll]
  | cons c cs ih =>
    rw [ConditionSpec.textsOfAll, List.forall_mem_append, ih, List.forall_mem_cons]
    rfl

/-- The n-ary connectives: the code of the operands and a row of folds. -/
theorem allShort_fold {cs : List ConditionSpec} {op : Opcode} {unit : UInt8}
    (ih : ∀ c ∈ cs, (AllShort (compileToBool lib c) ↔ c.FitsWord lib)) :
    AllShort (if cs.isEmpty then [⟨.pushBool, [unit]⟩]
      else compileAllToBool lib cs ++ List.replicate (cs.length - 1) ⟨op, []⟩) ↔
      ∀ c ∈ cs, c.FitsWord lib := by
  split_ifs with hcs
  · obtain rfl := List.isEmpty_iff.mp hcs
    simp [AllShort, Instr.Short]
  · rw [compileAllToBool_eq_flatMap, allShort_append, allShort_flatMap,
      and_iff_left (allShort_row _ _)]
    exact forall₂_congr ih

theorem allShort_compileToBool (c : ConditionSpec) :
    AllShort (compileToBool lib c) ↔ c.FitsWord lib := by
  induction c using ConditionSpec.ind with
  | always b => simp [compileToBool, ConditionSpec.FitsWord, ConditionSpec.texts, AllShort, Instr.Short]
  | contextHas key =>
    simp [compileToBool, ConditionSpec.FitsWord, ConditionSpec.texts, AllShort, Instr.Short, loadBody]
  | contextEquals key value =>
    simp [compileToBool, compileFieldEquals, ConditionSpec.FitsWord, ConditionSpec.texts, AllShort,
      Instr.Short, loadBody]
  | typeEquals chipType =>
    have htype : (utf8 "@type").length < 65536 := by decide
    simp only [length_utf8] at htype
    simp [compileToBool, compileFieldEquals, ConditionSpec.FitsWord, ConditionSpec.texts, AllShort,
      Instr.Short, loadBody, htype]
  | bodySizeLte limit =>
    simp [compileToBool, ConditionSpec.FitsWord, ConditionSpec.texts, AllShort, Instr.Short]
  | and cs ih =>
    rw [compileToBool, allShort_fold lib ih, ConditionSpec.FitsWord, ConditionSpec.texts,
      fitsWord_all]
  | or cs ih =>
    rw [compileToBool, allShort_fold lib ih, ConditionSpec.FitsWord, ConditionSpec.texts,
      fitsWord_all]
  | not c ih =>
    rw [compileToBool, allShort_append, ih, ConditionSpec.FitsWord, ConditionSpec.FitsWord,
      ConditionSpec.texts]
    exact and_iff_left (by simp [AllShort, Instr.Short])
  | amountLte field amount =>
    simp [compileToBool, ConditionSpec.FitsWord, ConditionSpec.texts, AllShort, Instr.Short, loadBody]
  | timestampWithinSecs field windowSecs =>
    simp [compileToBool, ConditionSpec.FitsWord, ConditionSpec.texts, AllShort, Instr.Short, loadBody]

/-! ## The code of a chip -/

/-- The code of all bits with short instructions behind each. -/
theorem allShort_bits {bits : List ResolvedBit} {post : ResolvedBit → List Instr}
    (hpost : ∀ bit, AllShort (post bit)) :
    AllShort (bits.flatMap fun bit => compileToBool lib bit.body.condition ++ post bit) ↔
      ∀ bit ∈ bits, bit.body.condition.FitsWord lib := by
  rw [allShort_flatMap]
  refine forall₂_congr fun bit _ => ?_
  rw [allShort_append, and_iff_left (hpost bit), allShort_compileToBool]

theorem allShort_compileBits (composition : CompositionMode) (aggregation : AggregationMode)
    (bits : List ResolvedBit) :
    AllShort (compileBits (compileToBool lib) composition aggregation bits) ↔
      ∀ bit ∈ bits, bit.body.condition.FitsWord lib := by
  have heach : AllShort (bits.flatMap fun bit =>
      compileCondition (compileToBool lib) bit.body.condition bit.body.onFalse) ↔
        ∀ bit ∈ bits, bit.body.condition.FitsWord lib := by
    refine allShort_bits lib fun bit => ?_
    split_ifs <;> simp [AllShort, Instr.Short]
  have hfold (op : Opcode) : AllShort (compileFold (compileToBool lib) bits op) ↔
      ∀ bit ∈ bits, bit.body.condition.FitsWord lib := by
    have hbits : AllShort (bits.flatMap fun bit => compileToBool lib bit.body.condition ++ []) ↔
        ∀ bit ∈ bits, bit.body.condition.FitsWord lib :=
      allShort_bits lib fun _ => by simp [AllShort]
    simp only [List.append_nil] at hbits
    rw [compileFold, allShort_append, allShort_append, hbits, and_iff_left (allShort_row _ _)]
    exact and_iff_left (by simp [AllShort, Instr.Short])
  have hcount (threshold : Int64) :
      AllShort (compileCount (compileToBool lib) bits threshold) ↔
        ∀ bit ∈ bits, bit.body.condition.FitsWord lib := by
    rw [compileCount, allShort_append, allShort_append, and_iff_left (allShort_row _ _),
      allShort_bits lib fun _ => by simp [AllShort, Instr.Short]]
    exact and_iff_left (by simp [AllShort, Instr.Short])
  cases composition <;> cases aggregation <;>
    first
      | exact heach
      | exact hfold _
      | exact hcount _

mutual

theorem allShort_emitNodeAsBool : ∀ node : ResolvedNode,
    AllShort (emitNodeAsBool lib node) ↔ ∀ c ∈ nodeConditions node, c.FitsWord lib
  | .bit b => by
    rw [emitNodeAsBool, nodeConditions, allShort_compileToBool]
    simp
  | .subChip circuits => by
    rw [emitNodeAsBool, nodeConditions, ← allShort_emitCircuitsAsBools circuits]
    split_ifs
    · rw [allShort_append]
      exact and_iff_left (by simp [AllShort, Instr.Short])
    · rw [allShort_append, and_iff_left (allShort_row _ _)]

theorem allShort_emitNodesAsBools : ∀ nodes : List ResolvedNode,
    AllShort (emitNodesAsBools lib nodes) ↔ ∀ c ∈ nodesConditions nodes, c.FitsWord lib
  | [] => by simp [emitNodesAsBools, nodesConditions, AllShort]
  | node :: nodes => by
    rw [emitNodesAsBools, nodesConditions, allShort_append, List.forall_mem_append,
      allShort_emitNodeAsBool node, allShort_emitNodesAsBools nodes]

theorem allShort_emitCircuitsAsBools : ∀ circuits : List ResolvedCircuit,
    AllShort (emitCircuitsAsBools lib circuits) ↔
      ∀ c ∈ circuitsConditions circuits, c.FitsWord lib
  | [] => by simp [emitCircuitsAsBools, circuitsConditions, AllShort]
  | .mk _ _ nodes :: circuits => by
    rw [emitCircuitsAsBools, circuitsConditions, allShort_append, List.forall_mem_append,
      allShort_emitNodesAsBools nodes, allShort_emitCircuitsAsBools circuits]

end

theorem allShort_compileCircuit {circuit : ResolvedCircuit} {code : List Instr}
    (h : compileCircuit lib circuit = .ok code) :
    AllShort code ↔ ∀ c ∈ nodesConditions circuit.nodes, c.FitsWord lib := by
  obtain ⟨composition, aggregation, -, -, hcode⟩ := compileCircuit_eq_ok lib h
  obtain ⟨bits, hbits, -, rfl⟩ | ⟨-, -, rfl⟩ := hcode
  · rw [allShort_compileBits, nodesConditions_of_bitsOf hbits]
    simp
  · have hfold : AllShort (foldNodes aggregation circuit.nodes.length) := foldNodes_short _ _
    rw [allShort_append, and_iff_left hfold, allShort_emitNodesAsBools]

theorem allShort_compileCircuitsInner {circuits : List ResolvedCircuit} {code : List Instr}
    (h : compileCircuitsInner lib circuits = .ok code) :
    AllShort code ↔ ∀ c ∈ circuitsConditions circuits, c.FitsWord lib := by
  induction circuits generalizing code with
  | nil =>
    obtain rfl := Except.ok.inj h
    simp [AllShort, circuitsConditions]
  | cons circuit circuits ih =>
    simp only [compileCircuitsInner, bind_eq_ok] at h
    obtain ⟨code₁, h₁, code₂, h₂, h⟩ := h
    obtain rfl := Except.ok.inj h
    obtain ⟨cid, body, nodes⟩ := circuit
    rw [allShort_append, allShort_compileCircuit lib h₁, ih h₂, circuitsConditions,
      List.forall_mem_append]
    rfl

/-- The pairs of opcode and payload that the compiler hands to `tlv_instr`, in order. -/
def passedToTlvInstr (circuits : List ResolvedCircuit) : Except SiliconError (List Instr) :=
  (compileCircuitsInner lib circuits).map (· ++ terminator)

end Compiler

/-- The reader of the VM finds the instructions that the chip was compiled to exactly when every
key, expected text, type and field name of its conditions has fewer than 65536 bytes. -/
theorem decodeStream_chip_iff (lib : TextLib) (circuits : List ResolvedCircuit)
    (bytes : List UInt8) (h : compileChipToUblVm lib circuits = .ok bytes) :
    (∃ code, passedToTlvInstr lib circuits = .ok code ∧ decodeStream bytes = .ok code) ↔
      ∀ c ∈ circuitsConditions circuits, ∀ text ∈ c.texts lib, text.length < 65536 := by
  simp only [compileChipToUblVm, bind_eq_ok] at h
  obtain ⟨code, hcode, h⟩ := h
  obtain rfl := Except.ok.inj h
  have hterm : AllShort terminator := by simp [terminator, AllShort, Instr.Short]
  have hshort := allShort_compileCircuitsInner lib hcode
  rw [← and_iff_left (a := AllShort code) hterm, ← allShort_append, ← decodes_self_iff] at hshort
  rw [passedToTlvInstr, hcode]
  constructor
  · rintro ⟨code', hpassed, hread⟩
    obtain rfl : code ++ terminator = code' := Except.ok.inj hpassed
    exact hshort.mp hread
  · intro hfits
    exact ⟨_, rfl, hshort.mpr hfits⟩

theorem decodeStream_chip_iff_token :
    ∃ bytes, compileChipToUblVm plainLib [tokenCircuit] = .ok bytes ∧
      ((∃ code, passedToTlvInstr plainLib [tokenCircuit] = .ok code ∧
          decodeStream bytes = .ok code) ↔
        ∀ c ∈ circuitsConditions [tokenCircuit], ∀ text ∈ c.texts plainLib, text.length < 65536) :=
  ⟨_, rfl, decodeStream_chip_iff plainLib [tokenCircuit] _ rfl⟩

/-! ## A key that is a program -/

/-- A payload of a multiple of 65536 bytes has the length 0 on the wire; where it spells a
program, that program is what is read. -/
theorem decodes_wrapped (op : Opcode) {code : List Instr} (hcode : AllShort code)
    (hlen : (encode code).length % 65536 = 0) :
    Decodes [⟨op, encode code⟩] (⟨op, []⟩ :: code) := by
  have hzero : toBE 2 (encode code).length = toBE 2 0 := by
    have hmod : (encode code).length % 256 ^ 2 = 0 := hlen
    rw [← toBE_mod 2 (encode code).length, hmod]
  have hwire : encode [⟨op, encode code⟩] = encode (⟨op, []⟩ :: code) := by
    simp [tlvInstr, hzero]
  rw [Decodes, hwire]
  refine decodeStream_encode (List.forall_mem_cons.mpr ⟨?_, hcode⟩)
  simp [Instr.Short]

/-- The bytes of `PushBool(1)` as a text. -/
def pushTrueText : List Char := [38, 0, 1, 1].map Char.ofNat

/-- A key of 65536 bytes. -/
def programKey : String := String.ofList (List.replicate 16384 pushTrueText).flatten

def pushTrueRow : List Instr := List.replicate 16384 ⟨.pushBool, [1]⟩

theorem utf8_programKey : utf8 programKey = encode pushTrueRow := by
  have hascii : ∀ c ∈ (List.replicate 16384 pushTrueText).flatten, c.toNat < 128 := by
    intro c hc
    obtain ⟨text, htext, hc⟩ := List.mem_flatten.mp hc
    obtain rfl := (List.mem_replicate.mp htext).2
    simp only [pushTrueText, List.map_cons, List.map_nil, List.mem_cons, List.not_mem_nil,
      or_false] at hc
    rcases hc with rfl | rfl | rfl | rfl <;> decide
  have hone : pushTrueText.map (fun c => UInt8.ofNat c.toNat) =
      tlvInstr Opcode.pushBool.toU8 [1] := by decide
  rw [programKey, utf8_ascii hascii, List.map_flatten, List.map_replicate, hone, pushTrueRow, encode,
    List.flatMap_def, List.map_replicate]

theorem length_programKey : (encode pushTrueRow).length = 65536 := by
  have hone : (tlvInstr Opcode.pushBool.toU8 [1]).length = 4 := by decide
  rw [encode, List.length_flatMap, pushTrueRow, List.map_replicate, hone, List.sum_replicate]
  rfl

/-- One bit that asks for the key and denies without it. -/
def keyCircuit (key : String) : ResolvedCircuit :=
  sampleCircuit "sequential" "all" [(.contextHas key, .allow, .deny)]

/-- The bytes of the key are read as 16384 times `PushBool(1)`, and the `AssertTrue` behind them
finds one of these. -/
theorem decodeStream_chip_programKey :
    ∃ bytes, compileChipToUblVm plainLib [keyCircuit programKey] = .ok bytes ∧
      decodeStream bytes = .ok (loadBody ++ (⟨.jsonHasKey, []⟩ :: pushTrueRow ++
        (⟨.assertTrue, []⟩ :: terminator))) ∧
      ¬ ∃ code, passedToTlvInstr plainLib [keyCircuit programKey] = .ok code ∧
        decodeStream bytes = .ok code := by
  have hbytes : compileChipToUblVm plainLib [keyCircuit programKey] = .ok
      (encode (loadBody ++ ([⟨.jsonHasKey, utf8 programKey⟩] ++ (⟨.assertTrue, []⟩ :: terminator)))) :=
    rfl
  have hpassed : passedToTlvInstr plainLib [keyCircuit programKey] = .ok
      (loadBody ++ ([⟨.jsonHasKey, utf8 programKey⟩] ++ (⟨.assertTrue, []⟩ :: terminator))) := rfl
  have hload : Decodes loadBody loadBody := Decodes.of_short (by simp [loadBody, Instr.Short])
  have hrow : AllShort pushTrueRow := by
    intro ins hins
    obtain rfl := (List.mem_replicate.mp hins).2
    simp [Instr.Short]
  have hkey := decodes_wrapped .jsonHasKey hrow (by rw [length_programKey])
  have hrest : Decodes (⟨.assertTrue, []⟩ :: terminator) (⟨.assertTrue, []⟩ :: terminator) :=
    Decodes.of_short (by simp [terminator, Instr.Short])
  refine ⟨_, hbytes, ?_, ?_⟩
  · rw [utf8_programKey]
    exact hload.append (hkey.append hrest)
  · rintro ⟨code, hcode, hread⟩
    rw [hpassed] at hcode
    obtain rfl := Except.ok.inj hcode
    have hshort := decodes_self_iff.mp hread ⟨.jsonHasKey, utf8 programKey⟩ (by simp)
    rw [Instr.Short, utf8_programKey, length_programKey] at hshort
    exact absurd hshort (lt_irrefl _)

end Ubl.Silicon
