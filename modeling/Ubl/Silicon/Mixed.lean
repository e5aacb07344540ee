import Ubl.Silicon.Weakening

/-!
# Circuits with sub-chips among their nodes

`collect_bits` compiles such a circuit by itself: every node to a Boolean, then one fold over the
Booleans.  The folds of `All` and `Any` do what they say.  The count converts the topmost
cell with `BoolToI64` once for every node, with an `AddI64` after all but the first: with two
nodes or more the second conversion finds the integer that the first has made, and the circuit
counts only if it has a single node (`collectBits_counts_iff`).
-/

namespace Ubl.Silicon

open BigEndian Metered ExceptLemmas
open Ubl.Vm
open Ubl.Policy (Decision AggregationMode)

variable {σ : Type}

/-! ## Code that leaves Booleans -/

/-- The bytes of the code decode, and wherever the code runs over this store it ends without
error and pushes `bs`. -/
def Leaves (env : VmEnv σ) (cas : σ) (code : List Instr) (bs : List Bool) : Prop :=
  ∃ decoded, Decodes code decoded ∧ EmitFree decoded ∧ ∀ core : Core σ, core.cas = cas →
    (exec (execOp env) decoded core).result = .ok (core.pushAll (bs.map .bool))

section Leaves

variable {env : VmEnv σ} {cas : σ}

theorem Leaves.nil : Leaves env cas [] [] :=
  ⟨[], decodeStream_nil, emitFree_nil, fun _ _ => rfl⟩

theorem Leaves.append {xs ys : List Instr} {bs bs' : List Bool} (hx : Leaves env cas xs bs)
    (hy : Leaves env cas ys bs') : Leaves env cas (xs ++ ys) (bs ++ bs') := by
  obtain ⟨xs', hxs, hemit, hexec⟩ := hx
  obtain ⟨ys', hys, hemit', hexec'⟩ := hy
  refine ⟨xs' ++ ys', hxs.append hys, emitFree_append.mpr ⟨hemit, hemit'⟩, fun core hcas => ?_⟩
  have hcas' : (core.pushAll (bs.map .bool)).cas = cas := by rw [Core.pushAll_cas, hcas]
  rw [exec_append, bind_result, hexec core hcas, bind_ok, hexec' _ hcas', List.map_append,
    Core.pushAll_append]

/-- A row of `BoolAnd` behind the Booleans leaves their conjunction. -/
theorem Leaves.foldAnd {code : List Instr} {bs : List Bool} (h : Leaves env cas code bs)
    (hne : bs ≠ []) :
    Leaves env cas (code ++ List.replicate (bs.length - 1) ⟨.boolAnd, []⟩) [bs.all id] := by
  obtain ⟨decoded, hdecodes, hemit, hexec⟩ := h
  refine ⟨_, hdecodes.append (Decodes.of_short (short_row _ _)),
    emitFree_append.mpr ⟨hemit, Composable.emitFree.row _ (by decide) (by decide)⟩,
    fun core hcas => ?_⟩
  have hfold := exec_foldAnd env hne core []
  rw [List.append_nil] at hfold
  rw [exec_append, bind_result, hexec core hcas, bind_ok, hfold]
  rfl

/-- Each node's code leaves its Boolean. -/
theorem leaves_emitNodesAsBools {lib : TextLib} {nodes : List ResolvedNode} {bs : List Bool}
    (h : List.Forall₂ (fun node b => Leaves env cas (emitNodeAsBool lib node) [b]) nodes bs) :
    Leaves env cas (emitNodesAsBools lib nodes) bs := by
  induction h with
  | nil =>
    rw [emitNodesAsBools]
    exact Leaves.nil
  | cons hnode _ ih =>
    rw [emitNodesAsBools]
    exact hnode.append ih

end Leaves

/-! ## The fold -/

theorem foldNodes_short (aggregation : AggregationMode) (n : Nat) :
    ∀ ins ∈ foldNodes aggregation n, ins.Short := by
  have hassert : ∀ ins ∈ [(⟨.assertTrue, []⟩ : Instr)], ins.Short := by simp [Instr.Short]
  have hcount (threshold : Int64) : ∀ ins ∈ countInterleaved n ++
      [⟨.constI64, i64ToBe threshold⟩, ⟨.cmpI64, [5]⟩, ⟨.assertTrue, []⟩], ins.Short := by
    refine List.forall_mem_append.mpr ⟨fun ins hins => ?_, by simp [Instr.Short]⟩
    obtain ⟨i, -, hi⟩ := List.mem_flatMap.mp hins
    split_ifs at hi <;> simp only [List.mem_cons, List.not_mem_nil, or_false] at hi
    · rcases hi with rfl | rfl <;> simp [Instr.Short]
    · obtain rfl := hi
      simp [Instr.Short]
  cases aggregation with
  | all => exact List.forall_mem_append.mpr ⟨short_row _ _, hassert⟩
  | any => exact List.forall_mem_append.mpr ⟨short_row _ _, hassert⟩
  | firstDecisive => exact List.forall_mem_append.mpr ⟨short_row _ _, hassert⟩
  | majority => exact hcount _
  | kOfN k m => exact hcount _

/-- What the fold over the Booleans comes to. -/
def foldOutcome (aggregation : AggregationMode) (bs : List Bool) : Except Fault Unit :=
  match aggregation with
  | .all | .firstDecisive => asserted (bs.all id)
  | .any => asserted (bs.any id)
  | .majority => (evalMixedCount bs (Int64.ofNat (bs.length / 2 + 1))).result
  | .kOfN k _ => (evalMixedCount bs k.toInt64).result

theorem exec_foldNodes (env : VmEnv σ) (aggregation : AggregationMode) {bs : List Bool}
    (hne : bs ≠ []) (core : Core σ) :
    (exec (execOp env) (foldNodes aggregation bs.length)
        (core.pushAll (bs.map .bool))).result =
      (foldOutcome aggregation bs).map fun _ => core := by
  have hassert (b : Bool) : (assertTrue b >>= fun _ => exec (execOp env) [] core).result =
      (asserted b).map fun _ => core := by
    cases b <;> rfl
  have hcount (threshold : Int64) :
      (evalMixedCount bs threshold >>= fun _ => exec (execOp env) [] core).result =
        (evalMixedCount bs threshold).result.map fun _ => core := by
    rw [bind_result]
    cases (evalMixedCount bs threshold).result <;> rfl
  cases aggregation with
  | all =>
    rw [foldNodes, exec_foldAnd env hne, exec_assertTrue, spend_bind_result]
    exact hassert _
  | firstDecisive =>
    rw [foldNodes, exec_foldAnd env hne, exec_assertTrue, spend_bind_result]
    exact hassert _
  | any =>
    rw [foldNodes, exec_foldOr env hne, exec_assertTrue, spend_bind_result]
    exact hassert _
  | majority =>
    rw [foldNodes, exec_countInterleaved env hne]
    exact hcount _
  | kOfN k n =>
    rw [foldNodes, exec_countInterleaved env hne]
    exact hcount _

/-- A single node is counted as it should be, as long as the threshold is no negative `i64`. -/
theorem evalMixedCount_single (b : Bool) {threshold : Nat} (h : threshold < 2 ^ 63) :
    (evalMixedCount [b] (Int64.ofNat threshold)).result =
      asserted (decide (threshold ≤ [b].count true)) := by
  have hone : ([b] : List Bool).length < 2 ^ 63 := by simp
  have hle : Int64.ofNat threshold ≤ indicator b ↔ threshold ≤ [b].count true := by
    have hcount := List.count_le_length (a := true) (l := [b])
    have htotal : indicator b = Int64.ofNat ([b].count true) := total_eq_count [b] hone
    rw [htotal, le_ofNat_iff h (by omega)]
  have hmeaning : (evalMixedCount [b] (Int64.ofNat threshold)).result =
      asserted (decide (Int64.ofNat threshold ≤ indicator b)) := rfl
  rw [hmeaning, decide_eq_decide.mpr hle]

/-- The second conversion of two nodes or more. -/
theorem evalMixedCount_several {bs : List Bool} (h : bs.length ≠ 1) (threshold : Int64) :
    (evalMixedCount bs threshold).result = .error (.error (.typeMismatch .boolToI64)) := by
  match bs with
  | [] => rfl
  | [_] => exact absurd rfl h
  | _ :: _ :: _ => rfl

/-- A `k` from 2^63 on is reached by no Boolean at all. -/
theorem evalMixedCount_negative (b : Bool) {k : UInt64} (hk : ¬ k.toNat < 2 ^ 63) :
    (evalMixedCount [b] k.toInt64).result = .ok () := by
  have hle : k.toInt64 ≤ indicator b := @negative_le_total [b] (by simp) _ hk
  have hmeaning : (evalMixedCount [b] k.toInt64).result =
      asserted (decide (k.toInt64 ≤ indicator b)) := rfl
  rw [hmeaning, decide_eq_true hle]
  rfl

/-! ## Thresholds -/

/-- What `Majority` and `KofN` ask for. -/
def threshold (aggregation : AggregationMode) (n : Nat) : Option Nat :=
  match aggregation with
  | .majority => some (n / 2 + 1)
  | .kOfN k _ => some k.toNat
  | _ => none

/-- The code goes on with the stack it found when there is enough, and denies otherwise. -/
structure Thresholds (env : VmEnv σ) (code : List Instr) (core : Core σ) (enough : Prop) : Prop where
  passes : (exec (execOp env) code core).result = .ok core ↔ enough
  denies : ¬ enough → ∃ reason, (exec (execOp env) code core).result = .error (.error (.deny reason))

theorem ofNat_toNat_toInt64 (k : UInt64) : Int64.ofNat k.toNat = k.toInt64 := by
  rw [← UInt64.toInt64_ofNat', UInt64.ofNat_toNat]

/-- The count over `bs` meets a threshold exactly if there is one Boolean, and the threshold is
no negative `i64`. -/
theorem foldOutcome_counts_iff {aggregation : AggregationMode} {bs : List Bool} {needed : Nat}
    (hneeded : threshold aggregation bs.length = some needed) :
    ((foldOutcome aggregation bs = .ok () ↔ needed ≤ bs.count true) ∧
        (¬ needed ≤ bs.count true →
          ∃ reason, foldOutcome aggregation bs = .error (.error (.deny reason)))) ↔
      bs.length = 1 ∧ needed < 2 ^ 63 := by
  by_cases hlen : bs.length = 1
  swap
  · have hmismatch : foldOutcome aggregation bs =
        .error (.error (.typeMismatch .boolToI64)) := by
      cases aggregation with
      | majority => exact evalMixedCount_several hlen _
      | kOfN k n => exact evalMixedCount_several hlen _
      | all => cases hneeded
      | any => cases hneeded
      | firstDecisive => cases hneeded
    rw [hmismatch]
    refine ⟨fun ⟨hpasses, hdenies⟩ => ?_, fun h => absurd h.1 hlen⟩
    by_cases henough : needed ≤ bs.count true
    · cases hpasses.mpr henough
    · obtain ⟨reason, hreason⟩ := hdenies henough
      cases hreason
  obtain ⟨b, rfl⟩ := List.length_eq_one_iff.mp hlen
  by_cases hsmall : needed < 2 ^ 63
  · have hcounts : foldOutcome aggregation [b] = asserted (decide (needed ≤ [b].count true)) := by
      rw [← evalMixedCount_single b hsmall]
      cases aggregation with
      | majority =>
        obtain rfl := Option.some.inj hneeded
        rfl
      | kOfN k n =>
        obtain rfl := Option.some.inj hneeded
        rw [ofNat_toNat_toInt64]
        rfl
      | all => cases hneeded
      | any => cases hneeded
      | firstDecisive => cases hneeded
    rw [hcounts]
    refine ⟨fun _ => ⟨rfl, hsmall⟩, fun _ => ?_⟩
    by_cases henough : needed ≤ [b].count true
    · rw [decide_eq_true henough]
      exact ⟨⟨fun _ => henough, fun _ => rfl⟩, fun h => absurd henough h⟩
    · rw [decide_eq_false henough]
      exact ⟨⟨fun h => (by cases h), fun h => absurd h henough⟩, fun _ => ⟨_, rfl⟩⟩
  · have hcount := List.count_le_length (a := true) (l := [b])
    simp only [List.length_singleton] at hcount
    refine ⟨fun ⟨hpasses, _⟩ => ?_, fun h => absurd h.2 hsmall⟩
    have hok : foldOutcome aggregation [b] = .ok () := by
      cases aggregation with
      | majority =>
        obtain rfl := Option.some.inj hneeded
        exact absurd (by simp) hsmall
      | kOfN k n =>
        obtain rfl := Option.some.inj hneeded
        exact evalMixedCount_negative b hsmall
      | all => cases hneeded
      | any => cases hneeded
      | firstDecisive => cases hneeded
    have henough := hpasses.mp hok
    omega

theorem bitsOf_eq_none {nodes : List ResolvedNode} (h : ∃ circuits, .subChip circuits ∈ nodes) :
    bitsOf nodes = none := by
  obtain ⟨circuits, hmem⟩ := h
  rw [bitsOf]
  induction nodes with
  | nil => cases hmem
  | cons node nodes ih =>
    rcases List.mem_cons.mp hmem with rfl | hrest
    · rfl
    · cases node with
      | bit b =>
        rw [List.mapM_cons, ih hrest]
        rfl
      | subChip _ => rfl

/-- The code `collect_bits` emits for a counting circuit with a sub-chip among its nodes meets its
threshold exactly if the sub-chip is the only node and the threshold is no negative `i64`. -/
theorem collectBits_counts_iff (env : VmEnv σ) (lib : TextLib) (nodes : List ResolvedNode)
    (hmixed : ∃ circuits, .subChip circuits ∈ nodes) (aggregation : AggregationMode) (needed : Nat)
    (hneeded : threshold aggregation nodes.length = some needed) (core : Core σ) (bs : List Bool)
    (hnodes : List.Forall₂ (fun node b => Leaves env core.cas (emitNodeAsBool lib node) [b])
      nodes bs) :
    ∃ code decoded, collectBits lib nodes aggregation = .ok (.inr code) ∧ Decodes code decoded ∧
      (Thresholds env decoded core (needed ≤ bs.count true) ↔
        nodes.length = 1 ∧ needed < 2 ^ 63) := by
  have hne : nodes ≠ [] := by
    rintro rfl
    obtain ⟨_, h⟩ := hmixed
    cases h
  have hlen : nodes.length = bs.length := hnodes.length_eq
  have hbs : bs ≠ [] := by
    rintro rfl
    exact hne (List.length_eq_zero_iff.mp hlen)
  obtain ⟨decoded, hdecodes, -, hexec⟩ := leaves_emitNodesAsBools hnodes
  have hcollect : collectBits lib nodes aggregation =
      .ok (.inr (emitNodesAsBools lib nodes ++ foldNodes aggregation nodes.length)) := by
    unfold collectBits
    rw [bitsOf_eq_none hmixed]
    exact if_neg (by simpa using hne)
  refine ⟨_, _, hcollect, hdecodes.append (Decodes.of_short (foldNodes_short _ _)), ?_⟩
  have hrun : (exec (execOp env) (decoded ++ foldNodes aggregation nodes.length) core).result =
      (foldOutcome aggregation bs).map fun _ => core := by
    rw [exec_append, bind_result, hexec core rfl, bind_ok, hlen, exec_foldNodes env _ hbs]
  have hpasses : (exec (execOp env) (decoded ++ foldNodes aggregation nodes.length) core).result =
      .ok core ↔ foldOutcome aggregation bs = .ok () := by
    rw [hrun]
    cases foldOutcome aggregation bs <;> simp [Except.map]
  have hdenies (reason : String) :
      (exec (execOp env) (decoded ++ foldNodes aggregation nodes.length) core).result =
        .error (.error (.deny reason)) ↔
      foldOutcome aggregation bs = .error (.error (.deny reason)) := by
    rw [hrun]
    cases foldOutcome aggregation bs <;> simp [Except.map]
  rw [hlen] at hneeded ⊢
  rw [← foldOutcome_counts_iff hneeded]
  constructor
  · rintro ⟨h₁, h₂⟩
    refine ⟨hpasses.symm.trans (hlen ▸ h₁), fun h => ?_⟩
    obtain ⟨reason, hreason⟩ := h₂ h
    exact ⟨reason, (hdenies reason).mp (hlen ▸ hreason)⟩
  · rintro ⟨h₁, h₂⟩
    refine ⟨hlen ▸ hpasses.trans h₁, fun h => ?_⟩
    obtain ⟨reason, hreason⟩ := h₂ h
    exact ⟨reason, hlen ▸ (hdenies reason).mpr hreason⟩

/-- A chip without circuits, inlined. -/
def emptyChip : ResolvedNode := .subChip []

theorem leaves_emptyChip {env : VmEnv σ} {cas : σ} {lib : TextLib} :
    Leaves env cas (emitNodeAsBool lib emptyChip) [true] := by
  have hcode : emitNodeAsBool lib emptyChip = [⟨.pushBool, [1]⟩] := by
    simp [emptyChip, emitNodeAsBool, emitCircuitsAsBools, countNodes]
  rw [hcode]
  exact ⟨_, Decodes.of_short (by simp [Instr.Short]), by simp, fun _ _ => rfl⟩

/-- `Always` with this decision. -/
def alwaysBit (holds : Bool) : ResolvedNode :=
  .bit ⟨"b3:0b", ⟨"b1", "always", .always holds, .allow, .deny, []⟩⟩

/-- A chip with one circuit of two bits, inlined. -/
def bitsChip : ResolvedNode :=
  .subChip [.mk "b3:0c" ⟨"c1", "both", ["b3:0b", "b3:0b"], "sequential", "all"⟩
    [alwaysBit true, alwaysBit false]]

theorem leaves_bitsChip {env : VmEnv σ} {cas : σ} {lib : TextLib} :
    Leaves env cas (emitNodeAsBool lib bitsChip) [false] := by
  have hcode : emitNodeAsBool lib bitsChip =
      [⟨.pushBool, [1]⟩, ⟨.pushBool, [0]⟩, ⟨.boolAnd, []⟩] := by
    simp [bitsChip, alwaysBit, emitNodeAsBool, emitCircuitsAsBools, emitNodesAsBools, countNodes,
      compileToBool]
  rw [hcode]
  exact ⟨_, Decodes.of_short (by simp [Instr.Short]), by simp, fun _ _ => rfl⟩

/-- A circuit with this chip as its one node has no majority. -/
theorem collectBits_counts_bitsChip :
    ∃ code decoded, collectBits plainLib [bitsChip] .majority = .ok (.inr code) ∧
      Decodes code decoded ∧
      Thresholds (textEnv Nrf.asciiText "\x7b\x7d" (.object []) 2) decoded (initial ())
        (1 ≤ [false].count true) := by
  obtain ⟨code, decoded, hcode, hdecodes, hcounts⟩ := collectBits_counts_iff
    (textEnv Nrf.asciiText "\x7b\x7d" (.object []) 2) plainLib [bitsChip] ⟨_, List.mem_cons_self⟩
    .majority 1 rfl (initial ()) [false] (.cons leaves_bitsChip .nil)
  exact ⟨code, decoded, hcode, hdecodes, hcounts.mpr ⟨rfl, by decide⟩⟩

/-- Two nodes that both hold are a majority, but their count ends in a type mismatch. -/
theorem mixed_majority_mismatch :
    ∃ code decoded, collectBits plainLib [emptyChip, emptyChip] .majority = .ok (.inr code) ∧
      Decodes code decoded ∧
      List.Forall₂ (fun node b => Leaves (textEnv Nrf.asciiText "\x7b\x7d" (.object []) 2) ()
        (emitNodeAsBool plainLib node) [b]) [emptyChip, emptyChip] [true, true] ∧
      threshold .majority 2 = some 2 ∧ 2 ≤ [true, true].count true ∧
      (exec (execOp (textEnv Nrf.asciiText "\x7b\x7d" (.object []) 2)) decoded (initial ())).result =
        .error (.error (.typeMismatch .boolToI64)) := by
  have hnodes : emitNodesAsBools plainLib [emptyChip, emptyChip] =
      [⟨.pushBool, [1]⟩, ⟨.pushBool, [1]⟩] := by
    simp [emptyChip, emitNodesAsBools, emitNodeAsBool, emitCircuitsAsBools, countNodes]
  have hcollect : collectBits plainLib [emptyChip, emptyChip] .majority =
      .ok (.inr ([⟨.pushBool, [1]⟩, ⟨.pushBool, [1]⟩] ++ foldNodes .majority 2)) := by
    have hnone : bitsOf [emptyChip, emptyChip] = none := rfl
    unfold collectBits
    rw [hnone, hnodes]
    rfl
  refine ⟨_, _, hcollect, Decodes.of_short ?_, .cons leaves_emptyChip (.cons leaves_emptyChip .nil),
    rfl, by decide, rfl⟩
  exact List.forall_mem_append.mpr ⟨by simp [Instr.Short], foldNodes_short _ _⟩

end Ubl.Silicon
