import Ubl.Silicon.Resolve
import Ubl.Lib.Fueled

/-!
# Cycles among chips

`resolve_chip_graph_inner` inserts a chip into `visiting` before it resolves the chip's graph and
removes it afterwards.  `resolveGraphRun` is the function as written, with the set as its state
and fuel for the depth of its recursion; it comes to what `resolveChipGraph` computes from the
chips on the way down (`resolveGraphRun_settles`).

    SubRef chip cid sub  :  a circuit of `chip` has the chip `sub` with this CID among its entries
    Revisits chip        :  a path of such references from `chip` comes to a CID twice

When all references can be followed the graph is inlined as it stands, unless a path comes to
a CID twice (`resolveChipGraph_exact`).
-/

namespace Ubl.Silicon

open AssocMap ExceptLemmas Fueled

/-! ## The function as written -/

/-- What the run may stop with; `none` if it was short of fuel. -/
abbrev Stop := Option SiliconError

abbrev Visiting := StateT (Finset String) (Except Stop)

def stopWith {α : Type} (r : Except SiliconError α) : Except Stop α := r.mapError some

/-- `HashSet::insert`: whether the CID was new. -/
def insertVisiting (cid : String) : Visiting Bool := fun visiting =>
  .ok (decide (cid ∉ visiting), insert cid visiting)

def removeVisiting (cid : String) : Visiting Unit := fun visiting => .ok ((), visiting.erase cid)

section Run

variable (lib : TextLib) (store : ChipStore)

/-- One entry of a circuit; `sub` resolves the graph of a chip. -/
def resolveEntryRun (sub : SiliconChipBody → Visiting (List ResolvedCircuit)) (entryCid : String) :
    Visiting ResolvedNode := do
  match ← stopWith (store.getChip entryCid) with
  | none => throw (some (.bitNotFound entryCid))
  | some stored =>
    if stored.chipType = TYPE_SILICON_BIT then do
      let body ← stopWith (parseBit lib stored.chipData)
      pure (.bit ⟨entryCid, body⟩)
    else if stored.chipType = TYPE_SILICON_CHIP then do
      let isNew ← insertVisiting entryCid
      if isNew then do
        let chip ← stopWith (parseChip stored.chipData)
        let circuits ← sub chip
        removeVisiting entryCid
        pure (.subChip circuits)
      else throw (some (.cyclicChipGraph entryCid))
    else throw (some (.invalidField ("circuit bits[" ++ entryCid ++ "] has unsupported type '" ++
      stored.chipType ++ "'; expected bit or chip")))

/-- `resolve_chip_graph_inner`. -/
def resolveGraphRun : Nat → SiliconChipBody → Visiting (List ResolvedCircuit)
  | 0, _ => throw none
  | fuel + 1, chip => chip.circuits.mapM fun circuitCid => do
    match ← stopWith (store.getChip circuitCid) with
    | none => throw (some (.circuitNotFound circuitCid))
    | some stored => do
      let body ← stopWith (parseCircuit lib stored.chipData)
      let nodes ← body.bits.mapM (resolveEntryRun lib store (resolveGraphRun fuel))
      pure (.mk circuitCid body nodes)

end Run

/-! ## The set is the chips on the way down -/

section Settles

variable {lib : TextLib} {store : ChipStore}

/-- A computation that leaves the set as it found it. -/
def Computes {α : Type} (m : Visiting α) (visiting : Finset String) (r : Except SiliconError α) :
    Prop :=
  m visiting = (stopWith r).map fun a => (a, visiting)

theorem Computes.lift {α β : Type} {visiting : Finset String} {x : Except SiliconError α}
    {f : α → Visiting β} {g : α → Except SiliconError β}
    (h : ∀ a, x = .ok a → Computes (f a) visiting (g a)) :
    Computes (do let a ← stopWith x; f a) visiting (x >>= g) := by
  cases x with
  | error e => rfl
  | ok a => exact h a rfl

theorem computes_throw {α : Type} (visiting : Finset String) (e : SiliconError) :
    Computes (α := α) (throw (some e)) visiting (.error e) := rfl

theorem computes_pure {α : Type} (visiting : Finset String) (a : α) :
    Computes (pure a) visiting (.ok a) := rfl

theorem Computes.bind {α β : Type} {visiting : Finset String} {m : Visiting α}
    {r : Except SiliconError α} {f : α → Visiting β} {g : α → Except SiliconError β}
    (hm : Computes m visiting r) (hf : ∀ a, r = .ok a → Computes (f a) visiting (g a)) :
    Computes (m >>= f) visiting (r >>= g) := by
  have hrun : (m >>= f) visiting = m visiting >>= fun p => f p.1 p.2 := rfl
  unfold Computes at hm ⊢
  rw [hrun, hm]
  cases r with
  | error e => rfl
  | ok a => exact hf a rfl

theorem Computes.mapM {α β : Type} {visiting : Finset String} {f : α → Visiting β}
    {g : α → Except SiliconError β} {l : List α} (h : ∀ a ∈ l, Computes (f a) visiting (g a)) :
    Computes (l.mapM f) visiting (l.mapM g) := by
  induction l with
  | nil => rfl
  | cons a l ih =>
    rw [List.mapM_cons, List.mapM_cons]
    refine (h a List.mem_cons_self).bind fun b _ => ?_
    refine (ih fun a' ha' => h a' (List.mem_cons_of_mem _ ha')).bind fun bs _ => ?_
    exact computes_pure visiting (b :: bs)

/-- A chip is entered and left again. -/
theorem computes_resolveEntry {visiting : List String}
    {subRun : SiliconChipBody → Visiting (List ResolvedCircuit)}
    {sub : (cid : String) → cid ∈ keys store.chips → cid ∉ visiting → SiliconChipBody →
      Except SiliconError (List ResolvedCircuit)}
    (hsub : ∀ cid hmem hnew chip,
      Computes (subRun chip) (cid :: visiting).toFinset (sub cid hmem hnew chip))
    (entryCid : String) :
    Computes (resolveEntryRun lib store subRun entryCid) visiting.toFinset
      (resolveEntry lib store visiting sub entryCid) := by
  unfold resolveEntryRun resolveEntry
  split
  · rename_i e hget
    rw [hget]
    rfl
  · rename_i hget
    rw [hget]
    rfl
  · rename_i stored hget
    generalize_proofs hmem
    rw [hget]
    show Computes (if stored.chipType = TYPE_SILICON_BIT then _ else _) _ _
    by_cases hbit : stored.chipType = TYPE_SILICON_BIT
    · rw [if_pos hbit, if_pos hbit]
      exact Computes.lift fun body _ => computes_pure _ _
    rw [if_neg hbit, if_neg hbit]
    by_cases hchip : stored.chipType = TYPE_SILICON_CHIP
    swap
    · rw [if_neg hchip, if_neg hchip]
      exact computes_throw _ _
    rw [if_pos hchip, if_pos hchip]
    by_cases hv : entryCid ∈ visiting
    · rw [dif_pos hv]
      have hold : decide (entryCid ∉ visiting.toFinset) = false := by simp [hv]
      unfold Computes
      show (if decide (entryCid ∉ visiting.toFinset) = true then _ else _ : Visiting ResolvedNode)
        (insert entryCid visiting.toFinset) = _
      rw [hold]
      rfl
    · rw [dif_neg hv]
      have hnew : decide (entryCid ∉ visiting.toFinset) = true := by simp [hv]
      unfold Computes
      show (if decide (entryCid ∉ visiting.toFinset) = true then _ else _ : Visiting ResolvedNode)
        (insert entryCid visiting.toFinset) = _
      rw [hnew, if_pos rfl, ← List.toFinset_cons]
      cases hparse : parseChip stored.chipData with
      | error e => rfl
      | ok chip =>
        have hcomputes := hsub entryCid hmem hv chip
        show (subRun chip (entryCid :: visiting).toFinset >>= fun p => _) = _
        rw [hcomputes, bind_ok]
        cases sub entryCid hmem hv chip with
        | error e => rfl
        | ok circuits =>
          have herase : (entryCid :: visiting).toFinset.erase entryCid = visiting.toFinset := by
            rw [List.toFinset_cons, Finset.erase_insert (by simpa using hv)]
          show Except.ok (ResolvedNode.subChip circuits,
            (entryCid :: visiting).toFinset.erase entryCid) = _
          rw [herase]
          rfl

/-- Fuel for one level more than there are stored chips left is enough. -/
theorem computes_resolveGraph (fuel : Nat) (visiting : List String) (chip : SiliconChipBody)
    (hfuel : (unvisited store visiting).length < fuel) :
    Computes (resolveGraphRun lib store fuel chip) visiting.toFinset
      (resolveChipGraphInner lib store visiting chip) := by
  induction fuel generalizing visiting chip with
  | zero => omega
  | succ fuel ih =>
    rw [resolveGraphRun, resolveChipGraphInner]
    refine Computes.mapM fun circuitCid _ => Computes.lift fun stored _ => ?_
    cases stored with
    | none => exact computes_throw _ _
    | some stored =>
      refine Computes.lift fun body _ => Computes.bind (Computes.mapM fun entryCid _ => ?_)
        fun nodes _ => computes_pure _ _
      refine computes_resolveEntry (fun cid hmem hnew subChip => ih _ _ ?_) entryCid
      have := unvisited_shrinks hmem hnew
      omega

end Settles

/-! ## References among chips -/

section References

variable (lib : TextLib) (store : ChipStore)

/-- The circuit stored under the CID. -/
def HasCircuit (cid : String) (body : SiliconCircuitBody) : Prop :=
  ∃ stored, store.getChip cid = .ok (some stored) ∧ parseCircuit lib stored.chipData = .ok body

/-- The bit stored under the CID. -/
def HasBit (cid : String) (body : SiliconBitBody) : Prop :=
  ∃ stored, store.getChip cid = .ok (some stored) ∧ stored.chipType = TYPE_SILICON_BIT ∧
    parseBit lib stored.chipData = .ok body

/-- The chip stored under the CID. -/
def HasChip (cid : String) (chip : SiliconChipBody) : Prop :=
  ∃ stored, store.getChip cid = .ok (some stored) ∧ stored.chipType = TYPE_SILICON_CHIP ∧
    parseChip stored.chipData = .ok chip

/-- A circuit of the chip has the chip `sub` among its entries. -/
def SubRef (chip : SiliconChipBody) (cid : String) (sub : SiliconChipBody) : Prop :=
  ∃ circuitCid ∈ chip.circuits, ∃ body, HasCircuit lib store circuitCid body ∧ cid ∈ body.bits ∧
    HasChip store cid sub

/-- The CIDs on a path of references from one chip to another. -/
inductive RefPath : SiliconChipBody → List String → SiliconChipBody → Prop
  | here (chip : SiliconChipBody) : RefPath chip [] chip
  | step {chip sub last : SiliconChipBody} {cid : String} {path : List String}
      (href : SubRef lib store chip cid sub) (hpath : RefPath sub path last) :
      RefPath chip (cid :: path) last

/-- All references of the chip exist and parse. -/
def Followable (chip : SiliconChipBody) : Prop :=
  ∀ circuitCid ∈ chip.circuits, ∃ body, HasCircuit lib store circuitCid body ∧
    ∀ cid ∈ body.bits, (∃ bit, HasBit lib store cid bit) ∨ ∃ sub, HasChip store cid sub

/-- All references that can be reached from the chip exist and parse. -/
def Resolvable (chip : SiliconChipBody) : Prop :=
  ∀ path last, RefPath lib store chip path last → Followable lib store last

/-- Some path comes to a CID twice. -/
def Revisits (chip : SiliconChipBody) : Prop :=
  ∃ path last, RefPath lib store chip path last ∧ ¬ path.Nodup

mutual

/-- The entry with this CID, inlined. -/
inductive InlinedNode : String → ResolvedNode → Prop
  | bit {cid : String} {body : SiliconBitBody} (h : HasBit lib store cid body) :
      InlinedNode cid (.bit ⟨cid, body⟩)
  | subChip {cid : String} {chip : SiliconChipBody} {circuits : List ResolvedCircuit}
      (h : HasChip store cid chip) (hcircuits : List.Forall₂ InlinedCircuit chip.circuits circuits) :
      InlinedNode cid (.subChip circuits)

/-- The circuit with this CID and all of its entries, in order. -/
inductive InlinedCircuit : String → ResolvedCircuit → Prop
  | mk {cid : String} {body : SiliconCircuitBody} {nodes : List ResolvedNode}
      (h : HasCircuit lib store cid body) (hnodes : List.Forall₂ InlinedNode body.bits nodes) :
      InlinedCircuit cid (.mk cid body nodes)

end

end References

section Exact

variable {lib : TextLib} {store : ChipStore}

theorem Resolvable.followable {chip : SiliconChipBody} (h : Resolvable lib store chip) :
    Followable lib store chip :=
  h [] chip (.here chip)

theorem Resolvable.sub {chip sub : SiliconChipBody} {cid : String}
    (h : Resolvable lib store chip) (href : SubRef lib store chip cid sub) :
    Resolvable lib store sub :=
  fun path last hpath => h (cid :: path) last (.step href hpath)

/-- What is stored under a CID is one circuit at most. -/
theorem HasCircuit.unique {cid : String} {body body' : SiliconCircuitBody}
    (h : HasCircuit lib store cid body) (h' : HasCircuit lib store cid body') : body = body' := by
  obtain ⟨stored, hget, hparse⟩ := h
  obtain ⟨stored', hget', hparse'⟩ := h'
  obtain rfl := Option.some.inj (Except.ok.inj (hget.symm.trans hget'))
  exact Except.ok.inj (hparse.symm.trans hparse')

/-- What is stored under a CID is one chip at most. -/
theorem HasChip.unique {cid : String} {chip chip' : SiliconChipBody} (h : HasChip store cid chip)
    (h' : HasChip store cid chip') : chip = chip' := by
  obtain ⟨stored, hget, -, hparse⟩ := h
  obtain ⟨stored', hget', -, hparse'⟩ := h'
  obtain rfl : stored = stored' :=
    Option.some.inj (Except.ok.inj (hget.symm.trans hget'))
  exact Except.ok.inj (hparse.symm.trans hparse')

/-- No CID of the path is in `visiting`, and none comes twice. -/
def Fresh (visiting path : List String) : Prop := path.Nodup ∧ ∀ cid ∈ path, cid ∉ visiting

theorem fresh_cons {visiting path : List String} {cid : String} :
    Fresh visiting (cid :: path) ↔ cid ∉ visiting ∧ Fresh (cid :: visiting) path := by
  simp only [Fresh, List.nodup_cons, List.mem_cons, forall_eq_or_imp, not_or]
  constructor
  · rintro ⟨⟨hnot, hnodup⟩, hcid, hpath⟩
    exact ⟨hcid, hnodup, fun c hc => ⟨fun h => hnot (h ▸ hc), hpath c hc⟩⟩
  · rintro ⟨hcid, hnodup, hpath⟩
    exact ⟨⟨fun h => (hpath cid h).1 rfl, hnodup⟩, hcid, fun c hc => (hpath c hc).2⟩

theorem exists_of_forall₂ {α β : Type} {P : α → β → Prop} {l : List α} {bs : List β}
    (h : List.Forall₂ P l bs) {a : α} (ha : a ∈ l) : ∃ b ∈ bs, P a b := by
  induction h with
  | nil => cases ha
  | @cons a' b l bs hP _ ih =>
    rcases List.mem_cons.mp ha with rfl | ha
    · exact ⟨b, List.mem_cons_self, hP⟩
    · obtain ⟨b', hb', hP'⟩ := ih ha
      exact ⟨b', List.mem_cons_of_mem _ hb', hP'⟩

/-- Element by element, a list comes to its results or to the first error. -/
theorem mapM_outcome {α β ε : Type} {f : α → Except ε β} {P : α → β → Prop} {Q : ε → Prop}
    {l : List α} (h : ∀ a ∈ l, (∃ b, f a = .ok b ∧ P a b) ∨ ∃ e, f a = .error e ∧ Q e) :
    (∃ bs, l.mapM f = .ok bs ∧ List.Forall₂ P l bs) ∨ ∃ e, l.mapM f = .error e ∧ Q e := by
  induction l with
  | nil => exact .inl ⟨[], rfl, .nil⟩
  | cons a l ih =>
    rw [List.mapM_cons]
    rcases h a List.mem_cons_self with ⟨b, hb, hP⟩ | ⟨e, he, hQ⟩
    · rw [hb, bind_ok]
      rcases ih fun a' ha' => h a' (List.mem_cons_of_mem _ ha') with ⟨bs, hbs, hall⟩ | ⟨e, he, hQ⟩
      · rw [hbs]
        exact .inl ⟨b :: bs, rfl, .cons hP hall⟩
      · rw [he]
        exact .inr ⟨e, rfl, hQ⟩
    · rw [he]
      exact .inr ⟨e, rfl, hQ⟩

/-- The descent from the chip is cut off by a path that is not fresh. -/
def CutOff (lib : TextLib) (store : ChipStore) (visiting : List String) (chip : SiliconChipBody)
    (e : SiliconError) : Prop :=
  (∃ cid, e = .cyclicChipGraph cid) ∧
    ∃ path last, RefPath lib store chip path last ∧ ¬ Fresh visiting path

/-- An entry is inlined, all paths through it being fresh, or the descent is cut off. -/
theorem resolveEntry_outcome {visiting : List String} {chip : SiliconChipBody}
    {circuitCid : String} (hcircuit : circuitCid ∈ chip.circuits) {body : SiliconCircuitBody}
    (hbody : HasCircuit lib store circuitCid body) {cid : String} (hcid : cid ∈ body.bits)
    (hentry : (∃ bit, HasBit lib store cid bit) ∨ ∃ sub, HasChip store cid sub)
    {sub : (cid : String) → cid ∈ keys store.chips → cid ∉ visiting → SiliconChipBody →
      Except SiliconError (List ResolvedCircuit)}
    (hsub : ∀ cid hmem hnew subChip, SubRef lib store chip cid subChip →
      (∃ circuits, sub cid hmem hnew subChip = .ok circuits ∧
          List.Forall₂ (InlinedCircuit lib store) subChip.circuits circuits ∧
          ∀ path last, RefPath lib store subChip path last → Fresh (cid :: visiting) path) ∨
        ∃ e, sub cid hmem hnew subChip = .error e ∧ CutOff lib store (cid :: visiting) subChip e) :
    (∃ node, resolveEntry lib store visiting sub cid = .ok node ∧
        InlinedNode lib store cid node ∧
        ∀ subChip, HasChip store cid subChip → ∀ path last, RefPath lib store subChip path last →
          Fresh visiting (cid :: path)) ∨
      ∃ e, resolveEntry lib store visiting sub cid = .error e ∧ CutOff lib store visiting chip e := by
  obtain ⟨bit, stored, hget, htype, hparse⟩ | ⟨subChip, stored, hget, htype, hparse⟩ := hentry
  · refine .inl ⟨.bit ⟨cid, bit⟩, ?_, .bit ⟨stored, hget, htype, hparse⟩, ?_⟩
    · unfold resolveEntry
      split
      · rename_i h
        rw [hget] at h
        cases h
      · rename_i h
        rw [hget] at h
        cases h
      · rename_i h
        obtain rfl := Option.some.inj (Except.ok.inj (hget.symm.trans h))
        rw [if_pos htype, hparse]
        rfl
    · rintro subChip ⟨stored', hget', htype', -⟩
      obtain rfl := Option.some.inj (Except.ok.inj (hget.symm.trans hget'))
      rw [htype] at htype'
      exact absurd htype' (by decide)
  · have hhas : HasChip store cid subChip := ⟨stored, hget, htype, hparse⟩
    have href : SubRef lib store chip cid subChip := ⟨circuitCid, hcircuit, body, hbody, hcid, hhas⟩
    have hnotBit : stored.chipType ≠ TYPE_SILICON_BIT := by
      rw [htype]
      decide
    have hresolve (hmem : cid ∈ keys store.chips) : resolveEntry lib store visiting sub cid =
        if hv : cid ∈ visiting then .error (.cyclicChipGraph cid)
        else (do
          let circuits ← sub cid hmem hv subChip
          .ok (.subChip circuits)) := by
      unfold resolveEntry
      split
      · rename_i h
        rw [hget] at h
        cases h
      · rename_i h
        rw [hget] at h
        cases h
      · rename_i h
        obtain rfl := Option.some.inj (Except.ok.inj (hget.symm.trans h))
        rw [if_neg hnotBit, if_pos htype, hparse]
        rfl
    rw [hresolve (mem_keys_of_getChip hget)]
    by_cases hv : cid ∈ visiting
    · rw [dif_pos hv]
      refine .inr ⟨_, rfl, ⟨cid, rfl⟩, [cid], subChip, .step href (.here subChip), ?_⟩
      exact fun hfresh => (fresh_cons.mp hfresh).1 hv
    · rw [dif_neg hv]
      rcases hsub cid (mem_keys_of_getChip hget) hv subChip href with
        ⟨circuits, hok, hinlined, hfresh⟩ | ⟨e, he, ⟨cid', rfl⟩, path, last, hpath, hcut⟩
      · rw [hok]
        refine .inl ⟨_, rfl, .subChip hhas hinlined, fun subChip' hhas' path last hpath => ?_⟩
        obtain rfl := hhas.unique hhas'
        exact fresh_cons.mpr ⟨hv, hfresh path last hpath⟩
      · rw [he]
        refine .inr ⟨_, rfl, ⟨cid', rfl⟩, cid :: path, last, .step href hpath, fun hfresh => ?_⟩
        exact hcut (fresh_cons.mp hfresh).2

/-- The graph of a chip is inlined, all paths being fresh, or the descent is cut off. -/
theorem resolveChipGraphInner_outcome (visiting : List String) (chip : SiliconChipBody)
    (hchip : Resolvable lib store chip) :
    (∃ circuits, resolveChipGraphInner lib store visiting chip = .ok circuits ∧
        List.Forall₂ (InlinedCircuit lib store) chip.circuits circuits ∧
        ∀ path last, RefPath lib store chip path last → Fresh visiting path) ∨
      ∃ e, resolveChipGraphInner lib store visiting chip = .error e ∧
        CutOff lib store visiting chip e := by
  induction hn : (unvisited store visiting).length using Nat.strong_induction_on
    generalizing visiting chip with
  | _ n ih =>
    -- what is resolved for a circuit, and the paths that begin in it
    have hcircuits := mapM_outcome (l := chip.circuits)
      (f := fun circuitCid => do
        match ← store.getChip circuitCid with
        | none => .error (.circuitNotFound circuitCid)
        | some stored => do
          let body ← parseCircuit lib stored.chipData
          let nodes ← body.bits.mapM (resolveEntry lib store visiting fun cid _ _ subChip =>
            resolveChipGraphInner lib store (cid :: visiting) subChip)
          .ok (.mk circuitCid body nodes))
      (P := fun circuitCid circuit => InlinedCircuit lib store circuitCid circuit ∧
        ∀ body, HasCircuit lib store circuitCid body → ∀ cid ∈ body.bits, ∀ subChip,
          HasChip store cid subChip → ∀ path last, RefPath lib store subChip path last →
            Fresh visiting (cid :: path))
      (Q := CutOff lib store visiting chip) ?_
    · rw [resolveChipGraphInner]
      rcases hcircuits with ⟨circuits, hok, hall⟩ | ⟨e, he, hcut⟩
      · refine .inl ⟨circuits, hok, hall.imp fun _ _ h => h.1, fun path last hpath => ?_⟩
        cases hpath with
        | here => exact ⟨List.nodup_nil, by simp⟩
        | step href hpath =>
          obtain ⟨circuitCid, hcircuit, body, hbody, hcid, hhas⟩ := href
          obtain ⟨circuit, -, -, hfresh⟩ := exists_of_forall₂ hall hcircuit
          exact hfresh body hbody _ hcid _ hhas _ _ hpath
      · exact .inr ⟨e, he, hcut⟩
    · intro circuitCid hcircuit
      obtain ⟨body, hbody, hentries⟩ := hchip.followable circuitCid hcircuit
      have hnodes := mapM_outcome (l := body.bits)
        (f := resolveEntry lib store visiting fun cid _ _ subChip =>
          resolveChipGraphInner lib store (cid :: visiting) subChip)
        fun cid hcid => resolveEntry_outcome hcircuit hbody hcid (hentries cid hcid)
          fun cid hmem hnew subChip href =>
            ih _ (hn ▸ unvisited_shrinks hmem hnew) _ _ (hchip.sub href) rfl
      obtain ⟨stored, hget, hparse⟩ := hbody
      rw [hget, bind_ok]
      simp only [hparse, bind_ok]
      rcases hnodes with ⟨nodes, hok, hall⟩ | ⟨e, he, hcut⟩
      · rw [hok, bind_ok]
        refine .inl ⟨_, rfl, .mk ⟨stored, hget, hparse⟩ (hall.imp fun _ _ h => h.1), ?_⟩
        intro body' hbody' cid hcid subChip hhas path last hpath
        obtain rfl := hbody'.unique ⟨stored, hget, hparse⟩
        obtain ⟨node, -, -, hfresh⟩ := exists_of_forall₂ hall hcid
        exact hfresh subChip hhas path last hpath
      · rw [he, bind_error]
        exact .inr ⟨e, rfl, hcut⟩

end Exact

/-- With an empty set the run comes to what `resolveChipGraph` says. -/
theorem resolveGraphRun_settles (lib : TextLib) (store : ChipStore) (chip : SiliconChipBody) :
    Settles (fun fuel => (resolveGraphRun lib store fuel chip).run' ∅)
      (stopWith (resolveChipGraph lib store chip)) := by
  refine ⟨(unvisited store []).length + 1, fun fuel hfuel => ?_⟩
  have hcomputes : Computes (resolveGraphRun lib store fuel chip) ∅
      (resolveChipGraphInner lib store [] chip) :=
    computes_resolveGraph fuel [] chip hfuel
  rw [Computes] at hcomputes
  show Prod.fst <$> resolveGraphRun lib store fuel chip ∅ = _
  rw [hcomputes, resolveChipGraph]
  cases resolveChipGraphInner lib store [] chip <;> rfl

/-- The descent ends for every chip over every store.  If all references that can be reached
exist and parse, it ends in `CyclicChipGraph` exactly when some path comes to a CID twice, and in
the inlined graph otherwise. -/
theorem resolveChipGraph_exact (lib : TextLib) (store : ChipStore) (chip : SiliconChipBody) :
    Settles (fun fuel => (resolveGraphRun lib store fuel chip).run' ∅)
      (stopWith (resolveChipGraph lib store chip)) ∧
    (Resolvable lib store chip →
      ((∃ cid, resolveChipGraph lib store chip = .error (.cyclicChipGraph cid)) ↔
        Revisits lib store chip) ∧
      (¬ Revisits lib store chip → ∃ circuits, resolveChipGraph lib store chip = .ok circuits ∧
        List.Forall₂ (InlinedCircuit lib store) chip.circuits circuits)) := by
  refine ⟨resolveGraphRun_settles lib store chip, fun hchip => ?_⟩
  have hfresh {path : List String} : Fresh [] path ↔ path.Nodup := by simp [Fresh]
  rw [resolveChipGraph]
  rcases resolveChipGraphInner_outcome [] chip hchip with
    ⟨circuits, hok, hinlined, hall⟩ | ⟨e, he, ⟨cid, rfl⟩, path, last, hpath, hcut⟩
  · rw [hok]
    refine ⟨⟨fun ⟨_, h⟩ => (by cases h), ?_⟩, fun _ => ⟨circuits, rfl, hinlined⟩⟩
    rintro ⟨path, last, hpath, hnot⟩
    exact absurd (hfresh.mp (hall path last hpath)) hnot
  · have hrevisits : Revisits lib store chip := ⟨path, last, hpath, fun h => hcut (hfresh.mpr h)⟩
    rw [he]
    exact ⟨⟨fun _ => hrevisits, fun _ => ⟨cid, rfl⟩⟩, fun hnot => absurd hrevisits hnot⟩

/-! A diamond: two circuits that share a chip. -/

section Diamond

def diamondCircuit (entry : String) : StoredChip :=
  ⟨"ubl/silicon.circuit", .object [("aggregator", .string "all"), ("bits", .array [.string entry]),
    ("composition", .string "sequential"), ("id", .string "C"), ("name", .string "C")]⟩

def sharedChip : SiliconChipBody :=
  ⟨"S", "S", ["b3:12"], ⟨"HAL/v0/cpu", [], true, none, none, none⟩, "1.0"⟩

def diamondChip : SiliconChipBody := { sharedChip with circuits := ["b3:10", "b3:11"] }

def diamondStore : ChipStore :=
  ⟨[("b3:10", diamondCircuit "b3:20"), ("b3:11", diamondCircuit "b3:20"),
    ("b3:20", ⟨"ubl/silicon.chip", .object [("circuits", .array [.string "b3:12"]),
      ("hal", .object [("profile", .string "HAL/v0/cpu")]), ("id", .string "S"),
      ("name", .string "S")]⟩),
    ("b3:12", diamondCircuit "b3:30"),
    ("b3:30", ⟨"ubl/silicon.bit", .object [("condition",
        .object [("op", .string "always"), ("value", .bool true)]), ("id", .string "B"),
      ("name", .string "B"), ("on_false", .string "deny"), ("on_true", .string "allow")]⟩)],
   fun _ => none⟩

def diamondLib : TextLib := ⟨fun _ => "", id⟩

theorem diamond_circuit {cid entry : String}
    (h : diamondStore.getChip cid = .ok (some (diamondCircuit entry)))
    (hentry : parseCids (diamondCircuit entry).chipData "bits" = .ok [entry]) :
    HasCircuit diamondLib diamondStore cid ⟨"C", "C", [entry], "sequential", "all"⟩ := by
  refine ⟨_, h, ?_⟩
  rw [parseCircuit, hentry]
  rfl

theorem diamond_bit :
    HasBit diamondLib diamondStore "b3:30" ⟨"B", "B", .always true, .allow, .deny, []⟩ := by
  refine ⟨_, rfl, rfl, ?_⟩
  have hcond : conditionFromValue (.object [("op", .string "always"), ("value", .bool true)]) =
      .ok (.always true) := by
    rw [conditionFromValue]
    show parseTagged "always" _ = _
    rw [parseTagged]
    rfl
  show (conditionFromValue (.object [("op", .string "always"), ("value", .bool true)]) >>= _) = _
  rw [hcond]
  rfl

theorem diamond_shared : HasChip diamondStore "b3:20" sharedChip := ⟨_, rfl, rfl, rfl⟩

theorem diamond_ten :
    HasCircuit diamondLib diamondStore "b3:10" ⟨"C", "C", ["b3:20"], "sequential", "all"⟩ :=
  diamond_circuit rfl rfl

theorem diamond_eleven :
    HasCircuit diamondLib diamondStore "b3:11" ⟨"C", "C", ["b3:20"], "sequential", "all"⟩ :=
  diamond_circuit rfl rfl

theorem diamond_twelve :
    HasCircuit diamondLib diamondStore "b3:12" ⟨"C", "C", ["b3:30"], "sequential", "all"⟩ :=
  diamond_circuit rfl rfl

theorem diamond_paths {path : List String} {last : SiliconChipBody}
    (h : RefPath diamondLib diamondStore diamondChip path last) :
    (path = [] ∧ last = diamondChip) ∨ (path = ["b3:20"] ∧ last = sharedChip) := by
  have hshared {cid : String} {sub : SiliconChipBody} :
      ¬ SubRef diamondLib diamondStore sharedChip cid sub := by
    rintro ⟨circuitCid, hcircuit, body, hbody, hcid, stored, hget, htype, -⟩
    obtain rfl : circuitCid = "b3:12" := List.mem_singleton.mp hcircuit
    obtain rfl := hbody.unique diamond_twelve
    obtain rfl := List.mem_singleton.mp hcid
    obtain rfl := Option.some.inj (Except.ok.inj hget)
    exact absurd htype (by decide)
  cases h with
  | here => exact .inl ⟨rfl, rfl⟩
  | @step _ sub _ cid path href hpath =>
    obtain ⟨circuitCid, hcircuit, body, hbody, hcid, hsub⟩ := href
    have hbits : body.bits = ["b3:20"] := by
      rcases List.mem_cons.mp hcircuit with rfl | hcircuit
      · rw [hbody.unique diamond_ten]
      · obtain rfl : circuitCid = "b3:11" := List.mem_singleton.mp hcircuit
        rw [hbody.unique diamond_eleven]
    rw [hbits] at hcid
    obtain rfl := List.mem_singleton.mp hcid
    obtain rfl := hsub.unique diamond_shared
    cases hpath with
    | here => exact .inr ⟨rfl, rfl⟩
    | step href _ => exact absurd href hshared

/-- The shared chip is accepted, and inlined in both circuits. -/
theorem resolveChipGraph_exact_diamond : ∃ circuits,
    resolveChipGraph diamondLib diamondStore diamondChip = .ok circuits ∧
      List.Forall₂ (InlinedCircuit diamondLib diamondStore) ["b3:10", "b3:11"] circuits := by
  refine ((resolveChipGraph_exact diamondLib diamondStore diamondChip).2 ?_).2 ?_
  · intro path last hpath
    rcases diamond_paths hpath with ⟨-, rfl⟩ | ⟨-, rfl⟩
    · simp only [Followable, diamondChip, List.mem_cons, List.not_mem_nil, or_false,
        forall_eq_or_imp, forall_eq]
      exact ⟨⟨_, diamond_ten, by simpa using .inr ⟨_, diamond_shared⟩⟩,
        _, diamond_eleven, by simpa using .inr ⟨_, diamond_shared⟩⟩
    · simp only [Followable, sharedChip, List.mem_cons, List.not_mem_nil, or_false, forall_eq]
      exact ⟨_, diamond_twelve, by simpa using .inl ⟨_, diamond_bit⟩⟩
  · rintro ⟨path, last, hpath, hnot⟩
    rcases diamond_paths hpath with ⟨rfl, -⟩ | ⟨rfl, -⟩
    · exact hnot List.nodup_nil
    · exact hnot (List.nodup_singleton _)

end Diamond

end Ubl.Silicon
