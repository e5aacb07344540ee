import Mathlib.Data.Set.Finite.Lemmas
import Mathlib.Order.Preorder.Finite
import Ubl.Lib.KeyTree
import Ubl.Pipeline.MetaChip

/-!
# `registry.rs`: the types that the meta-chips tell of

`materialize_registry` goes over the registrations, then over the descriptions, then over the
deprecations, each in the order of creation, and every chip overwrites what it is about.  So what is
shown last is of the last pass that has a chip of the type, not of the newest chip.

    the registry shows every type as its newest chips have it ↔
      the newest chips of a type stand in the order of the passes     (showsLatest_iff)
-/

namespace Ubl.Gate

open Chipstore Pipeline

/-! ## The view -/

structure RegistryVersionView where
  version : String
  schema : Option Json
  kats : List Json
  requiredCap : Option String
  registerCid : Option String
  updatedAt : Option String

structure RegistryTypeView where
  chipType : String
  latestVersion : Option String
  deprecated : Bool
  hasKats : Bool
  requiredCap : Option String
  description : Option String
  docsUrl : Option String
  deprecation : Option Json
  lastCid : Option String
  lastUpdatedAt : Option String
  versions : KeyTree String RegistryVersionView

structure RegistryView where
  types : KeyTree String RegistryTypeView

def RegistryTypeView.new (chipType : String) : RegistryTypeView :=
  ⟨chipType, none, false, false, none, none, none, none, none, none, .empty⟩

def worldMatches (chip : StoredChip) (worldFilter : Option String) : Bool :=
  worldFilter.all fun expected => strField chip.chipData "@world" = some expected

/-- What stands for a type, or a new entry. -/
def typeEntry (types : KeyTree String RegistryTypeView) (chipType : String) : RegistryTypeView :=
  (types.get chipType).getD (.new chipType)

/-! ## The passes -/

/-- The type that a chip is about, and what the chip makes of its entry. -/
abbrev Update := String × (RegistryTypeView → RegistryTypeView)

variable (lib : MetaLib)

def registerUpdate (chip : StoredChip) : Option Update :=
  match parseRegister lib chip.chipData with
  | .error _ => none
  | .ok parsed =>
    some (parsed.targetType, fun entry => { entry with
      latestVersion := some parsed.typeVersion
      description := some parsed.description
      hasKats := entry.hasKats || !parsed.kats.isEmpty
      requiredCap := parsed.schema.requiredCap
      lastCid := some chip.cid
      lastUpdatedAt := some chip.createdAt
      versions := entry.versions.insert parsed.typeVersion
        ⟨parsed.typeVersion, some parsed.schema.toJson, parsed.kats.map Kat.toJson,
          parsed.schema.requiredCap, some chip.cid, some chip.createdAt⟩ })

/-- New tests are those of the latest version. -/
def describeKats (chip : StoredChip) (kats : List Kat) (entry : RegistryTypeView) :
    RegistryTypeView :=
  if kats.isEmpty then entry
  else
    { entry with
      hasKats := true
      versions :=
        match entry.latestVersion with
        | none => entry.versions
        | some ver =>
          match entry.versions.get ver with
          | none => entry.versions
          | some version => entry.versions.insert ver
              { version with kats := kats.map Kat.toJson, updatedAt := some chip.createdAt } }

def describeUpdate (chip : StoredChip) : Option Update :=
  match parseDescribe chip.chipData with
  | .error _ => none
  | .ok parsed =>
    some (parsed.targetType, fun entry => describeKats chip parsed.kats { entry with
      description := some parsed.description
      docsUrl := parsed.docsUrl
      lastCid := some chip.cid
      lastUpdatedAt := some chip.createdAt })

def orNullStr (value : Option String) : Json := (value.map Json.string).getD .null

def deprecateUpdate (chip : StoredChip) : Option Update :=
  match parseDeprecate chip.chipData with
  | .error _ => none
  | .ok parsed =>
    some (parsed.targetType, fun entry => { entry with
      deprecated := true
      deprecation := some (.object [("reason", .string parsed.reason),
        ("replacement_type", orNullStr parsed.replacementType),
        ("sunset_at", orNullStr parsed.sunsetAt), ("cid", .string chip.cid)])
      lastCid := some chip.cid
      lastUpdatedAt := some chip.createdAt })

inductive MetaKind where
  | registers
  | describes
  | deprecates
deriving DecidableEq

def MetaKind.chipType : MetaKind → String
  | .registers => "ubl/meta.register"
  | .describes => "ubl/meta.describe"
  | .deprecates => "ubl/meta.deprecate"

/-- The place of the pass. -/
def MetaKind.place : MetaKind → Nat
  | .registers => 0
  | .describes => 1
  | .deprecates => 2

def MetaKind.update : MetaKind → StoredChip → Option Update
  | .registers => registerUpdate lib
  | .describes => describeUpdate
  | .deprecates => deprecateUpdate

/-- `get_chips_by_type`, newest first. -/
def getChipsByType (fault : Option ChipStoreError) (stored : List StoredChip) (chipType : String) :
    Except ChipStoreError (List StoredChip) :=
  match fault with
  | some e => .error e
  | none => .ok ((stored.filter (·.chipType = chipType)).insertionSort
      fun a b => b.createdAt ≤ a.createdAt)

def applyChip (worldFilter : Option String) (kind : MetaKind)
    (types : KeyTree String RegistryTypeView) (chip : StoredChip) :
    KeyTree String RegistryTypeView :=
  if worldMatches chip worldFilter then
    match kind.update lib chip with
    | none => types
    | some (chipType, update) => types.insert chipType (update (typeEntry types chipType))
  else types

/-- One pass, the oldest chip first. -/
def pass (faults : MetaKind → Option ChipStoreError) (stored : List StoredChip)
    (worldFilter : Option String) (kind : MetaKind) (types : KeyTree String RegistryTypeView) :
    Except String (KeyTree String RegistryTypeView) := do
  let chips ← (getChipsByType (faults kind) stored kind.chipType).mapError ChipStoreError.text
  .ok ((chips.insertionSort fun a b => a.createdAt ≤ b.createdAt).foldl
    (applyChip lib worldFilter kind) types)

def materializeRegistry (faults : MetaKind → Option ChipStoreError) (stored : List StoredChip)
    (worldFilter : Option String) : Except String RegistryView := do
  let types ← pass lib faults stored worldFilter .registers .empty
  let types ← pass lib faults stored worldFilter .describes types
  let types ← pass lib faults stored worldFilter .deprecates types
  .ok ⟨types⟩

/-! ## What the chips say -/

def MetaKind.target (kind : MetaKind) (chip : StoredChip) : Option String :=
  match kind with
  | .registers => (parseRegister lib chip.chipData).toOption.map RegisterChip.targetType
  | .describes => (parseDescribe chip.chipData).toOption.map DescribeChip.targetType
  | .deprecates => (parseDeprecate chip.chipData).toOption.map DeprecateChip.targetType

def MetaKind.description (kind : MetaKind) (chip : StoredChip) : Option String :=
  match kind with
  | .registers => (parseRegister lib chip.chipData).toOption.map RegisterChip.description
  | .describes => (parseDescribe chip.chipData).toOption.map DescribeChip.description
  | .deprecates => none

variable (stored : List StoredChip) (worldFilter : Option String)

/-- A stored chip is a valid one of its kind, about the type, and of the world that is asked for. -/
structure About (chipType : String) (kind : MetaKind) (chip : StoredChip) : Prop where
  mem : chip ∈ stored
  ofKind : chip.chipType = kind.chipType
  world : worldMatches chip worldFilter = true
  target : kind.target lib chip = some chipType

/-- The most recently created chip of some kinds about a type. -/
structure Newest (kinds : List MetaKind) (chipType : String) (kind : MetaKind)
    (chip : StoredChip) : Prop where
  mem : kind ∈ kinds
  about : About lib stored worldFilter chipType kind chip
  le : ∀ kind' ∈ kinds, ∀ chip', About lib stored worldFilter chipType kind' chip' →
    chip'.createdAt ≤ chip.createdAt

/-- The entry of a type is as its newest chips have it. -/
structure Latest (chipType : String) (entry : RegistryTypeView) : Prop where
  last : ∀ kind chip,
    Newest lib stored worldFilter [.registers, .describes, .deprecates] chipType kind chip →
      entry.lastCid = some chip.cid ∧ entry.lastUpdatedAt = some chip.createdAt
  description : ∀ kind chip,
    Newest lib stored worldFilter [.registers, .describes] chipType kind chip →
      entry.description = kind.description lib chip
  version : ∀ kind chip, Newest lib stored worldFilter [.registers] chipType kind chip →
    ∀ parsed, parseRegister lib chip.chipData = .ok parsed →
      entry.latestVersion = some parsed.typeVersion ∧ entry.requiredCap = parsed.schema.requiredCap

def ShowsLatest (view : RegistryView) : Prop :=
  ∀ chipType kind chip, About lib stored worldFilter chipType kind chip →
    ∃ entry, view.types.get chipType = some entry ∧ Latest lib stored worldFilter chipType entry

/-- The newest chips of a type stand in the order of the passes: one of the last kind that there is
is newer than any of the other kinds, and the newest description is newer than the newest
registration, or they describe alike. -/
structure InOrder (chipType : String) : Prop where
  last : ∀ kind, (∃ chip, About lib stored worldFilter chipType kind chip) →
    (∀ later, kind.place < later.place →
      ∀ chip, ¬ About lib stored worldFilter chipType later chip) →
    ∀ earlier, earlier.place < kind.place →
      ∀ chip, About lib stored worldFilter chipType earlier chip →
        ∃ newer, About lib stored worldFilter chipType kind newer ∧
          chip.createdAt < newer.createdAt
  description : ∀ r d, Newest lib stored worldFilter [.registers] chipType .registers r →
    Newest lib stored worldFilter [.describes] chipType .describes d →
      r.createdAt < d.createdAt ∨
        MetaKind.registers.description lib r = MetaKind.describes.description lib d

/-- No two meta-chips were created at one time. -/
def DistinctTimes : Prop :=
  ∀ kind kind' : MetaKind, ∀ chip ∈ stored, ∀ chip' ∈ stored, chip.chipType = kind.chipType →
    chip'.chipType = kind'.chipType → chip.createdAt = chip'.createdAt → chip = chip'

/-! ## One pass -/

section Pass

variable {lib stored worldFilter} {kind : MetaKind} {chipType : String} {chip : StoredChip}
  {types types' : KeyTree String RegistryTypeView}

theorem map_update (kind : MetaKind) (chip : StoredChip) :
    (kind.update lib chip).map Prod.fst = kind.target lib chip := by
  cases kind with
  | registers =>
    simp only [MetaKind.update, registerUpdate, MetaKind.target]
    cases parseRegister lib chip.chipData <;> rfl
  | describes =>
    simp only [MetaKind.update, describeUpdate, MetaKind.target]
    cases parseDescribe chip.chipData <;> rfl
  | deprecates =>
    simp only [MetaKind.update, deprecateUpdate, MetaKind.target]
    cases parseDeprecate chip.chipData <;> rfl

/-- What a chip makes of the entry of a type. -/
def effect (lib : MetaLib) (worldFilter : Option String) (kind : MetaKind) (chipType : String)
    (entry : RegistryTypeView) (chip : StoredChip) : RegistryTypeView :=
  if worldMatches chip worldFilter ∧ kind.target lib chip = some chipType then
    ((kind.update lib chip).elim id Prod.snd) entry
  else entry

theorem typeEntry_applyChip : typeEntry (applyChip lib worldFilter kind types chip) chipType =
    effect lib worldFilter kind chipType (typeEntry types chipType) chip := by
  unfold applyChip effect
  rw [← map_update]
  by_cases hworld : worldMatches chip worldFilter = true
  · rw [if_pos hworld]
    cases kind.update lib chip with
    | none => simp
    | some update =>
      obtain ⟨target, set⟩ := update
      by_cases htarget : target = chipType
      · subst htarget
        simp [typeEntry, KeyTree.get_insert, hworld]
      · simp [typeEntry, KeyTree.get_insert, htarget, Ne.symm htarget]
  · simp [hworld]

theorem contains_applyChip : (applyChip lib worldFilter kind types chip).contains chipType ↔
    types.contains chipType ∨
      worldMatches chip worldFilter = true ∧ kind.target lib chip = some chipType := by
  unfold applyChip
  rw [← map_update]
  by_cases hworld : worldMatches chip worldFilter = true
  · rw [if_pos hworld]
    cases kind.update lib chip with
    | none => simp
    | some update =>
      obtain ⟨target, set⟩ := update
      rw [KeyTree.contains_insert, or_comm, Option.map_some, Option.some_inj]
      simp [hworld, eq_comm (a := chipType)]
  · simp [hworld]

theorem typeEntry_foldl (chips : List StoredChip) :
    typeEntry (chips.foldl (applyChip lib worldFilter kind) types) chipType =
      chips.foldl (effect lib worldFilter kind chipType) (typeEntry types chipType) := by
  induction chips generalizing types with
  | nil => rfl
  | cons chip chips ih => rw [List.foldl_cons, List.foldl_cons, ih, typeEntry_applyChip]

theorem contains_foldl (chips : List StoredChip) :
    (chips.foldl (applyChip lib worldFilter kind) types).contains chipType ↔
      types.contains chipType ∨ ∃ chip ∈ chips,
        worldMatches chip worldFilter = true ∧ kind.target lib chip = some chipType := by
  induction chips generalizing types with
  | nil => simp
  | cons chip chips ih =>
    rw [List.foldl_cons, ih, contains_applyChip, List.exists_mem_cons_iff, or_assoc]

/-- The chips of a pass, the oldest first. -/
def passChips (stored : List StoredChip) (kind : MetaKind) : List StoredChip :=
  ((stored.filter (·.chipType = kind.chipType)).insertionSort
    fun a b => b.createdAt ≤ a.createdAt).insertionSort fun a b => a.createdAt ≤ b.createdAt

theorem mem_passChips : chip ∈ passChips stored kind ↔
    chip ∈ stored ∧ chip.chipType = kind.chipType := by
  rw [passChips, List.mem_insertionSort, List.mem_insertionSort, List.mem_filter,
    decide_eq_true_iff]

theorem about_iff : About lib stored worldFilter chipType kind chip ↔
    chip ∈ passChips stored kind ∧
      worldMatches chip worldFilter = true ∧ kind.target lib chip = some chipType := by
  rw [mem_passChips]
  constructor
  · rintro ⟨hmem, hkind, hworld, htarget⟩
    exact ⟨⟨hmem, hkind⟩, hworld, htarget⟩
  · rintro ⟨⟨hmem, hkind⟩, hworld, htarget⟩
    exact ⟨hmem, hkind, hworld, htarget⟩

theorem pass_eq_ok {faults : MetaKind → Option ChipStoreError}
    (h : pass lib faults stored worldFilter kind types = .ok types') :
    types' = (passChips stored kind).foldl (applyChip lib worldFilter kind) types := by
  unfold pass getChipsByType at h
  split at h
  · cases h
  · exact (Except.ok.inj h).symm

/-- The chip that a pass takes last is the newest. -/
theorem foldl_effect {chips : List StoredChip} (entry : RegistryTypeView)
    (hsorted : chips.Pairwise fun a b => a.createdAt ≤ b.createdAt) :
    (∀ chip ∈ chips, ¬ (worldMatches chip worldFilter = true ∧
        kind.target lib chip = some chipType)) ∨
      ∃ chip ∈ chips, (worldMatches chip worldFilter = true ∧
          kind.target lib chip = some chipType) ∧
        (∀ chip' ∈ chips, worldMatches chip' worldFilter = true ∧
          kind.target lib chip' = some chipType → chip'.createdAt ≤ chip.createdAt) ∧
        ∃ before, chips.foldl (effect lib worldFilter kind chipType) entry =
          effect lib worldFilter kind chipType before chip := by
  induction chips using List.reverseRecOn with
  | nil => simp
  | append_singleton chips chip ih =>
    obtain ⟨hchips, -, hle⟩ := List.pairwise_append.mp hsorted
    by_cases hlast : worldMatches chip worldFilter = true ∧ kind.target lib chip = some chipType
    · refine .inr ⟨chip, by simp, hlast, fun chip' hchip' _ => ?_, _, List.foldl_concat ..⟩
      rcases List.mem_append.mp hchip' with hchip' | hchip'
      · exact hle chip' hchip' chip (List.mem_singleton_self chip)
      · rw [List.mem_singleton.mp hchip']
    · have hskip : (chips ++ [chip]).foldl (effect lib worldFilter kind chipType) entry =
          chips.foldl (effect lib worldFilter kind chipType) entry := by
        rw [List.foldl_concat, effect, if_neg hlast]
      rw [hskip]
      rcases ih hchips with hnone | ⟨newest, hmem, hnewest, hall, hbefore⟩
      · refine .inl fun chip' hchip' => ?_
        rcases List.mem_append.mp hchip' with hchip' | hchip'
        · exact hnone chip' hchip'
        · rwa [List.mem_singleton.mp hchip']
      · refine .inr ⟨newest, List.mem_append_left _ hmem, hnewest, fun chip' hchip' habout => ?_,
          hbefore⟩
        rcases List.mem_append.mp hchip' with hchip' | hchip'
        · exact hall chip' hchip' habout
        · rw [List.mem_singleton.mp hchip'] at habout
          exact absurd habout hlast

/-- What no chip of a kind changes is as before the pass. -/
theorem pass_frame {faults : MetaKind → Option ChipStoreError} {β : Type}
    (h : pass lib faults stored worldFilter kind types = .ok types') (g : RegistryTypeView → β)
    (hg : ∀ entry chip, About lib stored worldFilter chipType kind chip →
      g (effect lib worldFilter kind chipType entry chip) = g entry) :
    g (typeEntry types' chipType) = g (typeEntry types chipType) := by
  rw [pass_eq_ok h, typeEntry_foldl]
  refine List.foldlRecOn (passChips stored kind) _ (motive := fun entry => g entry = _) rfl
    fun entry hentry chip hchip => ?_
  by_cases habout : worldMatches chip worldFilter = true ∧ kind.target lib chip = some chipType
  · exact (hg entry chip (about_iff.mpr ⟨hchip, habout⟩)).trans hentry
  · rwa [effect, if_neg habout]

/-- After a pass the entry is as the newest chip of the kind left it, or as it was. -/
theorem pass_newest {faults : MetaKind → Option ChipStoreError}
    (h : pass lib faults stored worldFilter kind types = .ok types') (chipType : String) :
    ((∀ chip, ¬ About lib stored worldFilter chipType kind chip) ∧
        typeEntry types' chipType = typeEntry types chipType) ∨
      ∃ chip, Newest lib stored worldFilter [kind] chipType kind chip ∧ ∃ before,
        typeEntry types' chipType = effect lib worldFilter kind chipType before chip := by
  rcases foldl_effect (typeEntry types chipType) (List.pairwise_insertionSort _ _) with
    hnone | ⟨chip, hmem, habout, hle, before, heq⟩
  · have hno : ∀ chip, ¬ About lib stored worldFilter chipType kind chip := fun chip habout =>
      hnone chip (about_iff.mp habout).1 (about_iff.mp habout).2
    exact .inl ⟨hno, pass_frame h id fun _ chip habout => absurd habout (hno chip)⟩
  · rw [pass_eq_ok h, typeEntry_foldl]
    refine .inr ⟨chip, ⟨List.mem_singleton_self kind, about_iff.mpr ⟨hmem, habout⟩, ?_⟩, before, heq⟩
    intro kind' hkind' chip' habout'
    obtain rfl := List.mem_singleton.mp hkind'
    exact hle chip' (about_iff.mp habout').1 (about_iff.mp habout').2

theorem contains_pass {faults : MetaKind → Option ChipStoreError}
    (h : pass lib faults stored worldFilter kind types = .ok types') : types'.contains chipType ↔
      types.contains chipType ∨ ∃ chip, About lib stored worldFilter chipType kind chip := by
  rw [pass_eq_ok h, contains_foldl]
  simp only [about_iff]

end Pass

/-! ## One chip -/

section Effect

variable {lib stored worldFilter} {kind : MetaKind} {chipType : String} {chip : StoredChip}

theorem effect_of_about (habout : About lib stored worldFilter chipType kind chip)
    (entry : RegistryTypeView) : ∃ set, kind.update lib chip = some (chipType, set) ∧
      effect lib worldFilter kind chipType entry chip = set entry := by
  have htarget := habout.target
  rw [← map_update] at htarget
  obtain ⟨⟨_, set⟩, hupdate, rfl⟩ := Option.map_eq_some_iff.mp htarget
  refine ⟨set, hupdate, ?_⟩
  rw [effect, if_pos ⟨habout.world, habout.target⟩, hupdate]
  rfl

theorem describeKats_frame (chip : StoredChip) (kats : List Kat) (entry : RegistryTypeView) :
    (describeKats chip kats entry).lastCid = entry.lastCid ∧
      (describeKats chip kats entry).lastUpdatedAt = entry.lastUpdatedAt ∧
      (describeKats chip kats entry).description = entry.description ∧
      (describeKats chip kats entry).latestVersion = entry.latestVersion ∧
      (describeKats chip kats entry).requiredCap = entry.requiredCap := by
  unfold describeKats
  split <;> exact ⟨rfl, rfl, rfl, rfl, rfl⟩

variable {set : RegistryTypeView → RegistryTypeView}

theorem registerUpdate_eq_some (h : registerUpdate lib chip = some (chipType, set)) :
    ∃ parsed, parseRegister lib chip.chipData = .ok parsed ∧ ∀ entry,
      (set entry).lastCid = some chip.cid ∧
      (set entry).lastUpdatedAt = some chip.createdAt ∧
      (set entry).description = some parsed.description ∧
      (set entry).latestVersion = some parsed.typeVersion ∧
      (set entry).requiredCap = parsed.schema.requiredCap := by
  unfold registerUpdate at h
  split at h
  · cases h
  · rename_i parsed hparsed
    cases h
    exact ⟨parsed, hparsed, fun _ => ⟨rfl, rfl, rfl, rfl, rfl⟩⟩

theorem describeUpdate_eq_some (h : describeUpdate chip = some (chipType, set)) :
    ∃ parsed, parseDescribe chip.chipData = .ok parsed ∧ ∀ entry,
      (set entry).lastCid = some chip.cid ∧
      (set entry).lastUpdatedAt = some chip.createdAt ∧
      (set entry).description = some parsed.description ∧
      (set entry).latestVersion = entry.latestVersion ∧
      (set entry).requiredCap = entry.requiredCap := by
  unfold describeUpdate at h
  split at h
  · cases h
  · rename_i parsed hparsed
    cases h
    exact ⟨parsed, hparsed, fun _ => describeKats_frame ..⟩

theorem deprecateUpdate_eq_some (h : deprecateUpdate chip = some (chipType, set))
    (entry : RegistryTypeView) : (set entry).lastCid = some chip.cid ∧
      (set entry).lastUpdatedAt = some chip.createdAt ∧
      (set entry).description = entry.description ∧
      (set entry).latestVersion = entry.latestVersion ∧
      (set entry).requiredCap = entry.requiredCap := by
  unfold deprecateUpdate at h
  split at h
  · cases h
  · cases h
    exact ⟨rfl, rfl, rfl, rfl, rfl⟩

/-- A chip of any kind is the last. -/
theorem effect_last (habout : About lib stored worldFilter chipType kind chip)
    (entry : RegistryTypeView) :
    (effect lib worldFilter kind chipType entry chip).lastCid = some chip.cid ∧
      (effect lib worldFilter kind chipType entry chip).lastUpdatedAt = some chip.createdAt := by
  obtain ⟨set, hupdate, heffect⟩ := effect_of_about habout entry
  rw [heffect]
  cases kind with
  | registers =>
    obtain ⟨parsed, -, hset⟩ := registerUpdate_eq_some hupdate
    exact ⟨(hset entry).1, (hset entry).2.1⟩
  | describes =>
    obtain ⟨parsed, -, hset⟩ := describeUpdate_eq_some hupdate
    exact ⟨(hset entry).1, (hset entry).2.1⟩
  | deprecates =>
    have hset := deprecateUpdate_eq_some hupdate entry
    exact ⟨hset.1, hset.2.1⟩

theorem effect_description (habout : About lib stored worldFilter chipType kind chip)
    (entry : RegistryTypeView) : (effect lib worldFilter kind chipType entry chip).description =
      if kind = .deprecates then entry.description else kind.description lib chip := by
  obtain ⟨set, hupdate, heffect⟩ := effect_of_about habout entry
  rw [heffect]
  cases kind with
  | registers =>
    obtain ⟨parsed, hparsed, hset⟩ := registerUpdate_eq_some hupdate
    simp [(hset entry).2.2.1, MetaKind.description, hparsed, Except.toOption]
  | describes =>
    obtain ⟨parsed, hparsed, hset⟩ := describeUpdate_eq_some hupdate
    simp [(hset entry).2.2.1, MetaKind.description, hparsed, Except.toOption]
  | deprecates => simp [(deprecateUpdate_eq_some hupdate entry).2.2.1]

theorem effect_version (habout : About lib stored worldFilter chipType kind chip)
    (entry : RegistryTypeView) :
    if kind = .registers then
      ∃ parsed, parseRegister lib chip.chipData = .ok parsed ∧
        (effect lib worldFilter kind chipType entry chip).latestVersion =
          some parsed.typeVersion ∧
        (effect lib worldFilter kind chipType entry chip).requiredCap = parsed.schema.requiredCap
    else
      (effect lib worldFilter kind chipType entry chip).latestVersion = entry.latestVersion ∧
        (effect lib worldFilter kind chipType entry chip).requiredCap = entry.requiredCap := by
  obtain ⟨set, hupdate, heffect⟩ := effect_of_about habout entry
  rw [heffect]
  cases kind with
  | registers =>
    obtain ⟨parsed, hparsed, hset⟩ := registerUpdate_eq_some hupdate
    exact ⟨parsed, hparsed, (hset entry).2.2.2⟩
  | describes =>
    obtain ⟨parsed, -, hset⟩ := describeUpdate_eq_some hupdate
    exact (hset entry).2.2.2
  | deprecates => exact (deprecateUpdate_eq_some hupdate entry).2.2.2

end Effect

/-! ## The newest chip -/

section Newest

variable {lib stored worldFilter} {kinds : List MetaKind} {kind kind' : MetaKind}
  {chipType : String} {chip chip' : StoredChip}

theorem MetaKind.place_injective : Function.Injective MetaKind.place := by
  intro kind kind' h
  cases kind <;> cases kind' <;> first | rfl | cases h

theorem MetaKind.chipType_injective : Function.Injective MetaKind.chipType := by
  intro kind kind' h
  cases kind <;> cases kind' <;> first | rfl | simp [MetaKind.chipType] at h

theorem MetaKind.mem_all (kind : MetaKind) :
    kind ∈ [MetaKind.registers, .describes, .deprecates] := by
  cases kind <;> simp

theorem exists_newest
    (h : ∃ kind ∈ kinds, ∃ chip, About lib stored worldFilter chipType kind chip) :
    ∃ kind chip, Newest lib stored worldFilter kinds chipType kind chip := by
  obtain ⟨kind, hkind, chip, habout⟩ := h
  let chips : Set (MetaKind × StoredChip) :=
    {p | p.1 ∈ kinds ∧ About lib stored worldFilter chipType p.1 p.2}
  have hfinite : chips.Finite :=
    ((List.finite_toSet kinds).prod (List.finite_toSet stored)).subset
      fun p hp => ⟨hp.1, hp.2.mem⟩
  obtain ⟨⟨kind', chip'⟩, hmem, hle⟩ :=
    Set.exists_max_image chips (fun p => p.2.createdAt) hfinite ⟨(kind, chip), hkind, habout⟩
  exact ⟨kind', chip', hmem.1, hmem.2, fun k hk c hc => hle (k, c) ⟨hk, hc⟩⟩

theorem About.unique (hdistinct : DistinctTimes stored)
    (h : About lib stored worldFilter chipType kind chip)
    (h' : About lib stored worldFilter chipType kind' chip')
    (htime : chip.createdAt = chip'.createdAt) : kind = kind' ∧ chip = chip' := by
  obtain rfl := hdistinct kind kind' chip h.mem chip' h'.mem h.ofKind h'.ofKind htime
  exact ⟨MetaKind.chipType_injective (h.ofKind.symm.trans h'.ofKind), rfl⟩

theorem Newest.unique (hdistinct : DistinctTimes stored)
    (h : Newest lib stored worldFilter kinds chipType kind chip)
    (h' : Newest lib stored worldFilter kinds chipType kind' chip') :
    kind = kind' ∧ chip = chip' :=
  h.about.unique hdistinct h'.about
    (le_antisymm (h'.le kind h.mem chip h.about) (h.le kind' h'.mem chip' h'.about))

/-- The newest of several kinds is the newest of its own. -/
theorem Newest.alone (h : Newest lib stored worldFilter kinds chipType kind chip) :
    Newest lib stored worldFilter [kind] chipType kind chip := by
  refine ⟨List.mem_singleton_self kind, h.about, fun kind' hkind' => ?_⟩
  obtain rfl := List.mem_singleton.mp hkind'
  exact h.le kind' h.mem

end Newest

/-! ## What is shown -/

section Shown

variable {lib stored worldFilter} {faults : MetaKind → Option ChipStoreError} {view : RegistryView}
  {kind : MetaKind} {chipType : String} {chip : StoredChip}

theorem pass_of_newest {types types' : KeyTree String RegistryTypeView}
    (h : pass lib faults stored worldFilter kind types = .ok types')
    (hdistinct : DistinctTimes stored)
    (hnewest : Newest lib stored worldFilter [kind] chipType kind chip) : ∃ before,
      typeEntry types' chipType = effect lib worldFilter kind chipType before chip := by
  rcases pass_newest h chipType with ⟨hnone, -⟩ | ⟨chip', hnewest', hbefore⟩
  · exact absurd hnewest.about (hnone chip)
  · rwa [(hnewest.unique hdistinct hnewest').2]

theorem materializeRegistry_eq_ok
    (h : materializeRegistry lib faults stored worldFilter = .ok view) :
    ∃ registered described, pass lib faults stored worldFilter .registers .empty = .ok registered ∧
      pass lib faults stored worldFilter .describes registered = .ok described ∧
      pass lib faults stored worldFilter .deprecates described = .ok view.types := by
  obtain ⟨registered, hregistered, h⟩ := ExceptLemmas.bind_eq_ok.mp h
  obtain ⟨described, hdescribed, h⟩ := ExceptLemmas.bind_eq_ok.mp h
  obtain ⟨types, hdeprecated, h⟩ := ExceptLemmas.bind_eq_ok.mp h
  obtain rfl := Except.ok.inj h
  exact ⟨registered, described, hregistered, hdescribed, hdeprecated⟩

/-- The types are those that a chip is about. -/
theorem contains_materializeRegistry
    (h : materializeRegistry lib faults stored worldFilter = .ok view) :
    view.types.contains chipType ↔
      ∃ kind chip, About lib stored worldFilter chipType kind chip := by
  obtain ⟨registered, described, hregistered, hdescribed, hdeprecated⟩ :=
    materializeRegistry_eq_ok h
  rw [contains_pass hdeprecated, contains_pass hdescribed, contains_pass hregistered]
  constructor
  · rintro (((h | ⟨chip, h⟩) | ⟨chip, h⟩) | ⟨chip, h⟩)
    · cases h
    · exact ⟨_, chip, h⟩
    · exact ⟨_, chip, h⟩
    · exact ⟨_, chip, h⟩
  · rintro ⟨kind, chip, h⟩
    cases kind with
    | registers => exact .inl (.inl (.inr ⟨chip, h⟩))
    | describes => exact .inl (.inr ⟨chip, h⟩)
    | deprecates => exact .inr ⟨chip, h⟩

/-- What is shown last is the newest chip of the last kind that there is. -/
theorem materializeRegistry_last
    (h : materializeRegistry lib faults stored worldFilter = .ok view)
    (habout : About lib stored worldFilter chipType kind chip) :
    ∃ shown x, Newest lib stored worldFilter [shown] chipType shown x ∧
      (∀ later, shown.place < later.place →
        ∀ chip, ¬ About lib stored worldFilter chipType later chip) ∧
      (typeEntry view.types chipType).lastCid = some x.cid ∧
      (typeEntry view.types chipType).lastUpdatedAt = some x.createdAt := by
  obtain ⟨registered, described, hregistered, hdescribed, hdeprecated⟩ :=
    materializeRegistry_eq_ok h
  rcases pass_newest hdeprecated chipType with ⟨hno, heq⟩ | ⟨x, hx, before, heq⟩
  rotate_left
  · refine ⟨_, x, hx, fun later hlater => ?_, heq ▸ effect_last hx.about before⟩
    cases later <;> simp [MetaKind.place] at hlater
  rw [heq]
  rcases pass_newest hdescribed chipType with ⟨hno', heq'⟩ | ⟨x, hx, before, heq'⟩
  rotate_left
  · refine ⟨_, x, hx, fun later hlater => ?_, heq' ▸ effect_last hx.about before⟩
    cases later with
    | registers => cases hlater
    | describes => exact absurd hlater (lt_irrefl _)
    | deprecates => exact hno
  rw [heq']
  rcases pass_newest hregistered chipType with ⟨hno'', -⟩ | ⟨x, hx, before, heq''⟩
  · cases kind with
    | registers => exact absurd habout (hno'' chip)
    | describes => exact absurd habout (hno' chip)
    | deprecates => exact absurd habout (hno chip)
  · refine ⟨_, x, hx, fun later hlater => ?_, heq'' ▸ effect_last hx.about before⟩
    cases later with
    | registers => exact absurd hlater (lt_irrefl _)
    | describes => exact hno'
    | deprecates => exact hno

/-- The description of the newest chip that describes, where there are any, and else that of the
newest registration. -/
theorem materializeRegistry_description
    (h : materializeRegistry lib faults stored worldFilter = .ok view)
    (hdistinct : DistinctTimes stored) (hkind : kind ≠ .deprecates)
    (hnewest : Newest lib stored worldFilter [kind] chipType kind chip)
    (hlast : kind = .registers → ∀ d, ¬ About lib stored worldFilter chipType .describes d) :
    (typeEntry view.types chipType).description = kind.description lib chip := by
  obtain ⟨registered, described, hregistered, hdescribed, hdeprecated⟩ :=
    materializeRegistry_eq_ok h
  rw [pass_frame hdeprecated RegistryTypeView.description fun entry d hd => effect_description hd entry]
  cases kind with
  | registers =>
    rw [pass_frame hdescribed RegistryTypeView.description fun entry d hd => absurd hd (hlast rfl d)]
    obtain ⟨before, heq⟩ := pass_of_newest hregistered hdistinct hnewest
    rw [heq]
    exact effect_description hnewest.about before
  | describes =>
    obtain ⟨before, heq⟩ := pass_of_newest hdescribed hdistinct hnewest
    rw [heq]
    exact effect_description hnewest.about before
  | deprecates => exact absurd rfl hkind

theorem materializeRegistry_version
    (h : materializeRegistry lib faults stored worldFilter = .ok view)
    (hdistinct : DistinctTimes stored)
    (hnewest : Newest lib stored worldFilter [.registers] chipType .registers chip) :
    ∃ parsed, parseRegister lib chip.chipData = .ok parsed ∧
      (typeEntry view.types chipType).latestVersion = some parsed.typeVersion ∧
      (typeEntry view.types chipType).requiredCap = parsed.schema.requiredCap := by
  obtain ⟨registered, described, hregistered, hdescribed, hdeprecated⟩ :=
    materializeRegistry_eq_ok h
  let version (entry : RegistryTypeView) := (entry.latestVersion, entry.requiredCap)
  have hframe : version (typeEntry view.types chipType) =
      version (typeEntry registered chipType) := by
    rw [pass_frame hdeprecated version fun entry d hd => Prod.ext_iff.mpr (effect_version hd entry),
      pass_frame hdescribed version fun entry d hd => Prod.ext_iff.mpr (effect_version hd entry)]
  obtain ⟨before, heq⟩ := pass_of_newest hregistered hdistinct hnewest
  obtain ⟨parsed, hparsed, hversion, hcap⟩ := effect_version hnewest.about before
  rw [heq] at hframe
  exact ⟨parsed, hparsed, (congrArg Prod.fst hframe).trans hversion,
    (congrArg Prod.snd hframe).trans hcap⟩

theorem latest_of_inOrder (h : materializeRegistry lib faults stored worldFilter = .ok view)
    (hdistinct : DistinctTimes stored) (horder : InOrder lib stored worldFilter chipType) :
    Latest lib stored worldFilter chipType (typeEntry view.types chipType) where
  last := by
    intro kind chip hnewest
    obtain ⟨shown, x, hx, hlater, hlast⟩ := materializeRegistry_last h hnewest.about
    have hshown : Newest lib stored worldFilter [.registers, .describes, .deprecates]
        chipType shown x := by
      refine ⟨shown.mem_all, hx.about, fun kind' _ chip' habout' => ?_⟩
      rcases lt_trichotomy kind'.place shown.place with hlt | heq | hgt
      · obtain ⟨newer, hnewer, hlt'⟩ :=
          horder.last shown ⟨x, hx.about⟩ hlater kind' hlt chip' habout'
        exact hlt'.le.trans (hx.le shown hx.mem newer hnewer)
      · obtain rfl := MetaKind.place_injective heq
        exact hx.le kind' hx.mem chip' habout'
      · exact absurd habout' (hlater kind' hgt chip')
    rwa [(hnewest.unique hdistinct hshown).2]
  description := by
    intro kind chip hnewest
    cases kind with
    | describes =>
      exact materializeRegistry_description h hdistinct (by simp) hnewest.alone (by simp)
    | deprecates => exact absurd hnewest.mem (by simp)
    | registers =>
      by_cases hdescribes : ∃ d, About lib stored worldFilter chipType .describes d
      · obtain ⟨d₀, hd₀⟩ := hdescribes
        obtain ⟨kind, d, hd⟩ := exists_newest ⟨_, List.mem_singleton_self _, d₀, hd₀⟩
        obtain rfl := List.mem_singleton.mp hd.mem
        rw [materializeRegistry_description h hdistinct (by simp) hd (by simp)]
        rcases horder.description chip d hnewest.alone hd with hlt | heq
        · exact absurd (hnewest.le _ (by simp) d hd.about) (not_le.mpr hlt)
        · exact heq.symm
      · exact materializeRegistry_description h hdistinct (by simp) hnewest.alone
          fun _ d hd => hdescribes ⟨d, hd⟩
  version := by
    intro kind chip hnewest parsed hparsed
    obtain rfl := List.mem_singleton.mp hnewest.mem
    obtain ⟨parsed', hparsed', hversion⟩ := materializeRegistry_version h hdistinct hnewest
    rw [hparsed] at hparsed'
    rwa [Except.ok.inj hparsed']

theorem inOrder_of_latest (h : materializeRegistry lib faults stored worldFilter = .ok view)
    (hdistinct : DistinctTimes stored)
    (hlatest : Latest lib stored worldFilter chipType (typeEntry view.types chipType)) :
    InOrder lib stored worldFilter chipType where
  last := by
    rintro kind ⟨chip₀, hchip₀⟩ hlater earlier hearlier chip hchip
    obtain ⟨shown, x, hx, hnone, -, htime⟩ := materializeRegistry_last h hchip₀
    have hshown : shown = kind := by
      rcases lt_trichotomy kind.place shown.place with hlt | heq | hgt
      · exact absurd hx.about (hlater shown hlt x)
      · exact (MetaKind.place_injective heq).symm
      · exact absurd hchip₀ (hnone kind hgt chip₀)
    subst hshown
    obtain ⟨kind', newest, hnewest⟩ := exists_newest ⟨_, shown.mem_all, chip₀, hchip₀⟩
    have htime' : newest.createdAt = x.createdAt :=
      Option.some.inj ((hlatest.last kind' newest hnewest).2.symm.trans htime)
    have hle := hnewest.le earlier earlier.mem_all chip hchip
    rw [htime'] at hle
    refine ⟨x, hx.about, lt_of_le_of_ne hle fun heq => ?_⟩
    obtain ⟨rfl, -⟩ := hchip.unique hdistinct hx.about heq
    exact lt_irrefl _ hearlier
  description := by
    intro r d hr hd
    refine or_iff_not_imp_left.mpr fun hlt => ?_
    have hnewest : Newest lib stored worldFilter [.registers, .describes] chipType .registers r := by
      refine ⟨by simp, hr.about, fun kind' hkind' chip' habout' => ?_⟩
      rcases List.mem_pair.mp hkind' with rfl | rfl
      · exact hr.le _ hr.mem chip' habout'
      · exact (hd.le _ hd.mem chip' habout').trans (not_lt.mp hlt)
    rw [← hlatest.description _ r hnewest,
      materializeRegistry_description h hdistinct (by simp) hd (by simp)]

theorem exists_view (lib : MetaLib) (faults : MetaKind → Option ChipStoreError)
    (stored : List StoredChip) (worldFilter : Option String) (hfaults : ∀ kind, faults kind = none) :
    ∃ view, materializeRegistry lib faults stored worldFilter = .ok view := by
  simp [materializeRegistry, pass, getChipsByType, hfaults, Except.mapError, bind, Except.bind]

theorem distinctTimes_of_nodup (h : (stored.map StoredChip.createdAt).Nodup) :
    DistinctTimes stored :=
  fun _ _ _ hchip _ hchip' _ _ => List.inj_on_of_nodup_map h hchip hchip'

end Shown

/-- The registry shows the latest state if and only if the newest chips of every type stand in the
order of the passes. -/
theorem showsLatest_iff (faults : MetaKind → Option ChipStoreError) (view : RegistryView)
    (h : materializeRegistry lib faults stored worldFilter = .ok view)
    (hdistinct : DistinctTimes stored) :
    ShowsLatest lib stored worldFilter view ↔
      ∀ chipType, InOrder lib stored worldFilter chipType := by
  constructor
  · intro hshows chipType
    by_cases habout : ∃ kind chip, About lib stored worldFilter chipType kind chip
    · obtain ⟨kind, chip, habout⟩ := habout
      obtain ⟨entry, hget, hlatest⟩ := hshows chipType kind chip habout
      refine inOrder_of_latest h hdistinct ?_
      rwa [typeEntry, hget]
    · refine ⟨fun kind hkind => ?_, fun r _ hr => absurd ⟨_, r, hr.about⟩ habout⟩
      obtain ⟨chip, hchip⟩ := hkind
      exact absurd ⟨kind, chip, hchip⟩ habout
  · intro horder chipType kind chip habout
    obtain ⟨entry, hget⟩ :=
      Option.isSome_iff_exists.mp ((contains_materializeRegistry h).mpr ⟨kind, chip, habout⟩)
    refine ⟨entry, hget, ?_⟩
    have hlatest := latest_of_inOrder h hdistinct (horder chipType)
    rwa [typeEntry, hget] at hlatest

def metaChip (cid chipType createdAt : String) (body : List (String × Json)) : StoredChip :=
  ⟨cid, chipType, .object (("target_type", .string "acme/invoice") :: body), "b3:0e", createdAt,
    ⟨"0.1.0", 0, 0, [], "did:key:z6Mk", true⟩, [], []⟩

def invoiceDescribed : StoredChip :=
  metaChip "b3:d" "ubl/meta.describe" "2026-03-01T10:00:00+00:00"
    [("description", .string "Invoice type updated")]

def invoiceDeprecated : StoredChip :=
  metaChip "b3:x" "ubl/meta.deprecate" "2026-03-01T11:00:00+00:00"
    [("reason", .string "use acme/invoice.v2")]

/-- A type that is registered after it was described. -/
def invoiceRegistered : StoredChip :=
  metaChip "b3:r" "ubl/meta.register" "2026-03-01T12:00:00+00:00"
    [("description", .string "Invoice type"),
      ("schema", .object [("required_fields", .array [])]),
      ("kats", .array [.object [("label", .string "allow invoice"),
        ("input", .object [("@type", .string "acme/invoice")]),
        ("expected_decision", .string "allow")]])]

def quietLib : MetaLib := ⟨fun _ => "", fun _ => ""⟩

theorem showsLatest_iff_invoice : ∃ view,
    materializeRegistry quietLib (fun _ => none) [invoiceDescribed, invoiceDeprecated] none =
      .ok view ∧
    (ShowsLatest quietLib [invoiceDescribed, invoiceDeprecated] none view ↔
      ∀ chipType, InOrder quietLib [invoiceDescribed, invoiceDeprecated] none chipType) := by
  obtain ⟨view, hview⟩ :=
    exists_view quietLib (fun _ => none) [invoiceDescribed, invoiceDeprecated] none fun _ => rfl
  exact ⟨view, hview, showsLatest_iff quietLib _ _ _ view hview
    (distinctTimes_of_nodup (by decide))⟩

/-- A description of before the registration is shown last. -/
theorem registered_again_not_shown : ¬ ∀ (lib : MetaLib)
    (faults : MetaKind → Option ChipStoreError) (stored : List StoredChip)
    (worldFilter : Option String) (view : RegistryView),
    materializeRegistry lib faults stored worldFilter = .ok view → DistinctTimes stored →
      ShowsLatest lib stored worldFilter view := by
  intro h
  let stored := [invoiceDescribed, invoiceRegistered]
  obtain ⟨view, hview⟩ := exists_view quietLib (fun _ => none) stored none fun _ => rfl
  have hregistered : About quietLib stored none "acme/invoice" .registers invoiceRegistered :=
    ⟨by simp [stored], rfl, rfl, by with_unfolding_all rfl⟩
  obtain ⟨entry, hget, hlatest⟩ :=
    h _ _ stored none view hview (distinctTimes_of_nodup (by decide)) _ _ _ hregistered
  have hnewest : Newest quietLib stored none [.registers, .describes, .deprecates] "acme/invoice"
      .registers invoiceRegistered := by
    refine ⟨MetaKind.mem_all _, hregistered, fun kind _ chip habout => ?_⟩
    rcases List.mem_pair.mp habout.mem with rfl | rfl
    · decide
    · exact le_rfl
  have hshown : (materializeRegistry quietLib (fun _ => none) stored none).toOption.bind
      (fun view => (view.types.get "acme/invoice").bind RegistryTypeView.lastCid) =
        some invoiceDescribed.cid := by
    with_unfolding_all rfl
  rw [hview, Except.toOption, Option.bind_some, hget] at hshown
  have hlast := (hlatest.last _ _ hnewest).1
  exact absurd (hlast.symm.trans hshown) (by decide)

end Ubl.Gate
