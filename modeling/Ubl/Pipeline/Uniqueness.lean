import Ubl.Auth.Onboarding
import Ubl.Pipeline.Process

/-!
# Slugs and rotated keys

CHECK looks in the chip store whether the slug of an app is free, or a key has not been rotated
yet; the chip that takes the slug or the key is stored two stages later.  Two requests that are
both between the two take it both (`slug_taken_twice`).

    requests for one slug, or one key, do not overlap, the clock does not run backwards, no put
    fails half-way, and chips that differ have different CIDs
        →  of the apps with one slug at most one is not revoked, and so for the mappings of one
           key                                                            (unique_of_orderly)
-/

namespace Ubl.Pipeline.Uniqueness

open Ubl.Auth
open Ubl.Chipstore
open Ubl.Receipt (Key)
open ExceptLemmas

/-! ## The pre-checks of CHECK -/

structure Registry where
  lib : StoreLib
  kms : Kms
  cap : CapLib
  signingSeed : Key

def authError : AuthValidationError → PipelineError
  | .invalidChip msg => .invalidChip msg
  | .dependencyMissing msg => .dependencyMissing msg
  | .internal msg => .internal msg

section Check

variable (reg : Registry) (clock : Clock) (reader : StoreReader) (request : ParsedChipRequest)

/-- Onboarding pre-check: body and dependency chain. -/
def checkOnboarding : Except PipelineError Unit :=
  match parseOnboardingChip request.body with
  | .error e => .error (.invalidChip ("Onboarding validation: " ++ e.text))
  | .ok none =>
    .error (.invalidChip ("Onboarding type '" ++ request.chipType ++ "' not recognized"))
  | .ok (some onboarding) =>
    (validateOnboardingDependencies reg.cap clock reader onboarding request.body
      request.world).mapError authError

/-- Key rotation pre-check: typed parse, capability and duplicate guard. -/
def checkKeyRotate : Except PipelineError Unit :=
  match KeyRotateRequest.parse request.body with
  | .error e => .error (.invalidChip ("Key rotation: " ++ e.text))
  | .ok parsed =>
    match requireCap reg.cap clock request.body "key:rotate" request.world with
    | .error e => .error (.invalidChip ("ubl/key.rotate capability: " ++ e.text))
    | .ok _ =>
      match reader.query (tagQuery "ubl/key.map" ("old_kid:" ++ parsed.oldKid) (some 1)) with
      | .error e => .error (.internal ("ChipStore query: " ++ e.text))
      | .ok existing =>
        if existing.isEmpty then .ok ()
        else .error (.invalidChip ("old_kid '" ++ parsed.oldKid ++ "' already rotated"))

def preCheck : Except PipelineError Unit := do
  (if isOnboardingType request.chipType then checkOnboarding reg clock reader request else pure ())
  (if request.chipType = "ubl/key.rotate" then checkKeyRotate reg clock reader request else pure ())

end Check

/-! ## Requests side by side -/

/-- A parsed request that onboards something or rotates a key. -/
structure RegistryRequest where
  request : ParsedChipRequest
  text : Nrf.Text
  parsed : ∃ r, ParsedChipRequest.parse text r = .ok request
  kind : isOnboardingType request.chipType ∨ request.chipType = "ubl/key.rotate"

inductive Phase where
  | waiting
  /-- CHECK has passed. -/
  | checked
  /-- A rotation whose chip is stored under this CID, and its mapping is not. -/
  | stored (rotationChipCid : String)
  | done

structure State (ι : Type) where
  chips : ChipStore
  phase : ι → Phase

/-- What a put gets from outside. -/
structure PutCall where
  now : String
  fault : Option PutFault
  receiptCid : String
  metadata : ExecutionMetadata

inductive Event (ι : Type) where
  | check (i : ι)
  /-- A request ends, for whatever reason. -/
  | stop (i : ι)
  | put (i : ι) (call : PutCall)

variable {ι : Type}

section Step

variable [DecidableEq ι] (reg : Registry) (requests : ι → RegistryRequest)

/-- The chip a request stores next: its body, and after that the mapping of a rotation. -/
def nextChip (s : State ι) (i : ι) (call : PutCall) : Option Json :=
  match s.phase i with
  | .checked => some (requests i).request.body
  | .stored rotationChipCid =>
    match KeyRotateRequest.parse (requests i).request.body with
    | .error _ => none
    | .ok req =>
      match deriveMaterial reg.lib.crypto reg.kms req (requests i).request.body
        reg.signingSeed with
      | .error _ => none
      | .ok material => some (mappingChip reg.lib.crypto call.now (requests i).request.world
          rotationChipCid call.receiptCid req.reason material)
  | _ => none

def phaseAfterPut (s : State ι) (i : ι) (stored : Except ChipStoreError String) : Phase :=
  match s.phase i, stored with
  | .checked, .ok cid =>
    if (requests i).request.chipType = "ubl/key.rotate" then .stored cid else .done
  | _, _ => .done

inductive Step : State ι → Event ι → State ι → Prop
  | check {s : State ι} {i : ι} (clock : Clock) (reader : StoreReader)
      (hphase : s.phase i = .waiting) (hreads : reader.Reads s.chips)
      (hok : preCheck reg clock reader (requests i).request = .ok ()) :
      Step s (.check i) { s with phase := Function.update s.phase i .checked }
  | stop {s : State ι} {i : ι} :
      Step s (.stop i) { s with phase := Function.update s.phase i .done }
  | put {s : State ι} {i : ι} {call : PutCall} {data : Json}
      {stored : Except ChipStoreError String × ChipStore}
      (hdata : nextChip reg requests s i call = some data)
      (hstored : storeExecutedChip reg.lib call.now call.fault data call.receiptCid call.metadata
        s.chips = stored) :
      Step s (.put i call)
        ⟨stored.2, Function.update s.phase i (phaseAfterPut requests s i stored.1)⟩

/-- The states reached from the empty store by steps that `ok` permits. -/
inductive Reaches (ok : State ι → Event ι → Prop) : State ι → Prop
  | start : Reaches ok ⟨[], fun _ => .waiting⟩
  | step {s s' : State ι} {e : Event ι} (h : Reaches ok s) (hok : ok s e)
      (hstep : Step reg requests s e s') : Reaches ok s'

end Step

/-! ## What is to be unique -/

/-- A revocation of the CID is in the store. -/
def Revoked (store : ChipStore) (cid : String) : Prop :=
  store.holders "ubl/revoke" "target_cid" cid ≠ []

/-- Of the chips of the type with one value in the field, at most one is not revoked. -/
def Unique (store : ChipStore) (chipType field : String) : Prop :=
  ∀ v, ∀ a ∈ store.holders chipType field v, ∀ b ∈ store.holders chipType field v,
    ¬ Revoked store a.cid → ¬ Revoked store b.cid → a = b

/-- The slugs of apps, and the keys that mappings replace. -/
def claimed : List (String × String) := [("ubl/app", "slug"), ("ubl/key.map", "old_kid")]

/-- The type, the field and the value that a request takes. -/
def claim (request : ParsedChipRequest) : Option (String × String × String) :=
  if request.chipType = "ubl/app" then
    (strField request.body "slug").map fun slug => ("ubl/app", "slug", slug)
  else if request.chipType = "ubl/key.rotate" then
    (strField request.body "old_kid").map fun kid => ("ubl/key.map", "old_kid", kid)
  else none

/-- CHECK has passed, and something is left to be stored. -/
def Phase.inWindow : Phase → Bool
  | .checked | .stored _ => true
  | _ => false

def State.inWindow (s : State ι) (i : ι) : Bool := (s.phase i).inWindow

/-- The put does not fail half-way, is not dated before an earlier one, and finds nothing else
under its CID. -/
structure Clean (lib : StoreLib) (store : ChipStore) (call : PutCall) (data : Json) : Prop where
  whole : ∀ e, call.fault ≠ some (.afterInsert e)
  dated : ∀ put ∈ store, put.chip.createdAt ≤ call.now
  same : ∀ put ∈ store, chipCid lib.crypto data = .ok put.chip.cid →
    put.chip.tags = extractTags lib data (chipTypeOf data)

/-- CHECK is passed only while no other request for the same slug or key is between its CHECK and
its last put, and puts are clean. -/
def Orderly (reg : Registry) (requests : ι → RegistryRequest) (s : State ι) : Event ι → Prop
  | .check i => ∀ j, s.inWindow j → claim (requests j).request = claim (requests i).request →
    claim (requests i).request = none
  | .stop _ => True
  | .put i call => ∀ data, nextChip reg requests s i call = some data →
    Clean reg.lib s.chips call data

/-! ## What a put does -/

section Put

variable {reg : Registry} {store : ChipStore} {call : PutCall} {data : Json}

/-- A clean put is of the whole chip, or of nothing. -/
theorem Clean.put (h : Clean reg.lib store call data) :
    (storeExecutedChip reg.lib call.now call.fault data call.receiptCid call.metadata store).2 =
        store ∨
      ∃ cid, chipCid reg.lib.crypto data = .ok cid ∧
        (storeExecutedChip reg.lib call.now call.fault data call.receiptCid call.metadata store).2 =
          ⟨storedChip reg.lib call.now cid data call.receiptCid call.metadata, true⟩ :: store := by
  unfold storeExecutedChip
  split
  · exact .inl rfl
  · next cid hcid =>
    cases hfault : call.fault with
    | none => exact .inr ⟨cid, hcid, rfl⟩
    | some fault =>
      cases fault with
      | beforeInsert e => exact .inl rfl
      | afterInsert e => exact absurd hfault (h.whole e)

/-- The chips a clean put puts aside say what the new chip says. -/
theorem Clean.revoked (h : Clean reg.lib store call data) (hstore : store.InOrder reg.lib)
    {cid target : String} (hcid : chipCid reg.lib.crypto data = .ok cid)
    (hrevoked : Revoked store target) :
    Revoked (⟨storedChip reg.lib call.now cid data call.receiptCid call.metadata, true⟩ :: store)
      target := by
  obtain ⟨chip, hchip⟩ := List.exists_mem_of_ne_nil _ hrevoked
  obtain ⟨hvalues, htype, htarget⟩ := mem_holders.mp hchip
  by_cases heq : chip.cid = cid
  · obtain ⟨put, hput, rfl⟩ := exists_put_of_mem_values hvalues
    have htags := h.same put hput (by rw [hcid, heq])
    obtain ⟨-, htagged⟩ := hstore.tagged put hput
    have hdata : extractTags reg.lib put.chip.chipData "ubl/revoke" =
        extractTags reg.lib data (chipTypeOf data) := by rw [← htags, htagged, htype]
    refine List.ne_nil_of_mem (mem_holders_cons_self ?_ ?_)
    · exact (type_of_tag (hdata ▸ tag_of_type)).symm
    · exact field_of_tag (by decide) (by decide) (hdata ▸ tag_of_field (by decide) htarget)
  · exact List.ne_nil_of_mem (mem_holders_cons_of_ne hchip heq)

end Put

/-! ## What is stored, and for whom -/

section Requests

variable {reg : Registry} {requests : ι → RegistryRequest} {s : State ι}

/-- The body of a parsed request has its type. -/
theorem RegistryRequest.type_eq (r : RegistryRequest) :
    strField r.request.body "@type" = some r.request.chipType := by
  obtain ⟨request, hparse⟩ := r.parsed
  unfold ParsedChipRequest.parse at hparse
  split at hparse
  · cases hparse
  · split at hparse
    · cases hparse
    · next chipType htype =>
      split_ifs at hparse
      split at hparse
      · cases hparse
      · split at hparse
        · cases hparse
        · rw [← Except.ok.inj hparse]
          exact htype

theorem keyRotate_parse {body : Json} {req : KeyRotateRequest}
    (h : KeyRotateRequest.parse body = .ok req) :
    strField body "@type" = some "ubl/key.rotate" ∧ strField body "old_kid" = some req.oldKid := by
  obtain ⟨htype, -, hkid⟩ := KeyRotateRequest.parse_eq_ok h
  exact ⟨htype, hkid⟩

/-- What a request stores takes nothing but what the request claims. -/
theorem claim_of_nextChip {i : ι} {call : PutCall} {data : Json}
    (h : nextChip reg requests s i call = some data) {chipType field v : String}
    (hclaimed : (chipType, field) ∈ claimed) (htype : chipTypeOf data = chipType)
    (hv : strField data field = some v) :
    claim (requests i).request = some (chipType, field, v) := by
  have hbody := (requests i).type_eq
  unfold nextChip at h
  split at h
  · obtain rfl := Option.some.inj h
    have hchipType : (requests i).request.chipType = chipType := by
      rw [← htype, chipTypeOf, hbody]
      rfl
    have hkind := (requests i).kind
    simp only [claimed, List.mem_cons, Prod.mk.injEq, List.not_mem_nil, or_false] at hclaimed
    obtain ⟨rfl, rfl⟩ | ⟨rfl, rfl⟩ := hclaimed
    · simp [claim, hchipType, hv]
    · rw [hchipType] at hkind
      exact absurd hkind (by decide)
  · next rotationChipCid _ =>
    split at h
    · cases h
    · next req hreq =>
      split at h
      · cases h
      · next material hmaterial =>
        obtain rfl := Option.some.inj h
        obtain ⟨hrotate, hkid⟩ := keyRotate_parse hreq
        have hchipType : (requests i).request.chipType = "ubl/key.rotate" :=
          Option.some.inj (hbody.symm.trans hrotate)
        have hold : material.oldKid = req.oldKid := (deriveMaterial_old hmaterial).2
        simp only [claimed, List.mem_cons, Prod.mk.injEq, List.not_mem_nil, or_false] at hclaimed
        obtain ⟨rfl, rfl⟩ | ⟨rfl, rfl⟩ := hclaimed
        · exact absurd htype (by simp [chipTypeOf, strField, mappingChip, Json.get, Json.asStr])
        · have hvalue : strField (mappingChip reg.lib.crypto call.now (requests i).request.world
              rotationChipCid call.receiptCid req.reason material) "old_kid" = some material.oldKid := rfl
          obtain rfl := Option.some.inj (hvalue.symm.trans hv)
          simp [claim, hchipType, hkid, hold]
  · cases h

/-- A request that goes on after a put has stored the chip of a rotation. -/
theorem nextChip_of_inWindow {i : ι} {call : PutCall} {data : Json}
    {stored : Except ChipStoreError String} (h : nextChip reg requests s i call = some data)
    (hphase : phaseAfterPut requests s i stored ≠ .done) :
    chipTypeOf data = "ubl/key.rotate" := by
  unfold phaseAfterPut at hphase
  split at hphase
  · next cid hchecked =>
    rw [nextChip, hchecked] at h
    obtain rfl := Option.some.inj h
    split_ifs at hphase with htype
    · rw [chipTypeOf, (requests i).type_eq, htype]
      rfl
    · exact absurd rfl hphase
  · exact absurd rfl hphase

end Requests

/-! ## What CHECK has seen -/

section Checked

variable {reg : Registry} {clock : Clock} {reader : StoreReader} {store : ChipStore}
  {request : ParsedChipRequest}

theorem ask_eq_ok {α : Type} {label : String} {answer : Except ChipStoreError α} {a : α} :
    ask label answer = .ok a ↔ answer = .ok a := by
  cases answer <;> simp [ask]

theorem isRevoked_eq_true (hstore : store.InOrder reg.lib) (hreads : reader.Reads store)
    {cid : String} (h : isRevoked reader cid = .ok true) : Revoked store cid := by
  obtain ⟨chips, hchips, h⟩ := bind_eq_ok.mp h
  have hquery := hreads.query _ _ (ask_eq_ok.mp hchips)
  rw [show "target_cid:" ++ cid = "target_cid" ++ ":" ++ cid from rfl,
    hstore.tagQuery_eq (by decide) (by decide)] at hquery
  rintro hnil
  rw [hnil, List.take_nil] at hquery
  subst hquery
  cases h

theorem anyUnrevoked_eq_false (hstore : store.InOrder reg.lib) (hreads : reader.Reads store)
    {slug : String} {chips : List StoredChip} (h : anyUnrevoked reader slug chips = .ok false) :
    ∀ chip ∈ chips, strField chip.chipData "slug" = some slug → Revoked store chip.cid := by
  induction chips with
  | nil => simp
  | cons chip chips ih =>
    rw [anyUnrevoked] at h
    refine List.forall_mem_cons.mpr ?_
    split_ifs at h with hslug
    · obtain ⟨revoked, hrevoked, h⟩ := bind_eq_ok.mp h
      cases revoked with
      | false => cases h
      | true => exact ⟨fun _ => isRevoked_eq_true hstore hreads hrevoked, ih h⟩
    · exact ⟨fun hs => absurd hs hslug, ih h⟩

/-- Where all but the newest chip are revoked, it is enough that the newest one is. -/
theorem forall_of_tail {α : Type} {P : α → Prop} {l : List α} {n : Nat} (hn : 0 < n)
    (htail : ∀ a ∈ l.tail, P a) (h : ∀ a ∈ l.take n, P a) : ∀ a ∈ l, P a := by
  cases l with
  | nil => simp
  | cons a l =>
    obtain ⟨n, rfl⟩ := Nat.exists_eq_succ_of_ne_zero hn.ne'
    exact List.forall_mem_cons.mpr ⟨h a List.mem_cons_self, htail⟩

theorem parseOnboardingChip_app {body : Json} {onboarding : OnboardingChip}
    (htype : strField body "@type" = some "ubl/app")
    (h : parseOnboardingChip body = .ok (some onboarding)) :
    ∃ app, onboarding = .app app ∧ strField body "slug" = some app.slug := by
  rw [parseOnboardingChip, htype] at h
  simp only [if_true] at h
  obtain ⟨app, happ, h⟩ := bind_eq_ok.mp h
  refine ⟨app, (Option.some.inj (Except.ok.inj h)).symm, ?_⟩
  obtain ⟨slug, hslug, happ⟩ := bind_eq_ok.mp happ
  obtain ⟨_, -, happ⟩ := bind_eq_ok.mp happ
  obtain ⟨_, -, happ⟩ := bind_eq_ok.mp happ
  obtain rfl := Except.ok.inj happ
  obtain ⟨s, hs, hslug⟩ := bind_eq_ok.mp hslug
  simp only [throw_eq_error, bind_error, ite_error_eq_ok] at hslug
  obtain rfl := Except.ok.inj hslug.2
  unfold requireField at hs
  split at hs
  · cases hs
  · next v hv => exact Except.ok.inj hs ▸ hv

/-- After CHECK all chips that hold what the request claims are revoked. -/
theorem revoked_of_preCheck {r : RegistryRequest} (hstore : store.InOrder reg.lib)
    (hreads : reader.Reads store) (hok : preCheck reg clock reader r.request = .ok ())
    {chipType field v : String} (hclaim : claim r.request = some (chipType, field, v))
    (htail : ∀ chip ∈ (store.holders chipType field v).tail, Revoked store chip.cid) :
    ∀ chip ∈ store.holders chipType field v, Revoked store chip.cid := by
  obtain ⟨⟨⟩, honboarding, hrotate⟩ := bind_eq_ok.mp hok
  unfold claim at hclaim
  split_ifs at hclaim with happ hrot
  · obtain ⟨slug, hslug, heq⟩ := Option.map_eq_some_iff.mp hclaim
    obtain ⟨rfl, rfl, rfl⟩ : "ubl/app" = chipType ∧ "slug" = field ∧ slug = v := by
      simpa using heq
    have htype : strField r.request.body "@type" = some "ubl/app" := happ ▸ r.type_eq
    rw [if_pos (by rw [happ]; decide), checkOnboarding] at honboarding
    split at honboarding
    · cases honboarding
    · cases honboarding
    · next onboarding hparse =>
      obtain ⟨app, rfl, hslug'⟩ := parseOnboardingChip_app htype hparse
      obtain rfl := Option.some.inj (hslug.symm.trans hslug')
      rw [validateOnboardingDependencies] at honboarding
      cases hvalid : validateApp reg.cap clock reader app r.request.body r.request.world with
      | error e =>
        rw [hvalid] at honboarding
        cases honboarding
      | ok =>
        obtain ⟨⟨⟩, -, hvalid⟩ := bind_eq_ok.mp hvalid
        obtain ⟨existing, hexisting, hvalid⟩ := bind_eq_ok.mp hvalid
        obtain ⟨unrevoked, hany, hvalid⟩ := bind_eq_ok.mp hvalid
        cases unrevoked with
        | true => cases hvalid
        | false =>
          have hquery := hreads.query _ _ (ask_eq_ok.mp hexisting)
          rw [show "slug:" ++ app.slug = "slug" ++ ":" ++ app.slug from rfl,
            hstore.tagQuery_eq (by decide) (by decide)] at hquery
          subst hquery
          refine forall_of_tail (by decide : 0 < 100) htail fun chip hchip => ?_
          exact anyUnrevoked_eq_false hstore hreads hany chip hchip
            (mem_holders.mp (List.mem_of_mem_take hchip)).2.2
  · obtain ⟨kid, hkid, heq⟩ := Option.map_eq_some_iff.mp hclaim
    obtain ⟨rfl, rfl, rfl⟩ : "ubl/key.map" = chipType ∧ "old_kid" = field ∧ kid = v := by
      simpa using heq
    rw [if_pos hrot, checkKeyRotate] at hrotate
    split at hrotate
    · cases hrotate
    · next parsed hparsed =>
      obtain rfl := Option.some.inj (hkid.symm.trans (keyRotate_parse hparsed).2)
      split at hrotate
      · cases hrotate
      · split at hrotate
        · cases hrotate
        · next existing hexisting =>
          split_ifs at hrotate with hempty
          have hquery := hreads.query _ _ hexisting
          rw [show "old_kid:" ++ parsed.oldKid = "old_kid" ++ ":" ++ parsed.oldKid from rfl,
            hstore.tagQuery_eq (by decide) (by decide)] at hquery
          rw [List.isEmpty_iff.mp hempty] at hquery
          refine forall_of_tail Nat.one_pos htail fun chip hchip => ?_
          rw [show (some 1 : Option Nat).getD 100 = 1 from rfl] at hquery
          rw [← hquery] at hchip
          cases hchip

end Checked

/-! ## The invariant -/

section Invariant

variable {reg : Registry} {requests : ι → RegistryRequest} {s : State ι}

/-- Of the chips that hold a value all but the newest are revoked, and all of them while somebody
claims the value after its CHECK; only one request does so. -/
structure Inv (reg : Registry) (requests : ι → RegistryRequest) (s : State ι) : Prop where
  inOrder : s.chips.InOrder reg.lib
  tail : ∀ chipType field v, (chipType, field) ∈ claimed →
    ∀ chip ∈ (s.chips.holders chipType field v).tail, Revoked s.chips chip.cid
  window : ∀ i chipType field v, s.inWindow i →
    claim (requests i).request = some (chipType, field, v) →
    ∀ chip ∈ s.chips.holders chipType field v, Revoked s.chips chip.cid
  alone : ∀ i j, s.inWindow i → s.inWindow j →
    claim (requests i).request = claim (requests j).request →
    claim (requests i).request ≠ none → i = j

theorem inv_start : Inv reg requests ⟨[], fun _ => .waiting⟩ where
  inOrder := inOrder_nil
  tail _ _ _ _ _ hchip := by cases hchip
  window _ _ _ _ _ _ _ hchip := by cases hchip
  alone _ _ hi := by cases hi

theorem claimed_of_claim {request : ParsedChipRequest} {chipType field v : String}
    (h : claim request = some (chipType, field, v)) : (chipType, field) ∈ claimed := by
  unfold claim at h
  split_ifs at h
  · obtain ⟨_, -, heq⟩ := Option.map_eq_some_iff.mp h
    obtain ⟨rfl, rfl, -⟩ : "ubl/app" = chipType ∧ "slug" = field ∧ _ := by simpa using heq
    decide
  · obtain ⟨_, -, heq⟩ := Option.map_eq_some_iff.mp h
    obtain ⟨rfl, rfl, -⟩ : "ubl/key.map" = chipType ∧ "old_kid" = field ∧ _ := by simpa using heq
    decide

/-- Steps that store nothing, after which the requests between CHECK and put are as before. -/
theorem Inv.of_phases (hinv : Inv reg requests s) {phase : ι → Phase}
    (hwindow : ∀ i, State.inWindow ⟨s.chips, phase⟩ i → s.inWindow i) :
    Inv reg requests ⟨s.chips, phase⟩ where
  inOrder := hinv.inOrder
  tail := hinv.tail
  window i chipType field v hi := hinv.window i chipType field v (hwindow i hi)
  alone i j hi hj := hinv.alone i j (hwindow i hi) (hwindow j hj)

theorem Inv.unique (hinv : Inv reg requests s) {chipType field : String}
    (hclaimed : (chipType, field) ∈ claimed) : Unique s.chips chipType field := by
  intro v a ha b hb hra hrb
  have htail := hinv.tail chipType field v hclaimed
  cases hholders : s.chips.holders chipType field v with
  | nil =>
    rw [hholders] at ha
    cases ha
  | cons newest older =>
    rw [hholders] at ha hb htail
    obtain rfl | ha := List.mem_cons.mp ha
    · obtain rfl | hb := List.mem_cons.mp hb
      · rfl
      · exact absurd (htail b hb) hrb
    · exact absurd (htail a ha) hra

variable [DecidableEq ι]

theorem inWindow_update {chips : ChipStore} {phase : Phase} {i j : ι} (hj : j ≠ i) :
    State.inWindow ⟨chips, Function.update s.phase i phase⟩ j ↔ s.inWindow j := by
  simp [State.inWindow, hj]

theorem Inv.check (hinv : Inv reg requests s) {i : ι} {clock : Clock} {reader : StoreReader}
    (hreads : reader.Reads s.chips) (hok : preCheck reg clock reader (requests i).request = .ok ())
    (horderly : Orderly reg requests s (.check i)) :
    Inv reg requests { s with phase := Function.update s.phase i .checked } := by
  have hother {j : ι} (hj : j ≠ i)
      (h : State.inWindow { s with phase := Function.update s.phase i .checked } j) :
      s.inWindow j := (inWindow_update hj).mp h
  refine ⟨hinv.inOrder, hinv.tail, ?_, ?_⟩
  · intro j chipType field v hj hclaim
    by_cases hji : j = i
    · rw [hji] at hclaim
      exact revoked_of_preCheck hinv.inOrder hreads hok hclaim
        (hinv.tail chipType field v (claimed_of_claim hclaim))
    · exact hinv.window j chipType field v (hother hji hj) hclaim
  · intro j k hj hk hclaim hne
    by_cases hji : j = i <;> by_cases hki : k = i
    · rw [hji, hki]
    · rw [hji] at hclaim hne
      exact absurd (horderly k (hother hki hk) hclaim.symm) hne
    · rw [hki] at hclaim
      exact absurd (hclaim.trans (horderly j (hother hji hj) hclaim)) hne
    · exact hinv.alone j k (hother hji hj) (hother hki hk) hclaim hne

theorem Inv.stop (hinv : Inv reg requests s) (i : ι) :
    Inv reg requests { s with phase := Function.update s.phase i .done } := by
  refine hinv.of_phases fun j hj => ?_
  by_cases hji : j = i
  · simp [State.inWindow, hji, Phase.inWindow] at hj
  · exact (inWindow_update hji).mp hj

theorem Inv.put (hinv : Inv reg requests s) {i : ι} {call : PutCall} {data : Json}
    (hdata : nextChip reg requests s i call = some data) (hclean : Clean reg.lib s.chips call data) :
    let stored := storeExecutedChip reg.lib call.now call.fault data call.receiptCid call.metadata
      s.chips
    Inv reg requests ⟨stored.2, Function.update s.phase i (phaseAfterPut requests s i stored.1)⟩ := by
  intro stored
  have hi : s.inWindow i := by
    unfold nextChip at hdata
    split at hdata
    · next h => rw [State.inWindow, h]; rfl
    · next h => rw [State.inWindow, h]; rfl
    · cases hdata
  have hwindow (chips : ChipStore) (j : ι) (hj : State.inWindow
      ⟨chips, Function.update s.phase i (phaseAfterPut requests s i stored.1)⟩ j) :
      s.inWindow j := by
    by_cases hji : j = i
    · exact hji ▸ hi
    · exact (inWindow_update hji).mp hj
  obtain hsame | ⟨cid, hcid, hnew⟩ := hclean.put
  · rw [show stored.2 = s.chips from hsame]
    exact hinv.of_phases (hwindow s.chips)
  rw [show stored.2 = _ from hnew]
  have hrevoked {target : String} (h : Revoked s.chips target) := hclean.revoked hinv.inOrder hcid h
  -- A value that the new chip holds is claimed by its request alone.
  have hholds {chipType field v : String} (hclaimed : (chipType, field) ∈ claimed)
      (h : chipTypeOf data = chipType ∧ strField data field = some v) :
      claim (requests i).request = some (chipType, field, v) :=
    claim_of_nextChip hdata hclaimed h.1 h.2
  refine ⟨hinv.inOrder.cons rfl (tagged_storedChip _ _ _ _ _) hclean.dated, ?_, ?_, ?_⟩
  · intro chipType field v hclaimed chip hchip
    rw [holders_cons] at hchip
    split_ifs at hchip with h
    · exact hrevoked (hinv.window i chipType field v hi (hholds hclaimed h) chip
        (List.mem_of_mem_filter hchip))
    · refine hrevoked (hinv.tail chipType field v hclaimed chip ?_)
      exact (List.filter_sublist.tail).subset hchip
  · intro j chipType field v hj hclaim chip hchip
    have hclaimed := claimed_of_claim hclaim
    rw [holders_cons] at hchip
    split_ifs at hchip with h
    · have hji : j = i := hinv.alone j i (hwindow _ j hj) hi (hclaim.trans (hholds hclaimed h).symm)
        (by simp [hclaim])
      have hopen : phaseAfterPut requests s i stored.1 ≠ .done := by
        intro hdone
        simp [State.inWindow, hji, hdone, Phase.inWindow] at hj
      have hrotate := nextChip_of_inWindow hdata hopen
      obtain rfl : "ubl/key.rotate" = chipType := hrotate.symm.trans h.1
      simp [claimed] at hclaimed
    · exact hrevoked (hinv.window j chipType field v (hwindow _ j hj) hclaim chip
        (List.mem_of_mem_filter hchip))
  · intro j k hj hk
    exact hinv.alone j k (hwindow _ j hj) (hwindow _ k hk)

theorem inv_of_reaches (h : Reaches reg requests (Orderly reg requests) s) : Inv reg requests s := by
  induction h with
  | start => exact inv_start
  | step _ hok hstep ih =>
    cases hstep with
    | check clock reader hphase hreads hcheck => exact ih.check hreads hcheck hok
    | stop => exact ih.stop _
    | put hdata hstored =>
      subst hstored
      exact ih.put hdata (hok _ hdata)

/-- While requests for one slug or one key do not overlap and puts are clean, no two unrevoked
apps have one slug, and no two unrevoked mappings one key. -/
theorem unique_of_orderly (reg : Registry) (requests : ι → RegistryRequest) (s : State ι)
    (h : Reaches reg requests (Orderly reg requests) s) :
    Unique s.chips "ubl/app" "slug" ∧ Unique s.chips "ubl/key.map" "old_kid" :=
  ⟨(inv_of_reaches h).unique (by decide), (inv_of_reaches h).unique (by decide)⟩

end Invariant

/-! ## Two requests for one slug -/

/-- Keys and signatures are not looked at. -/
def sampleRegistry : Registry where
  lib := ⟨sumCrypto, fun _ => none⟩
  kms := ⟨fun _ => "did:key:z2", fun _ => "did:key:z2#ed25519", fun _ => "b3:02"⟩
  cap :=
    { kms :=
        { text := Nrf.asciiText
          base58 := fun _ => .ok (List.replicate 32 1)
          point := fun _ => .ok ()
          base64 := fun _ => .ok (List.replicate 64 2)
          verify := fun _ _ _ => true }
      rfc3339 := fun _ => .ok 0
      serdeText := fun _ => "" }
  signingSeed := Receipt.paddedKey [1]

def sampleClock : Clock := ⟨0, "1970-01-01T00:00:00+00:00"⟩

def sampleCall : PutCall := ⟨"1970-01-01T00:00:00+00:00", none, "b3:00", ⟨"", 0, 0, [], "", true⟩⟩

/-- A capability in the world of `acme`. -/
def sampleCap (action : String) : Json :=
  .object [("action", .string action), ("audience", .string "a/acme"),
    ("issued_by", .string "did:key:z1"), ("issued_at", .string "2025-01-01T00:00:00Z"),
    ("signature", .string "ed25519:00")]

/-- A registration of `acme`. -/
def acmeBody (id : String) : Json :=
  .object [("@type", .string "ubl/app"), ("@id", .string id), ("@ver", .string "1.0"),
    ("@world", .string "a/acme"), ("slug", .string "acme"), ("display_name", .string "Acme"),
    ("owner_did", .string "did:key:z1"),
    ("@cap", sampleCap "registry:init")]

def acmeRequest (id : String) : RegistryRequest where
  request := ⟨⟨"ubl/app", acmeBody id, [], none⟩, "ubl/app", some id, "a/acme"⟩
  text := Nrf.asciiText
  parsed := ⟨⟨"ubl/app", acmeBody id, [], none⟩, rfl⟩
  kind := .inl rfl

def acmeRequests (i : Fin 2) : RegistryRequest := acmeRequest (if i.val = 0 then "1" else "2")

theorem preCheck_acme (i : Fin 2) :
    preCheck sampleRegistry sampleClock (reading []) (acmeRequests i).request = .ok () := by
  revert i
  decide

/-- The chip of a registration. -/
def acmeChip (cid id : String) : StoredChip :=
  storedChip sampleRegistry.lib sampleCall.now cid (acmeBody id) sampleCall.receiptCid
    sampleCall.metadata

theorem storeExecutedChip_acme {store : ChipStore} {cid id : String}
    (h : chipCid sumCrypto (acmeBody id) = .ok cid) :
    storeExecutedChip sampleRegistry.lib sampleCall.now sampleCall.fault (acmeBody id)
      sampleCall.receiptCid sampleCall.metadata store =
        (.ok cid, ⟨acmeChip cid id, true⟩ :: store) := by
  rw [storeExecutedChip, show sampleRegistry.lib.crypto = sumCrypto from rfl, h]
  rfl

/-- Both are CIDs, and they are not the same. -/
def apart : Except ChipError String → Except ChipError String → Bool
  | .ok cid₁, .ok cid₂ => cid₁ != cid₂
  | _, _ => false

theorem exists_of_apart {a b : Except ChipError String} (h : apart a b) :
    ∃ cid₁ cid₂, a = .ok cid₁ ∧ b = .ok cid₂ ∧ cid₁ ≠ cid₂ := by
  cases a with
  | error e => simp [apart] at h
  | ok cid₁ =>
    cases b with
    | error e => simp [apart] at h
    | ok cid₂ => exact ⟨cid₁, cid₂, rfl, rfl, bne_iff_ne.mp h⟩

theorem chipCid_acme : ∃ cid₁ cid₂, chipCid sumCrypto (acmeBody "1") = .ok cid₁ ∧
    chipCid sumCrypto (acmeBody "2") = .ok cid₂ ∧ cid₁ ≠ cid₂ :=
  exists_of_apart (by decide +kernel)

/-- The state after both requests have passed CHECK. -/
def bothChecked : State (Fin 2) := ⟨[], fun _ => .checked⟩

theorem reaches_bothChecked :
    Reaches sampleRegistry acmeRequests (fun _ _ => True) bothChecked := by
  have hreach : Reaches sampleRegistry acmeRequests (fun _ _ => True) _ :=
    .step
      (.step .start trivial
        (.check sampleClock (reading []) rfl (reading_reads []) (preCheck_acme 0)))
      trivial (.check sampleClock (reading []) rfl (reading_reads []) (preCheck_acme 1))
  convert hreach using 1
  rw [bothChecked, State.mk.injEq]
  refine ⟨rfl, funext fun i => ?_⟩
  fin_cases i <;> rfl

/-- Both registrations pass CHECK before either is stored. -/
theorem slug_taken_twice : ∃ s : State (Fin 2),
    Reaches sampleRegistry acmeRequests (fun _ _ => True) s ∧ ¬ Unique s.chips "ubl/app" "slug" := by
  obtain ⟨cid₁, cid₂, h₁, h₂, hne⟩ := chipCid_acme
  have hstep₁ : Step sampleRegistry acmeRequests bothChecked (.put 0 sampleCall) _ :=
    .put rfl (storeExecutedChip_acme h₁)
  have hput₁ := reaches_bothChecked.step trivial hstep₁
  have hput₂ := hput₁.step trivial
    (@Step.put _ _ sampleRegistry acmeRequests _ 1 sampleCall _ _ rfl (storeExecutedChip_acme h₂))
  refine ⟨_, hput₂, fun hunique => ?_⟩
  have hfree (cid : String) : ¬ Revoked [⟨acmeChip cid₂ "2", true⟩, ⟨acmeChip cid₁ "1", true⟩] cid := by
    simp [Revoked, acmeChip, storedChip, ChipStore.holders, ChipStore.values,
      chipTypeOf, strField, acmeBody, Json.get, Json.asStr]
  have hmem₂ : acmeChip cid₂ "2" ∈ ChipStore.holders
      [⟨acmeChip cid₂ "2", true⟩, ⟨acmeChip cid₁ "1", true⟩] "ubl/app" "slug" "acme" :=
    mem_holders_cons_self rfl rfl
  have hmem₁ : acmeChip cid₁ "1" ∈ ChipStore.holders
      [⟨acmeChip cid₂ "2", true⟩, ⟨acmeChip cid₁ "1", true⟩] "ubl/app" "slug" "acme" :=
    mem_holders_cons_of_ne (mem_holders_cons_self rfl rfl) hne
  have heq := hunique "acme" _ hmem₂ _ hmem₁ (hfree _) (hfree _)
  exact hne (congrArg StoredChip.cid heq).symm

/-! ## One request after the other -/

/-- A request that no other overlaps: it passes CHECK and stores its chip. -/
theorem Reaches.serial {ι : Type} [DecidableEq ι] {reg : Registry} {requests : ι → RegistryRequest}
    {s : State ι} (h : Reaches reg requests (Orderly reg requests) s) (hidle : ∀ j, ¬ s.inWindow j)
    {i : ι} (hphase : s.phase i = .waiting) {clock : Clock}
    (hcheck : preCheck reg clock (reading s.chips) (requests i).request = .ok ())
    (htype : (requests i).request.chipType ≠ "ubl/key.rotate") {call : PutCall}
    (hclean : Clean reg.lib s.chips call (requests i).request.body) :
    Reaches reg requests (Orderly reg requests)
      ⟨(storeExecutedChip reg.lib call.now call.fault (requests i).request.body call.receiptCid
        call.metadata s.chips).2, Function.update s.phase i .done⟩ := by
  have hchecked : Reaches reg requests (Orderly reg requests)
      { s with phase := Function.update s.phase i .checked } :=
    h.step (show Orderly reg requests s (.check i) from fun j hj => absurd hj (hidle j))
      (.check clock (reading s.chips) hphase (reading_reads _) hcheck)
  have hdata : nextChip reg requests ⟨s.chips, Function.update s.phase i .checked⟩ i call =
      some (requests i).request.body := by
    simp [nextChip]
  have hput := hchecked.step
    (fun data hsome => Option.some.inj (hdata.symm.trans hsome) ▸ hclean) (.put hdata rfl)
  have hdone (stored : Except ChipStoreError String) :
      phaseAfterPut requests ⟨s.chips, Function.update s.phase i .checked⟩ i stored = .done := by
    cases stored <;> simp [phaseAfterPut, htype]
  rw [hdone, Function.update_idem] at hput
  exact hput

/-- The CID of a body, where it has one. -/
def cidOf (body : Json) : String := (chipCid sumCrypto body).toOption.getD ""

/-- A user of `acme`. -/
def userBody : Json :=
  .object [("@type", .string "ubl/user"), ("@id", .string "3"), ("@ver", .string "1.0"),
    ("@world", .string "a/acme"), ("did", .string "did:key:z1"), ("display_name", .string "Ada"),
    ("@cap", sampleCap "registry:init")]

/-- The user revokes the first registration. -/
def revokeBody : Json :=
  .object [("@type", .string "ubl/revoke"), ("@id", .string "4"), ("@ver", .string "1.0"),
    ("@world", .string "a/acme"), ("target_cid", .string (cidOf (acmeBody "1"))),
    ("reason", .string "moved"), ("actor_cid", .string (cidOf userBody)),
    ("@cap", sampleCap "revoke:execute")]

/-- `acme` is registered, gets a user, is revoked, and is registered again. -/
def historyRequests : Fin 4 → RegistryRequest
  | 0 => acmeRequest "1"
  | 1 => ⟨⟨⟨"ubl/user", userBody, [], none⟩, "ubl/user", some "3", "a/acme"⟩, Nrf.asciiText,
      ⟨⟨"ubl/user", userBody, [], none⟩, rfl⟩, .inl rfl⟩
  | 2 => ⟨⟨⟨"ubl/revoke", revokeBody, [], none⟩, "ubl/revoke", some "4", "a/acme"⟩, Nrf.asciiText,
      ⟨⟨"ubl/revoke", revokeBody, [], none⟩, rfl⟩, .inl rfl⟩
  | 3 => acmeRequest "2"

/-- The store after the first requests. -/
def historyChips : Nat → ChipStore
  | 0 => []
  | n + 1 =>
    if hn : n < 4 then
      (storeExecutedChip sampleRegistry.lib sampleCall.now sampleCall.fault
        (historyRequests ⟨n, hn⟩).request.body sampleCall.receiptCid sampleCall.metadata
        (historyChips n)).2
    else historyChips n

/-- All before the `n`-th have ended. -/
def historyState (n : Nat) : State (Fin 4) :=
  ⟨historyChips n, fun j => if j.val < n then .done else .waiting⟩

theorem historyRequests_type (i : Fin 4) :
    (historyRequests i).request.chipType ≠ "ubl/key.rotate" := by
  revert i
  decide

theorem preCheck_history (i : Fin 4) : preCheck sampleRegistry sampleClock
    (reading (historyChips i.val)) (historyRequests i).request = .ok () := by
  revert i
  decide +kernel

theorem clean_history (i : Fin 4) : Clean sampleRegistry.lib (historyChips i.val) sampleCall
    (historyRequests i).request.body := by
  have hdated : ∀ i : Fin 4, ∀ put ∈ historyChips i.val, put.chip.createdAt ≤ sampleCall.now := by
    decide +kernel
  have hnew : ∀ i : Fin 4, ∀ put ∈ historyChips i.val,
      chipCid sumCrypto (historyRequests i).request.body ≠ .ok put.chip.cid := by
    decide +kernel
  exact ⟨fun e h => (by cases h), hdated i, fun put hput hcid => absurd hcid (hnew i put hput)⟩

theorem reaches_history (n : Nat) (hn : n ≤ 4) : Reaches sampleRegistry historyRequests
    (Orderly sampleRegistry historyRequests) (historyState n) := by
  induction n with
  | zero => exact .start
  | succ n ih =>
    have hidle (j : Fin 4) : ¬ (historyState n).inWindow j := by
      simp only [historyState, State.inWindow]
      split_ifs <;> exact Bool.false_ne_true
    have hwaiting : (historyState n).phase ⟨n, hn⟩ = .waiting := if_neg (Nat.lt_irrefl n)
    have hnext := (ih (by omega)).serial hidle hwaiting (preCheck_history ⟨n, hn⟩)
      (historyRequests_type ⟨n, hn⟩) (clean_history ⟨n, hn⟩)
    convert hnext using 1
    rw [historyState, State.mk.injEq]
    refine ⟨dif_pos hn, funext fun j => ?_⟩
    rw [Function.update_apply]
    by_cases hj : j = ⟨n, hn⟩
    · rw [if_pos hj, hj]
      exact if_pos (Nat.lt_succ_self n)
    · have hne : j.val ≠ n := fun h => hj (Fin.ext h)
      rw [if_neg hj]
      simp only [historyState, show (j.val < n + 1) = (j.val < n) by rw [eq_iff_iff]; omega]

/-- The slug is taken again when its first app has been revoked: of the two the store holds, one
is not revoked. -/
theorem unique_of_orderly_acme : ∃ s : State (Fin 4),
    (s.chips.holders "ubl/app" "slug" "acme").length = 2 ∧
    Unique s.chips "ubl/app" "slug" ∧ Unique s.chips "ubl/key.map" "old_kid" := by
  refine ⟨historyState 4, by decide +kernel, ?_⟩
  exact unique_of_orderly _ _ _ (reaches_history 4 le_rfl)

end Ubl.Pipeline.Uniqueness
