import Ubl.Pipeline.Uniqueness

/-!
# What a registration rests on

CHECK looks for the chips that a chip depends on, and the chip is stored two stages later, after any
number of steps of other requests.  Puts only add, so what CHECK has found is still there.  Every
chip of the registry rests on

    a capability that it brings, or chips that were stored and not revoked when it was checked,
    which rest on others in turn, down to an app that brought a capability   (registered_of_reaches)

in whatever order the steps come, and also where puts fail half-way.
-/

namespace Ubl.Pipeline.Uniqueness

open Ubl.Auth
open Ubl.Chipstore
open ExceptLemmas

/-! ## Registered chips -/

/-- No revocation is found for the CID. -/
def Standing (store : ChipStore) (cid : String) : Prop :=
  (store.query (tagQuery "ubl/revoke" ("target_cid:" ++ cid) (some 1))).1 = []

structure StandingChip (store : ChipStore) (chipType cid : String) (chip : StoredChip) : Prop where
  found : store.getChip cid = some chip
  type : chip.chipType = chipType
  standing : Standing store cid

structure StandingApp (store : ChipStore) (slug : String) (app : StoredChip) : Prop where
  found : app ∈ store.values
  type : app.chipType = "ubl/app"
  slug : strField app.chipData "slug" = some slug
  standing : Standing store app.cid

/-- The chip brings a capability for the action in its world, which was valid at some time. -/
def Granted (reg : Registry) (data : Json) (action : String) : Prop :=
  ∃ clock world cap, strField data "@world" = some world ∧
    requireCap reg.cap clock data action world = .ok cap

def ScopeOf (data : Json) (scope : WorldScope) : Prop :=
  ∃ world, strField data "@world" = some world ∧ WorldScope.parse world = .ok scope

/-- The chip rests on chips of `earlier`, a state of the store before. -/
inductive Registered (reg : Registry) : ChipStore → Json → Prop
  | app {store : ChipStore} {data : Json} (htype : strField data "@type" = some "ubl/app")
      (hcap : Granted reg data "registry:init") : Registered reg store data
  | firstUser {store earlier : ChipStore} {data : Json} {scope : WorldScope} {app : StoredChip}
      (hearlier : earlier <:+ store) (htype : strField data "@type" = some "ubl/user")
      (hscope : ScopeOf data scope) (happ : StandingApp earlier scope.app app)
      (hcap : Granted reg data "registry:init")
      (hreg : Registered reg earlier app.chipData) : Registered reg store data
  | nextUser {store earlier : ChipStore} {data : Json} {scope : WorldScope} {app user : StoredChip}
      (hearlier : earlier <:+ store) (htype : strField data "@type" = some "ubl/user")
      (hscope : ScopeOf data scope) (happ : StandingApp earlier scope.app app)
      (huser : user ∈ earlier.values) (hkind : user.chipType = "ubl/user")
      (hsame : "app:" ++ scope.app ∈ user.tags) (hreg : Registered reg earlier app.chipData)
      (hreg' : Registered reg earlier user.chipData) : Registered reg store data
  | tenant {store earlier : ChipStore} {data : Json} {scope : WorldScope} {creatorCid : String}
      {app user : StoredChip} (hearlier : earlier <:+ store)
      (htype : strField data "@type" = some "ubl/tenant") (hscope : ScopeOf data scope)
      (hcreator : strField data "creator_cid" = some creatorCid)
      (happ : StandingApp earlier scope.app app)
      (huser : StandingChip earlier "ubl/user" creatorCid user)
      (hreg : Registered reg earlier app.chipData)
      (hreg' : Registered reg earlier user.chipData) : Registered reg store data
  | membership {store earlier : ChipStore} {data : Json} {userCid tenantCid : String}
      {user tenant : StoredChip} (hearlier : earlier <:+ store)
      (htype : strField data "@type" = some "ubl/membership")
      (hcap : Granted reg data "membership:grant")
      (huserCid : strField data "user_cid" = some userCid)
      (htenantCid : strField data "tenant_cid" = some tenantCid)
      (huser : StandingChip earlier "ubl/user" userCid user)
      (htenant : StandingChip earlier "ubl/tenant" tenantCid tenant)
      (hreg : Registered reg earlier user.chipData)
      (hreg' : Registered reg earlier tenant.chipData) : Registered reg store data
  | token {store earlier : ChipStore} {data : Json} {userCid : String} {user : StoredChip}
      (hearlier : earlier <:+ store) (htype : strField data "@type" = some "ubl/token")
      (huserCid : strField data "user_cid" = some userCid)
      (huser : StandingChip earlier "ubl/user" userCid user)
      (hreg : Registered reg earlier user.chipData) : Registered reg store data
  | revoke {store earlier : ChipStore} {data : Json} {targetCid actorCid : String}
      {target actor : StoredChip} (hearlier : earlier <:+ store)
      (htype : strField data "@type" = some "ubl/revoke")
      (hcap : Granted reg data "revoke:execute")
      (htargetCid : strField data "target_cid" = some targetCid)
      (hactorCid : strField data "actor_cid" = some actorCid)
      (htarget : earlier.getChip targetCid = some target)
      (hactor : StandingChip earlier "ubl/user" actorCid actor)
      (hreg : Registered reg earlier actor.chipData) : Registered reg store data
  | rotation {store : ChipStore} {data : Json}
      (htype : strField data "@type" = some "ubl/key.rotate")
      (hcap : Granted reg data "key:rotate") : Registered reg store data
  | mapping {store earlier : ChipStore} {data : Json} {rotationCid : String} {put : Put}
      (hearlier : earlier <:+ store) (htype : strField data "@type" = some "ubl/key.map")
      (hrotationCid : strField data "rotation_chip_cid" = some rotationCid)
      (hput : put ∈ earlier) (hcid : put.chip.cid = rotationCid)
      (hkind : put.chip.chipType = "ubl/key.rotate")
      (hreg : Registered reg earlier put.chip.chipData) : Registered reg store data

/-! ## What CHECK has found -/

section Checked

variable {reg : Registry} {clock : Clock} {reader : StoreReader} {store store' : ChipStore}
  {request : ParsedChipRequest} {body : Json}

theorem Registered.mono (h : Registered reg store body) (hsuffix : store <:+ store') :
    Registered reg store' body := by
  cases h with
  | app htype hcap => exact .app htype hcap
  | firstUser hearlier htype hscope happ hcap hreg =>
    exact .firstUser (hearlier.trans hsuffix) htype hscope happ hcap hreg
  | nextUser hearlier htype hscope happ huser hkind hsame hreg hreg' =>
    exact .nextUser (hearlier.trans hsuffix) htype hscope happ huser hkind hsame hreg hreg'
  | tenant hearlier htype hscope hcreator happ huser hreg hreg' =>
    exact .tenant (hearlier.trans hsuffix) htype hscope hcreator happ huser hreg hreg'
  | membership hearlier htype hcap huserCid htenantCid huser htenant hreg hreg' =>
    exact .membership (hearlier.trans hsuffix) htype hcap huserCid htenantCid huser htenant hreg
      hreg'
  | token hearlier htype huserCid huser hreg =>
    exact .token (hearlier.trans hsuffix) htype huserCid huser hreg
  | revoke hearlier htype hcap htargetCid hactorCid htarget hactor hreg =>
    exact .revoke (hearlier.trans hsuffix) htype hcap htargetCid hactorCid htarget hactor hreg
  | rotation htype hcap => exact .rotation htype hcap
  | mapping hearlier htype hrotationCid hput hcid hkind hreg =>
    exact .mapping (hearlier.trans hsuffix) htype hrotationCid hput hcid hkind hreg

theorem standing_of_isRevoked (hreads : reader.Reads store) {cid : String}
    (h : isRevoked reader cid = .ok false) : Standing store cid := by
  obtain ⟨chips, hchips, h⟩ := bind_eq_ok.mp h
  have hquery := hreads.query _ _ (ask_eq_ok.mp hchips)
  have hempty : chips.isEmpty = true := by simpa using Except.ok.inj h
  rw [Standing, ← hquery, List.isEmpty_iff.mp hempty]

theorem requireChipExists_eq_ok (hreads : reader.Reads store) {cid chipType : String}
    (h : requireChipExists reader cid chipType = .ok ()) :
    ∃ chip, StandingChip store chipType cid chip := by
  obtain ⟨found, hfound, h⟩ := bind_eq_ok.mp h
  have hget := hreads.getChip _ _ (ask_eq_ok.mp hfound)
  cases found with
  | none => cases h
  | some chip =>
    dsimp only at h
    split_ifs at h with htype
    · cases h
    · obtain ⟨revoked, hrevoked, h⟩ := bind_eq_ok.mp h
      cases revoked with
      | true => cases h
      | false =>
        exact ⟨chip, hget.symm, not_not.mp htype, standing_of_isRevoked hreads hrevoked⟩

theorem exists_of_anyUnrevoked (hreads : reader.Reads store) {slug : String}
    {chips : List StoredChip} (h : anyUnrevoked reader slug chips = .ok true) :
    ∃ chip ∈ chips, strField chip.chipData "slug" = some slug ∧ Standing store chip.cid := by
  induction chips with
  | nil => cases h
  | cons chip chips ih =>
    have hrest (h : anyUnrevoked reader slug chips = .ok true) :
        ∃ c ∈ chip :: chips, strField c.chipData "slug" = some slug ∧ Standing store c.cid := by
      obtain ⟨c, hc, hslug⟩ := ih h
      exact ⟨c, List.mem_cons_of_mem _ hc, hslug⟩
    rw [anyUnrevoked] at h
    split_ifs at h with hslug
    · obtain ⟨revoked, hrevoked, h⟩ := bind_eq_ok.mp h
      cases revoked with
      | true => exact hrest h
      | false => exact ⟨chip, List.mem_cons_self, hslug, standing_of_isRevoked hreads hrevoked⟩
    · exact hrest h

/-- What a query under a tag finds is of the type and has the tag. -/
theorem of_mem_tagQuery {chipType tag : String} {limit : Option Nat} {chip : StoredChip}
    (h : chip ∈ (store.query (tagQuery chipType tag limit)).1) :
    chip ∈ store.values ∧ chip.chipType = chipType ∧ tag ∈ chip.tags := by
  obtain ⟨hvalue, hmatches⟩ := of_mem_query h
  simp only [ChipStore.matchesQuery, tagQuery, Bool.and_eq_true] at hmatches
  exact ⟨hvalue, beq_iff_eq.mp hmatches.1.1.1.1, by simpa using hmatches.1.1.1.2⟩

theorem requireAppExists_eq_ok (hreads : reader.Reads store) {slug : String}
    (h : requireAppExists reader slug = .ok ()) : ∃ app, StandingApp store slug app := by
  obtain ⟨apps, happs, h⟩ := bind_eq_ok.mp h
  have hquery := hreads.query _ _ (ask_eq_ok.mp happs)
  obtain ⟨unrevoked, hany, h⟩ := bind_eq_ok.mp h
  cases unrevoked with
  | false => cases h
  | true =>
    obtain ⟨app, happ, hslug, hstanding⟩ := exists_of_anyUnrevoked hreads hany
    obtain ⟨hvalue, htype, -⟩ := of_mem_tagQuery (hquery ▸ happ)
    exact ⟨app, hvalue, htype, hslug, hstanding⟩

theorem worldScope_eq_ok {world : String} {scope : WorldScope}
    (h : worldScope world = .ok scope) : WorldScope.parse world = .ok scope := by
  unfold worldScope at h
  split at h
  · cases h
  · next found hfound => exact Except.ok.inj h ▸ hfound

theorem needCap_eq_ok {label action world : String}
    (h : needCap reg.cap clock label body action world = .ok ()) :
    ∃ cap, requireCap reg.cap clock body action world = .ok cap := by
  unfold needCap at h
  split at h
  · cases h
  · next cap hcap => exact ⟨cap, hcap⟩

theorem RegistryRequest.world_eq (r : RegistryRequest) :
    strField r.request.body "@world" = some r.request.world := by
  obtain ⟨request, hparse⟩ := r.parsed
  unfold ParsedChipRequest.parse at hparse
  split at hparse
  · cases hparse
  · split at hparse
    · cases hparse
    · split_ifs at hparse
      split at hparse
      · cases hparse
      · next world hworld =>
        split at hparse
        · cases hparse
        · rw [← Except.ok.inj hparse]
          exact hworld

/-! ### The fields of a chip -/

theorem requireField_eq_ok {field s : String} (h : requireField body field = .ok s) :
    strField body field = some s := by
  unfold requireField at h
  split at h
  · cases h
  · next v hv => exact Except.ok.inj h ▸ hv

theorem requireCid_eq_ok {field s : String} (h : requireCid body field = .ok s) :
    strField body field = some s := by
  obtain ⟨v, hv, h⟩ := bind_eq_ok.mp h
  simp only [throw_eq_error, bind_error, ite_error_eq_ok] at h
  exact Except.ok.inj h.2 ▸ requireField_eq_ok hv

/-- The chip is read from the body. -/
def ReadFrom (body : Json) : OnboardingChip → Prop
  | .app _ => strField body "@type" = some "ubl/app"
  | .user _ => strField body "@type" = some "ubl/user"
  | .tenant t => strField body "@type" = some "ubl/tenant" ∧
      strField body "creator_cid" = some t.creatorCid
  | .membership m => strField body "@type" = some "ubl/membership" ∧
      strField body "user_cid" = some m.userCid ∧ strField body "tenant_cid" = some m.tenantCid
  | .token t => strField body "@type" = some "ubl/token" ∧ strField body "user_cid" = some t.userCid
  | .revoke r => strField body "@type" = some "ubl/revoke" ∧
      strField body "target_cid" = some r.targetCid ∧ strField body "actor_cid" = some r.actorCid

theorem readFrom_of_parse {onboarding : OnboardingChip}
    (h : parseOnboardingChip body = .ok (some onboarding)) : ReadFrom body onboarding := by
  unfold parseOnboardingChip at h
  split at h
  · cases h
  next chipType htype =>
  split_ifs at h with happ huser htenant hmembership htoken hrevoke
  · obtain ⟨app, -, h⟩ := bind_eq_ok.mp h
    obtain rfl := Option.some.inj (Except.ok.inj h)
    exact htype.trans (congrArg some happ)
  · obtain ⟨user, -, h⟩ := bind_eq_ok.mp h
    obtain rfl := Option.some.inj (Except.ok.inj h)
    exact htype.trans (congrArg some huser)
  · obtain ⟨tenant, hbody, h⟩ := bind_eq_ok.mp h
    obtain rfl := Option.some.inj (Except.ok.inj h)
    obtain ⟨_, -, hbody⟩ := bind_eq_ok.mp hbody
    obtain ⟨_, -, hbody⟩ := bind_eq_ok.mp hbody
    obtain ⟨creatorCid, hcreator, hbody⟩ := bind_eq_ok.mp hbody
    obtain rfl := Except.ok.inj hbody
    exact ⟨htype.trans (congrArg some htenant), requireCid_eq_ok hcreator⟩
  · obtain ⟨membership, hbody, h⟩ := bind_eq_ok.mp h
    obtain rfl := Option.some.inj (Except.ok.inj h)
    obtain ⟨userCid, huserCid, hbody⟩ := bind_eq_ok.mp hbody
    obtain ⟨tenantCid, htenantCid, hbody⟩ := bind_eq_ok.mp hbody
    obtain ⟨_, -, hbody⟩ := bind_eq_ok.mp hbody
    obtain ⟨_, -, hbody⟩ := bind_eq_ok.mp hbody
    obtain rfl := Except.ok.inj hbody
    exact ⟨htype.trans (congrArg some hmembership), requireCid_eq_ok huserCid, requireCid_eq_ok htenantCid⟩
  · obtain ⟨token, hbody, h⟩ := bind_eq_ok.mp h
    obtain rfl := Option.some.inj (Except.ok.inj h)
    obtain ⟨userCid, huserCid, hbody⟩ := bind_eq_ok.mp hbody
    obtain ⟨_, -, hbody⟩ := bind_eq_ok.mp hbody
    obtain ⟨_, -, hbody⟩ := bind_eq_ok.mp hbody
    obtain rfl := Except.ok.inj hbody
    exact ⟨htype.trans (congrArg some htoken), requireCid_eq_ok huserCid⟩
  · obtain ⟨revoke, hbody, h⟩ := bind_eq_ok.mp h
    obtain rfl := Option.some.inj (Except.ok.inj h)
    obtain ⟨targetCid, htargetCid, hbody⟩ := bind_eq_ok.mp hbody
    obtain ⟨_, -, hbody⟩ := bind_eq_ok.mp hbody
    simp only [throw_eq_error, bind_error, ite_error_eq_ok] at hbody
    obtain ⟨actorCid, hactorCid, hbody⟩ := bind_eq_ok.mp hbody.2
    obtain rfl := Except.ok.inj hbody
    exact ⟨htype.trans (congrArg some hrevoke), requireCid_eq_ok htargetCid,
      requireCid_eq_ok hactorCid⟩
  · cases h

/-! ### One check -/

theorem StandingChip.put {chipType cid : String} {chip : StoredChip}
    (h : StandingChip store chipType cid chip) : ∃ put ∈ store, put.chip = chip := by
  obtain ⟨put, hput, hchip, -⟩ := exists_put_of_getChip h.found
  exact ⟨put, hput, hchip⟩

theorem StandingChip.registered {chipType cid : String} {chip : StoredChip}
    (h : StandingChip store chipType cid chip)
    (hstored : ∀ put ∈ store, Registered reg store put.chip.chipData) :
    Registered reg store chip.chipData := by
  obtain ⟨put, hput, rfl⟩ := h.put
  exact hstored put hput

theorem registered_of_mem_values {chip : StoredChip} (h : chip ∈ store.values)
    (hstored : ∀ put ∈ store, Registered reg store put.chip.chipData) :
    Registered reg store chip.chipData := by
  obtain ⟨put, hput, rfl⟩ := exists_put_of_mem_values h
  exact hstored put hput

theorem registered_of_checkOnboarding (r : RegistryRequest) (hreads : reader.Reads store)
    (hok : checkOnboarding reg clock reader r.request = .ok ())
    (hstored : ∀ put ∈ store, Registered reg store put.chip.chipData) :
    Registered reg store r.request.body := by
  have hworld := r.world_eq
  have hself : store <:+ store := List.suffix_rfl
  unfold checkOnboarding at hok
  split at hok
  · cases hok
  · cases hok
  next onboarding hparse =>
  have hread := readFrom_of_parse hparse
  have hvalid : validateOnboardingDependencies reg.cap clock reader onboarding r.request.body
      r.request.world = .ok () := by
    revert hok
    cases validateOnboardingDependencies reg.cap clock reader onboarding r.request.body
      r.request.world with
    | error e => exact nofun
    | ok => exact fun _ => rfl
  have hgranted {label action : String} (h : needCap reg.cap clock label r.request.body action
      r.request.world = .ok ()) : Granted reg r.request.body action := by
    obtain ⟨cap, hcap⟩ := needCap_eq_ok h
    exact ⟨clock, _, cap, hworld, hcap⟩
  cases onboarding with
  | app app =>
    obtain ⟨⟨⟩, hcap, -⟩ := bind_eq_ok.mp hvalid
    exact .app hread (hgranted hcap)
  | user user =>
    obtain ⟨scope, hscope, hvalid⟩ := bind_eq_ok.mp hvalid
    obtain ⟨⟨⟩, happ, hvalid⟩ := bind_eq_ok.mp hvalid
    obtain ⟨users, husers, hvalid⟩ := bind_eq_ok.mp hvalid
    obtain ⟨app, happ⟩ := requireAppExists_eq_ok hreads happ
    have hscope : ScopeOf r.request.body scope := ⟨_, hworld, worldScope_eq_ok hscope⟩
    have happReg := registered_of_mem_values happ.found hstored
    cases users with
    | nil => exact .firstUser hself hread hscope happ (hgranted hvalid) happReg
    | cons first rest =>
      have hquery := hreads.query _ _ (ask_eq_ok.mp husers)
      obtain ⟨hvalue, htype, htag⟩ := of_mem_tagQuery (hquery ▸ List.mem_cons_self)
      exact .nextUser hself hread hscope happ hvalue htype htag happReg
        (registered_of_mem_values hvalue hstored)
  | tenant tenant =>
    obtain ⟨scope, hscope, hvalid⟩ := bind_eq_ok.mp hvalid
    obtain ⟨⟨⟩, happ, hvalid⟩ := bind_eq_ok.mp hvalid
    obtain ⟨app, happ⟩ := requireAppExists_eq_ok hreads happ
    obtain ⟨user, huser⟩ := requireChipExists_eq_ok hreads hvalid
    exact .tenant hself hread.1 ⟨_, hworld, worldScope_eq_ok hscope⟩ hread.2 happ huser
      (registered_of_mem_values happ.found hstored) (huser.registered hstored)
  | membership membership =>
    obtain ⟨⟨⟩, hcap, hvalid⟩ := bind_eq_ok.mp hvalid
    obtain ⟨⟨⟩, huser, htenant⟩ := bind_eq_ok.mp hvalid
    obtain ⟨user, huser⟩ := requireChipExists_eq_ok hreads huser
    obtain ⟨tenant, htenant⟩ := requireChipExists_eq_ok hreads htenant
    exact .membership hself hread.1 (hgranted hcap) hread.2.1 hread.2.2 huser htenant
      (huser.registered hstored) (htenant.registered hstored)
  | token token =>
    obtain ⟨user, huser⟩ := requireChipExists_eq_ok hreads hvalid
    exact .token hself hread.1 hread.2 huser (huser.registered hstored)
  | revoke revoke =>
    obtain ⟨⟨⟩, hcap, hvalid⟩ := bind_eq_ok.mp hvalid
    obtain ⟨found, hfound, hvalid⟩ := bind_eq_ok.mp hvalid
    cases found with
    | false => cases hvalid
    | true =>
      have hexists := hreads.exists_ _ _ (ask_eq_ok.mp hfound)
      obtain ⟨target, htarget⟩ := Option.isSome_iff_exists.mp hexists.symm
      obtain ⟨actor, hactor⟩ := requireChipExists_eq_ok hreads hvalid
      exact .revoke hself hread.1 (hgranted hcap) hread.2.1 hread.2.2 htarget hactor
        (hactor.registered hstored)

theorem registered_of_preCheck (r : RegistryRequest) (hreads : reader.Reads store)
    (hok : preCheck reg clock reader r.request = .ok ())
    (hstored : ∀ put ∈ store, Registered reg store put.chip.chipData) :
    Registered reg store r.request.body := by
  obtain ⟨⟨⟩, honboarding, hrotate⟩ := bind_eq_ok.mp hok
  rcases r.kind with hkind | hkind
  · rw [if_pos hkind] at honboarding
    exact registered_of_checkOnboarding r hreads honboarding hstored
  · rw [if_pos hkind, checkKeyRotate] at hrotate
    split at hrotate
    · cases hrotate
    · split at hrotate
      · cases hrotate
      · next cap hcap =>
        exact .rotation (hkind ▸ r.type_eq) ⟨clock, _, cap, r.world_eq, hcap⟩

end Checked

/-! ## Every step keeps it -/

section Steps

variable {ι : Type} {reg : Registry} {requests : ι → RegistryRequest} {s : State ι}

/-- What is stored rests on what was stored before it, and what may be stored next is registered
too. -/
structure Rests (reg : Registry) (requests : ι → RegistryRequest) (s : State ι) : Prop where
  stored : ∀ put before, put :: before <:+ s.chips → Registered reg before put.chip.chipData
  typed : ∀ put ∈ s.chips, put.chip.chipType = chipTypeOf put.chip.chipData
  checked : ∀ i, s.phase i = .checked → Registered reg s.chips (requests i).request.body
  rotated : ∀ i cid, s.phase i = .stored cid →
    ∃ put ∈ s.chips, put.chip.cid = cid ∧ put.chip.chipType = "ubl/key.rotate"

theorem rests_start : Rests reg requests ⟨[], fun _ => .waiting⟩ where
  stored put before h := absurd (List.suffix_nil.mp h) (List.cons_ne_nil put before)
  typed := nofun
  checked := nofun
  rotated := nofun

theorem Rests.of_mem (h : Rests reg requests s) {put : Put} (hput : put ∈ s.chips) :
    Registered reg s.chips put.chip.chipData := by
  obtain ⟨later, before, hsplit⟩ := List.append_of_mem hput
  have hsuffix : put :: before <:+ s.chips := ⟨later, hsplit.symm⟩
  exact (h.stored put before hsuffix).mono ((List.suffix_cons put before).trans hsuffix)

theorem Rests.next {i : ι} {call : PutCall} {data : Json} (h : Rests reg requests s)
    (hdata : nextChip reg requests s i call = some data) : Registered reg s.chips data := by
  unfold nextChip at hdata
  split at hdata
  · next hphase => exact Option.some.inj hdata ▸ h.checked i hphase
  · next cid hphase =>
    split at hdata
    · cases hdata
    · split at hdata
      · cases hdata
      · obtain rfl := Option.some.inj hdata
        obtain ⟨put, hput, hcid, hkind⟩ := h.rotated i cid hphase
        exact .mapping List.suffix_rfl rfl rfl hput hcid hkind (h.of_mem hput)
  · cases hdata

/-- A put adds the chip, with or without its index entries, or nothing. -/
theorem storeExecutedChip_cases (lib : StoreLib) (now : String) (fault : Option PutFault)
    (data : Json) (receiptCid : String) (metadata : ExecutionMetadata) (store : ChipStore) :
    let stored := storeExecutedChip lib now fault data receiptCid metadata store
    (stored.2 = store ∧ ∀ cid, stored.1 ≠ .ok cid) ∨
      ∃ put : Put, stored.2 = put :: store ∧ put.chip.chipData = data ∧
        put.chip.chipType = chipTypeOf data ∧ ∀ cid, stored.1 = .ok cid → put.chip.cid = cid := by
  intro stored
  cases hcid : chipCid lib.crypto data with
  | error e =>
    have hstored : stored = (.error (.serialization e), store) := by
      simp only [stored, storeExecutedChip, hcid]
    exact .inl (by rw [hstored]; exact ⟨rfl, fun _ heq => (by cases heq)⟩)
  | ok cid =>
    rcases fault with _ | e | e
    · have hstored : stored =
          (.ok cid, ⟨storedChip lib now cid data receiptCid metadata, true⟩ :: store) := by
        simp only [stored, storeExecutedChip, hcid]
        rfl
      rw [hstored]
      exact .inr ⟨_, rfl, rfl, rfl, fun _ heq => Except.ok.inj heq⟩
    · have hstored : stored = (.error e, store) := by
        simp only [stored, storeExecutedChip, hcid]
        rfl
      exact .inl (by rw [hstored]; exact ⟨rfl, fun _ heq => (by cases heq)⟩)
    · have hstored : stored =
          (.error e, ⟨storedChip lib now cid data receiptCid metadata, false⟩ :: store) := by
        simp only [stored, storeExecutedChip, hcid]
        rfl
      rw [hstored]
      exact .inr ⟨_, rfl, rfl, rfl, fun _ heq => (by cases heq)⟩

variable [DecidableEq ι]

/-- The request `i` comes to a phase after CHECK, or ends. -/
theorem Rests.update (h : Rests reg requests s) {chips : ChipStore} (hsuffix : s.chips <:+ chips)
    {i : ι} {phase : Phase}
    (hstored : ∀ put before, put :: before <:+ chips → Registered reg before put.chip.chipData)
    (htyped : ∀ put ∈ chips, put.chip.chipType = chipTypeOf put.chip.chipData)
    (hchecked : phase = .checked → Registered reg chips (requests i).request.body)
    (hrotated : ∀ cid, phase = .stored cid →
      ∃ put ∈ chips, put.chip.cid = cid ∧ put.chip.chipType = "ubl/key.rotate") :
    Rests reg requests ⟨chips, Function.update s.phase i phase⟩ := by
  refine ⟨hstored, htyped, fun j hj => ?_, fun j cid hj => ?_⟩
  · simp only [Function.update_apply] at hj
    split_ifs at hj with hji
    · exact hji ▸ hchecked hj
    · exact (h.checked j hj).mono hsuffix
  · simp only [Function.update_apply] at hj
    split_ifs at hj with hji
    · exact hrotated cid hj
    · obtain ⟨put, hput, hcid⟩ := h.rotated j cid hj
      exact ⟨put, hsuffix.subset hput, hcid⟩

theorem Rests.put (h : Rests reg requests s) {i : ι} {call : PutCall} {data : Json}
    (hdata : nextChip reg requests s i call = some data) :
    let stored := storeExecutedChip reg.lib call.now call.fault data call.receiptCid call.metadata
      s.chips
    Rests reg requests ⟨stored.2, Function.update s.phase i (phaseAfterPut requests s i stored.1)⟩ := by
  intro stored
  rcases storeExecutedChip_cases reg.lib call.now call.fault data call.receiptCid call.metadata
    s.chips with ⟨hsame, hfails⟩ | ⟨put, hput, hchip, htype, hcid⟩
  · have hdone : phaseAfterPut requests s i stored.1 = .done := by
      unfold phaseAfterPut
      split
      · next cid _ hok => exact absurd hok (hfails cid)
      · rfl
    rw [show stored.2 = s.chips from hsame, hdone]
    exact h.update List.suffix_rfl h.stored h.typed nofun nofun
  · have hsuffix : s.chips <:+ stored.2 := hput ▸ List.suffix_cons put s.chips
    refine h.update hsuffix (fun p before hp => ?_) (fun p hp => ?_) (fun hphase => ?_)
      (fun cid hphase => ?_)
    · rcases List.suffix_cons_iff.mp (hput ▸ hp) with hp | hp
      · obtain ⟨rfl, rfl⟩ := List.cons.inj hp
        exact hchip ▸ h.next hdata
      · exact h.stored p before hp
    · rcases List.mem_cons.mp (hput ▸ hp) with rfl | hp
      · rw [htype, hchip]
      · exact h.typed p hp
    · -- after a put no request is where CHECK has left it
      unfold phaseAfterPut at hphase
      split at hphase
      · split_ifs at hphase
      · cases hphase
    · have hrotate := nextChip_of_inWindow hdata (by rw [hphase]; nofun)
      unfold phaseAfterPut at hphase
      split at hphase
      · next cid' _ hok =>
        split_ifs at hphase
        obtain rfl := Phase.stored.inj hphase
        exact ⟨put, hput ▸ List.mem_cons_self, hcid cid' hok, htype.trans hrotate⟩
      · cases hphase

theorem rests_of_reaches {ok : State ι → Event ι → Prop} (h : Reaches reg requests ok s) :
    Rests reg requests s := by
  induction h with
  | start => exact rests_start
  | step _ _ hstep ih =>
    cases hstep with
    | check clock reader hphase hreads hcheck =>
      exact ih.update List.suffix_rfl ih.stored ih.typed
        (fun _ => registered_of_preCheck _ hreads hcheck fun _ => ih.of_mem) nofun
    | stop => exact ih.update List.suffix_rfl ih.stored ih.typed nofun nofun
    | put hdata hstored =>
      subst hstored
      exact ih.put hdata

end Steps

/-! ## Down to an app -/

/-- An app that brought its capability. -/
def Root (reg : Registry) (data : Json) : Prop :=
  strField data "@type" = some "ubl/app" ∧ Granted reg data "registry:init"

theorem chipTypeOf_eq {data : Json} {chipType : String}
    (h : strField data "@type" = some chipType) : chipTypeOf data = chipType := by
  rw [chipTypeOf, h]
  rfl

section Root

variable {reg : Registry} {store earlier : ChipStore}

/-- What is shown of a dependency, which may itself be the app. -/
theorem root_of_put (hsuffix : earlier <:+ store) {put : Put} (hput : put ∈ earlier)
    (h : Root reg put.chip.chipData ∨ ∃ p ∈ earlier, Root reg p.chip.chipData) :
    ∃ p ∈ store, Root reg p.chip.chipData := by
  rcases h with h | ⟨p, hp, h⟩
  · exact ⟨put, hsuffix.subset hput, h⟩
  · exact ⟨p, hsuffix.subset hp, h⟩

/-- An onboarding chip rests on an app, itself or a stored one. -/
theorem Registered.root {data : Json} (h : Registered reg store data)
    (htyped : ∀ put ∈ store, put.chip.chipType = chipTypeOf put.chip.chipData)
    (hkind : isOnboardingType (chipTypeOf data)) :
    Root reg data ∨ ∃ put ∈ store, Root reg put.chip.chipData := by
  -- the dependency is of an onboarding type too
  have hchip {store earlier : ChipStore} {chipType : String} {chip : StoredChip}
      (hsuffix : earlier <:+ store)
      (htyped : ∀ put ∈ store, put.chip.chipType = chipTypeOf put.chip.chipData)
      (hstored : ∃ put ∈ earlier, put.chip = chip) (htype : chip.chipType = chipType)
      (honboarding : isOnboardingType chipType)
      (ih : (∀ put ∈ earlier, put.chip.chipType = chipTypeOf put.chip.chipData) →
        isOnboardingType (chipTypeOf chip.chipData) →
          Root reg chip.chipData ∨ ∃ put ∈ earlier, Root reg put.chip.chipData) :
      ∃ put ∈ store, Root reg put.chip.chipData := by
    obtain ⟨put, hput, rfl⟩ := hstored
    refine root_of_put hsuffix hput (ih (fun p hp => htyped p (hsuffix.subset hp)) ?_)
    rw [← htyped put (hsuffix.subset hput), htype]
    exact honboarding
  induction h with
  | app htype hcap => exact .inl ⟨htype, hcap⟩
  | firstUser hearlier _ _ happ _ _ ih =>
    exact .inr (hchip hearlier htyped (exists_put_of_mem_values happ.found) happ.type (by decide) ih)
  | nextUser hearlier _ _ happ _ _ _ _ _ ih _ =>
    exact .inr (hchip hearlier htyped (exists_put_of_mem_values happ.found) happ.type (by decide) ih)
  | tenant hearlier _ _ _ happ _ _ _ ih _ =>
    exact .inr (hchip hearlier htyped (exists_put_of_mem_values happ.found) happ.type (by decide) ih)
  | membership hearlier _ _ _ _ huser _ _ _ ih _ =>
    exact .inr (hchip hearlier htyped huser.put huser.type (by decide) ih)
  | token hearlier _ _ huser _ ih =>
    exact .inr (hchip hearlier htyped huser.put huser.type (by decide) ih)
  | revoke hearlier _ _ _ _ _ hactor _ ih =>
    exact .inr (hchip hearlier htyped hactor.put hactor.type (by decide) ih)
  | rotation htype _ =>
    rw [chipTypeOf_eq htype] at hkind
    exact absurd hkind (by decide)
  | mapping _ htype _ _ _ _ _ _ =>
    rw [chipTypeOf_eq htype] at hkind
    exact absurd hkind (by decide)

end Root

/-- In every order of steps: each put of a chip rests on the capability that the chip brings or on
chips stored before it, which stood when it was checked, and where the chip is of an onboarding
type, an app with its capability is stored. -/
theorem registered_of_reaches {ι : Type} [DecidableEq ι] (reg : Registry)
    (requests : ι → RegistryRequest) (ok : State ι → Event ι → Prop) (s : State ι)
    (h : Reaches reg requests ok s) (later before : List Put) (put : Put)
    (hput : s.chips = later ++ put :: before) :
    Registered reg before put.chip.chipData ∧ (isOnboardingType put.chip.chipType →
      ∃ app ∈ put :: before, app.chip.chipType = "ubl/app" ∧
        Granted reg app.chip.chipData "registry:init") := by
  have hrests := rests_of_reaches h
  have hsuffix : put :: before <:+ s.chips := ⟨later, hput.symm⟩
  have hregistered := hrests.stored put before hsuffix
  have htyped (p : Put) (hp : p ∈ put :: before) : p.chip.chipType = chipTypeOf p.chip.chipData :=
    hrests.typed p (hsuffix.subset hp)
  refine ⟨hregistered, fun hkind => ?_⟩
  rw [htyped put List.mem_cons_self] at hkind
  have happ : ∃ app ∈ put :: before, Root reg app.chip.chipData := by
    rcases hregistered.root (fun p hp => htyped p (List.mem_cons_of_mem put hp)) hkind with
      hroot | ⟨app, happ, hroot⟩
    · exact ⟨put, List.mem_cons_self, hroot⟩
    · exact ⟨app, List.mem_cons_of_mem put happ, hroot⟩
  obtain ⟨app, happ, htype, hcap⟩ := happ
  exact ⟨app, happ, (htyped app happ).trans (chipTypeOf_eq htype), hcap⟩

theorem length_historyChips (n : Fin 5) : (historyChips n.val).length = n.val := by
  revert n
  decide +kernel

/-- Each request of the history has stored its body. -/
theorem historyChips_succ (i : Fin 4) : ∃ put : Put,
    historyChips (i.val + 1) = put :: historyChips i.val ∧
      put.chip.chipData = (historyRequests i).request.body ∧
      put.chip.chipType = chipTypeOf (historyRequests i).request.body := by
  have hstored : historyChips (i.val + 1) = _ := dif_pos i.isLt
  rcases storeExecutedChip_cases sampleRegistry.lib sampleCall.now sampleCall.fault
    (historyRequests i).request.body sampleCall.receiptCid sampleCall.metadata
    (historyChips i.val) with ⟨hsame, -⟩ | ⟨put, hput, hdata, htype, -⟩
  · have hlength := length_historyChips i.succ
    rw [Fin.val_succ, hstored.trans hsame] at hlength
    exact absurd ((length_historyChips i.castSucc).symm.trans hlength) (by simp)
  · exact ⟨put, hstored.trans hput, hdata, htype⟩

/-- The user of the history rests on the registration before it. -/
theorem registered_of_reaches_acme : ∃ later before put,
    historyChips 4 = later ++ put :: before ∧ put.chip.chipType = "ubl/user" ∧
      Registered sampleRegistry before put.chip.chipData ∧
      ∃ app ∈ before, app.chip.chipType = "ubl/app" ∧
        Granted sampleRegistry app.chip.chipData "registry:init" := by
  obtain ⟨put, hput, -, htype⟩ := historyChips_succ 1
  obtain ⟨revoke, hrevoke, -, -⟩ := historyChips_succ 2
  obtain ⟨again, hagain, -, -⟩ := historyChips_succ 3
  have hchips : historyChips 4 = [again, revoke] ++ put :: historyChips 1 :=
    hagain.trans (congrArg (again :: ·) (hrevoke.trans (congrArg (revoke :: ·) hput)))
  obtain ⟨hregistered, happ⟩ := registered_of_reaches sampleRegistry historyRequests _ _
    (reaches_history 4 le_rfl) _ _ _ hchips
  obtain ⟨app, happ, hkind, hcap⟩ := happ (htype ▸ rfl)
  refine ⟨_, _, _, hchips, htype, hregistered, app, ?_, hkind, hcap⟩
  rcases List.mem_cons.mp happ with rfl | happ
  · exact absurd (htype.symm.trans hkind) (by decide)
  · exact happ

end Ubl.Pipeline.Uniqueness
