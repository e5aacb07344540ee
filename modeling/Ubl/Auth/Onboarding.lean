import Ubl.Auth.Capability
import Ubl.Chipstore.Query

/-!
# `auth.rs`: onboarding

Apps, users, tenants, memberships, tokens and revocations are chips.  Each is read from its body,
and CHECK looks up what it depends on in the chip store (`validateOnboardingDependencies`).  The
store may fail to answer a question, so the checks ask a `StoreReader`.
-/

namespace Ubl.Auth

open Ubl.Chipstore
open Ubl.Nrf (splitParts)

/-! ## Payloads -/

inductive AuthError where
  | missingField (field : String)
  | invalidField (text : String)
deriving DecidableEq

def AuthError.text : AuthError → String
  | .missingField s => "Missing field: " ++ s
  | .invalidField s => "Invalid field: " ++ s

inductive Role where
  | admin
  | member
deriving DecidableEq

def Role.parse (s : String) : Except AuthError Role :=
  if s = "admin" then .ok .admin
  else if s = "member" then .ok .member
  else .error (.invalidField ("Role must be 'admin' or 'member', got '" ++ s ++ "'"))

structure AppRegistration where
  slug : String
  displayName : String
  ownerDid : String

structure UserIdentity where
  did : String
  displayName : String

structure TenantCircle where
  slug : String
  displayName : String
  creatorCid : String

structure Membership where
  userCid : String
  tenantCid : String
  role : Role

structure SessionToken where
  userCid : String
  scope : List String
  expiresAt : String
  kid : String

structure Revocation where
  targetCid : String
  reason : String
  actorCid : String

def requireField (body : Json) (field : String) : Except AuthError String :=
  match strField body field with
  | none => .error (.missingField field)
  | some s => .ok s

def requireSlug (body : Json) : Except AuthError String := do
  let slug ← requireField body "slug"
  if slug = "" ∨ slug.toList.contains '/' ∨ slug.toList.contains ' ' then
    throw (.invalidField ("slug must be non-empty, no spaces or slashes: '" ++ slug ++ "'"))
  pure slug

def requireNonempty (body : Json) (field : String) : Except AuthError String := do
  let s ← requireField body field
  if s = "" then throw (.invalidField (field ++ " cannot be empty"))
  pure s

/-- A field that starts with `pre`; `label` stands for it in the message. -/
def requirePrefixed (body : Json) (field label pre : String) : Except AuthError String := do
  let s ← requireField body field
  if ¬ pre.toList.isPrefixOf s.toList then
    throw (.invalidField (label ++ " must start with '" ++ pre ++ "': '" ++ s ++ "'"))
  pure s

def requireCid (body : Json) (field : String) : Except AuthError String :=
  requirePrefixed body field field "b3:"

def AppRegistration.fromChipBody (body : Json) : Except AuthError AppRegistration := do
  let slug ← requireSlug body
  let displayName ← requireNonempty body "display_name"
  let ownerDid ← requirePrefixed body "owner_did" "owner_did" "did:"
  pure ⟨slug, displayName, ownerDid⟩

def UserIdentity.fromChipBody (body : Json) : Except AuthError UserIdentity := do
  let did ← requirePrefixed body "did" "DID" "did:"
  let displayName ← requireNonempty body "display_name"
  pure ⟨did, displayName⟩

def TenantCircle.fromChipBody (body : Json) : Except AuthError TenantCircle := do
  let slug ← requireSlug body
  let displayName ← requireNonempty body "display_name"
  let creatorCid ← requireCid body "creator_cid"
  pure ⟨slug, displayName, creatorCid⟩

def Membership.fromChipBody (body : Json) : Except AuthError Membership := do
  let userCid ← requireCid body "user_cid"
  let tenantCid ← requireCid body "tenant_cid"
  let role ← requireField body "role"
  let role ← Role.parse role
  pure ⟨userCid, tenantCid, role⟩

def SessionToken.fromChipBody (body : Json) : Except AuthError SessionToken := do
  let userCid ← requireCid body "user_cid"
  let scope := match (body.get "scope").bind Json.asArray with
    | some arr => arr.filterMap Json.asStr
    | none => ["read"]
  let expiresAt ← requireField body "expires_at"
  let kid ← requireField body "kid"
  pure ⟨userCid, scope, expiresAt, kid⟩

def SessionToken.isExpired (token : SessionToken) (now : String) : Bool := token.expiresAt < now

def Revocation.fromChipBody (body : Json) : Except AuthError Revocation := do
  let targetCid ← requireCid body "target_cid"
  let reason ← requireField body "reason"
  if reason = "" then throw (.invalidField "reason cannot be empty")
  let actorCid ← requireCid body "actor_cid"
  pure ⟨targetCid, reason, actorCid⟩

/-! ## Worlds -/

structure WorldScope where
  app : String
  tenant : Option String

def WorldScope.parse (world : String) : Except AuthError WorldScope :=
  match splitParts '/' world with
  | a :: app :: rest =>
    if a ≠ "a" then
      .error (.invalidField ("@world must start with 'a/\x7bapp\x7d': '" ++ world ++ "'"))
    else if app = "" then .error (.invalidField "app slug cannot be empty")
    else
      match rest with
      | [] => .ok ⟨app, none⟩
      | t :: tenant :: _ =>
        if t = "t" then
          if tenant = "" then .error (.invalidField "tenant slug cannot be empty")
          else .ok ⟨app, some tenant⟩
        else .error (.invalidField
          ("@world format must be 'a/\x7bapp\x7d' or 'a/\x7bapp\x7d/t/\x7btenant\x7d': '" ++ world ++ "'"))
      | _ => .error (.invalidField
          ("@world format must be 'a/\x7bapp\x7d' or 'a/\x7bapp\x7d/t/\x7btenant\x7d': '" ++ world ++ "'"))
  | _ => .error (.invalidField ("@world must start with 'a/\x7bapp\x7d': '" ++ world ++ "'"))

/-! ## Onboarding chips -/

def ONBOARDING_TYPES : List String :=
  ["ubl/app", "ubl/user", "ubl/tenant", "ubl/membership", "ubl/token", "ubl/revoke"]

def isOnboardingType (chipType : String) : Bool := ONBOARDING_TYPES.contains chipType

inductive OnboardingChip where
  | app (a : AppRegistration)
  | user (u : UserIdentity)
  | tenant (t : TenantCircle)
  | membership (m : Membership)
  | token (t : SessionToken)
  | revoke (r : Revocation)

def parseOnboardingChip (body : Json) : Except AuthError (Option OnboardingChip) :=
  match strField body "@type" with
  | none => .error (.missingField "@type")
  | some chipType =>
    if chipType = "ubl/app" then do
      let app ← AppRegistration.fromChipBody body
      pure (some (.app app))
    else if chipType = "ubl/user" then do
      let user ← UserIdentity.fromChipBody body
      pure (some (.user user))
    else if chipType = "ubl/tenant" then do
      let tenant ← TenantCircle.fromChipBody body
      pure (some (.tenant tenant))
    else if chipType = "ubl/membership" then do
      let membership ← Membership.fromChipBody body
      pure (some (.membership membership))
    else if chipType = "ubl/token" then do
      let token ← SessionToken.fromChipBody body
      pure (some (.token token))
    else if chipType = "ubl/revoke" then do
      let revoke ← Revocation.fromChipBody body
      pure (some (.revoke revoke))
    else .ok none

/-! ## Questions to the store -/

/-- What a check can ask the store, and the errors it may get. -/
structure StoreReader where
  query : ChipQuery → Except ChipStoreError (List StoredChip)
  getChip : String → Except ChipStoreError (Option StoredChip)
  exists_ : String → Except ChipStoreError Bool

/-- Where the reader answers, it answers what the store holds. -/
structure StoreReader.Reads (reader : StoreReader) (store : ChipStore) : Prop where
  query : ∀ q chips, reader.query q = .ok chips → chips = (store.query q).1
  getChip : ∀ cid chip, reader.getChip cid = .ok chip → chip = store.getChip cid
  exists_ : ∀ cid b, reader.exists_ cid = .ok b → b = (store.getChip cid).isSome

/-- The reader of a store that does not fail. -/
def reading (store : ChipStore) : StoreReader where
  query q := .ok (store.query q).1
  getChip cid := .ok (store.getChip cid)
  exists_ cid := .ok (store.getChip cid).isSome

theorem reading_reads (store : ChipStore) : (reading store).Reads store where
  query _ _ h := (Except.ok.inj h).symm
  getChip _ _ h := (Except.ok.inj h).symm
  exists_ _ _ h := (Except.ok.inj h).symm

/-! ## Dependencies -/

inductive AuthValidationError where
  | invalidChip (text : String)
  | dependencyMissing (text : String)
  | internal (text : String)
deriving DecidableEq

section Engine

variable (lib : CapLib) (clock : Clock) (reader : StoreReader)

/-- A question to the store inside a check. -/
def ask {α : Type} (label : String) (answer : Except ChipStoreError α) :
    Except AuthValidationError α :=
  match answer with
  | .error e => .error (.internal (label ++ e.text))
  | .ok a => .ok a

def needCap (label : String) (body : Json) (action world : String) :
    Except AuthValidationError Unit :=
  match requireCap lib clock body action world with
  | .error e => .error (.invalidChip (label ++ e.text))
  | .ok _ => .ok ()

def isRevoked (targetCid : String) : Except AuthValidationError Bool := do
  let revocations ← ask "ChipStore: "
    (reader.query (tagQuery "ubl/revoke" ("target_cid:" ++ targetCid) (some 1)))
  pure (!revocations.isEmpty)

/-- The loop over the apps found under a slug: whether one of them is not revoked. -/
def anyUnrevoked (slug : String) : List StoredChip → Except AuthValidationError Bool
  | [] => .ok false
  | chip :: chips =>
    if strField chip.chipData "slug" = some slug then do
      if ← isRevoked reader chip.cid then anyUnrevoked slug chips else pure true
    else anyUnrevoked slug chips

def requireAppExists (slug : String) : Except AuthValidationError Unit := do
  let apps ← ask "ChipStore: " (reader.query (tagQuery "ubl/app" ("slug:" ++ slug) none))
  if ← anyUnrevoked reader slug apps then pure ()
  else throw (.dependencyMissing ("App '" ++ slug ++ "' not found — register ubl/app first"))

def requireChipExists (cid expectedType : String) : Except AuthValidationError Unit := do
  match ← ask "ChipStore: " (reader.getChip cid) with
  | none => throw (.dependencyMissing (expectedType ++ " '" ++ cid ++ "' not found"))
  | some chip =>
    if chip.chipType ≠ expectedType then
      throw (.invalidChip ("CID '" ++ cid ++ "' is '" ++ chip.chipType ++ "', expected '" ++
        expectedType ++ "'"))
    if ← isRevoked reader cid then
      throw (.dependencyMissing (expectedType ++ " '" ++ cid ++ "' has been revoked"))

def worldScope (world : String) : Except AuthValidationError WorldScope :=
  match WorldScope.parse world with
  | .error e => .error (.invalidChip ("@world: " ++ e.text))
  | .ok scope => .ok scope

/-- The slug of an app must be free. -/
def validateApp (app : AppRegistration) (body : Json) (world : String) :
    Except AuthValidationError Unit := do
  needCap lib clock "ubl/app capability: " body "registry:init" world
  let existing ← ask "ChipStore query: "
    (reader.query (tagQuery "ubl/app" ("slug:" ++ app.slug) none))
  if ← anyUnrevoked reader app.slug existing then
    throw (.invalidChip ("App slug '" ++ app.slug ++ "' already registered"))

/-- The first user of an app needs a capability. -/
def validateUser (body : Json) (world : String) : Except AuthValidationError Unit := do
  let scope ← worldScope world
  requireAppExists reader scope.app
  let users ← ask "ChipStore query: "
    (reader.query (tagQuery "ubl/user" ("app:" ++ scope.app) (some 1)))
  if users.isEmpty then
    needCap lib clock
      ("first ubl/user for app '" ++ scope.app ++ "' requires capability: ") body "registry:init"
      world

def validateRevoke (revoke : Revocation) (body : Json) (world : String) :
    Except AuthValidationError Unit := do
  needCap lib clock "ubl/revoke capability: " body "revoke:execute" world
  let found ← ask "ChipStore: " (reader.exists_ revoke.targetCid)
  if ¬ found then
    throw (.dependencyMissing ("Revoke target '" ++ revoke.targetCid ++ "' not found"))
  requireChipExists reader revoke.actorCid "ubl/user"

def validateOnboardingDependencies (onboarding : OnboardingChip) (body : Json) (world : String) :
    Except AuthValidationError Unit :=
  match onboarding with
  | .app app => validateApp lib clock reader app body world
  | .user _ => validateUser lib clock reader body world
  | .tenant tenant => do
    let scope ← worldScope world
    requireAppExists reader scope.app
    requireChipExists reader tenant.creatorCid "ubl/user"
  | .membership membership => do
    needCap lib clock "ubl/membership capability: " body "membership:grant" world
    requireChipExists reader membership.userCid "ubl/user"
    requireChipExists reader membership.tenantCid "ubl/tenant"
  | .token token => requireChipExists reader token.userCid "ubl/user"
  | .revoke revoke => validateRevoke lib clock reader revoke body world

end Engine

end Ubl.Auth
