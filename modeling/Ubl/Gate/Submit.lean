import Ubl.Gate.Mcp
import Ubl.Pipeline.Authorship
import Ubl.Receipt.RichUrl

/-!
# `chip.rs` of the gate: who may submit a chip

`submitChipBytes` serves three transports.  Over HTTP a chip goes to the pipeline when its bearer
token has a scope to write and a world that covers the one of the chip, or when there is no bearer
token and the policy lets it pass; a WebSocket session is trusted, once its token has a scope to
write.  What is handed over is said exactly, for all that other requests may do between the acts of
this one:

    a chip is handed over  ↔  KNOCK reads it, no limiter stops it, and someone speaks for it
                                                    (post_hands_iff, socket_hands_iff)
    MCP over HTTP hands over what a POST of the chip would          (rpc_hands_iff)

The world of its token does not bound a WebSocket session: it is not in `socket_hands_iff`.
-/

namespace Ubl.Gate

open Chipstore Pipeline
open Ubl.Auth (SessionToken isOnboardingType)
open Ubl.Knock (KnockEnv KnockError F64ImportMode knockWithOptions)
open Ubl.Receipt (Crypto eqIgnoreAsciiCase splitOnce trim)

/-! ## Headers -/

/-- `HeaderValue::to_str` gives a text. -/
def isVisible (value : String) : Bool :=
  value.toList.all fun c => (32 ≤ c.toNat && c.toNat < 127) || c == '\t'

/-- The names are kept in lower case. -/
def headerStr (headers : HeaderMap) (name : String) : Option String :=
  (headers.lookup name).filter isVisible

/-- The scheme and the credentials of `Authorization`. -/
def authorization (headers : HeaderMap) : Option (String × String) :=
  (headerStr headers "authorization").bind (splitOnce ' ')

def extractApiKey (headers : HeaderMap) : Option String :=
  match ((headerStr headers "x-api-key").map trim).filter (· ≠ "") with
  | some key => some key
  | none => do
    let (scheme, token) ← authorization headers
    if eqIgnoreAsciiCase scheme "apikey" || eqIgnoreAsciiCase scheme "api-key" ||
        eqIgnoreAsciiCase scheme "bearer" then (some (trim token)).filter (· ≠ "")
    else none

def parseBearerToken (headers : HeaderMap) : Option String := do
  let (scheme, token) ← authorization headers
  if !eqIgnoreAsciiCase scheme "bearer" || trim token == "" then none else some (trim token)

/-- An address in four parts is known by the first three. -/
def addressFront (address : String) : String :=
  match Nrf.splitParts '.' address with
  | [a, b, c, _] => a ++ "." ++ b ++ "." ++ c ++ ".*"
  | _ => address

def actorHintFromHeaders (c : Crypto) : Option HeaderMap → ActorHint
  | none => ⟨none, none⟩
  | some headers =>
    let forwardedFor := ((headers.lookup "cf-connecting-ip").or
      (headers.lookup "x-forwarded-for")).filter isVisible
    let address := forwardedFor.bind fun v =>
      ((Nrf.splitParts ',' v).head?.map trim).filter (· ≠ "")
    ⟨address.map addressFront, (headerStr headers "user-agent").map fun agent =>
      knockCidFromBytes c (Utf8.utf8 agent)⟩

/-! ## The write policy -/

/-- The codes of `ErrorCode` that a write is refused with. -/
inductive DenyCode where
  | unauthorized
  | policyDenied
deriving DecidableEq

def DenyCode.text : DenyCode → String
  | .unauthorized => "UNAUTHORIZED"
  | .policyDenied => "POLICY_DENIED"

/-- A write that is refused, with the DID of its token if that is known. -/
structure Denial where
  code : DenyCode
  reason : String
  subjectDid : Option String
deriving DecidableEq

structure WriteAccessPolicy where
  authRequired : Bool
  apiKeys : List String
  publicWorlds : List String
  publicTypes : List String

namespace WriteAccessPolicy

variable (policy : WriteAccessPolicy)

def allowsPublicUnauthenticated (chipType world : String) : Bool :=
  isOnboardingType chipType ||
    (policy.publicWorlds.contains world && policy.publicTypes.contains chipType)

def matchesApiKey (headers : Option HeaderMap) : Bool :=
  (headers.bind extractApiKey).any policy.apiKeys.contains

def authorizeWrite (headers : Option HeaderMap) (chipType world : String) : Except Denial Unit :=
  if !policy.authRequired && policy.apiKeys.isEmpty then .ok ()
  else if policy.matchesApiKey headers then .ok ()
  else if policy.allowsPublicUnauthenticated chipType world then .ok ()
  else .error ⟨.unauthorized, "write auth required for @type='" ++ chipType ++ "' @world='" ++
    world ++ "'; provide X-API-Key or use allowed public onboarding lane", none⟩

end WriteAccessPolicy

/-! ## Session tokens -/

/-- `McpWsAuth` with the rest of its fields. -/
structure SessionAuth extends McpWsAuth where
  tokenCid : String
  world : String
  subjectDid : Option String

/-- What a submission gets from outside. -/
structure SubmitOutside where
  now : Int
  tokenFault : Option ChipStoreError
  revokeFault : Option ChipStoreError
  userFault : Option ChipStoreError
  userRevokeFault : Option ChipStoreError
  /-- The answer of the limiter of canonical payloads, where it stops a chip. -/
  limited : Json → Option McpReply

/-- The answer of a store that may fail. -/
def answer {α : Type} (fault : Option ChipStoreError) (f : ChipStore → α) (s : McpState) :
    Except ChipStoreError α :=
  match fault with
  | some e => .error e
  | none => .ok (f s.pipeline.chips)

def lookUp {α : Type} (fault : Option ChipStoreError) (f : ChipStore → α) :
    McpProcess (Except ChipStoreError α) :=
  .reads .readChip fun s => .ok (answer fault f s)

def tokenQuery (tokenId : String) : ChipQuery := tagQuery "ubl/token" ("id:" ++ tokenId) (some 10)

def revokeQuery (cid : String) : ChipQuery :=
  tagQuery "ubl/revoke" ("target_cid:" ++ cid) (some 1)

/-- The token chip of this id among the first that the tag finds. -/
def tokenChipIn (tokenId : String) (store : ChipStore) : Option StoredChip :=
  (store.query (tokenQuery tokenId)).1.find? fun chip =>
    bodyStr chip.chipData "@id" == some tokenId

/-- A query that fails finds no revocation. -/
def revoked (fault : Option ChipStoreError) (cid : String) : McpProcess Bool := do
  match ← lookUp fault (·.query (revokeQuery cid)) with
  | .error _ => pure false
  | .ok (_, totalCount) => pure (decide (0 < totalCount))

/-- The world that a token names. -/
def tokenWorld (tokenChip : StoredChip) : Option String :=
  ((bodyStr tokenChip.chipData "@world").map trim).filter (· ≠ "")

/-- The DID of a user, where it is one. -/
def userDid : Except ChipStoreError (Option StoredChip) → Option String
  | .ok (some chip) => (bodyStr chip.chipData "did").filter isDid
  | _ => none

section Bearer

variable (rfc3339 : String → Except String Int) (out : SubmitOutside)

/-- The rest of the look-up, once the token chip is found. -/
def checkToken (tokenId : String) (tokenChip : StoredChip) :
    McpProcess (Except String (Option SessionAuth)) :=
  match SessionToken.fromChipBody tokenChip.chipData with
  | .error e => pure (.error ("invalid token chip: " ++ e.text))
  | .ok session =>
    match rfc3339 session.expiresAt with
    | .error e => pure (.error ("invalid token expiry: " ++ e))
    | .ok expiresAt =>
      if expiresAt ≤ out.now then pure (.error "token expired")
      else do
        if ← revoked out.revokeFault tokenChip.cid then pure (.error "token revoked")
        else
          match tokenWorld tokenChip with
          | none => pure (.error "token missing @world")
          | some world => do
            let user ← lookUp out.userFault (·.getChip session.userCid)
            if ← revoked out.userRevokeFault session.userCid then
              pure (.error "token user revoked")
            else
              pure (.ok (some ⟨⟨tokenId, session.scope⟩, tokenChip.cid, world, userDid user⟩))

def resolveSessionBearer (headers : HeaderMap) : McpProcess (Except String (Option SessionAuth)) :=
  match parseBearerToken headers with
  | none => pure (.ok none)
  | some tokenId => do
    match ← lookUp out.tokenFault (tokenChipIn tokenId) with
    | .error e => pure (.error ("token query failed: " ++ e.text))
    | .ok none => pure (.error "token not found")
    | .ok (some tokenChip) => checkToken rfc3339 out tokenId tokenChip

end Bearer

/-! ## Submitting -/

/-- What comes of a submission: the pipeline processes the chip, or records why it was refused. -/
structure SubmitHandlers where
  process : ChipRequest → AuthorshipContext → McpProcess McpReply
  /-- The knock CID, the reason code and the reason, and the subject. -/
  knockRejected : String → String → String → String → McpProcess McpReply
  denied : String → Denial → Json → String → McpProcess McpReply

structure SubmitGate where
  policy : WriteAccessPolicy
  crypto : Crypto
  toVec : Json → List UInt8
  rfc3339 : String → Except String Int
  knockEnv : KnockEnv
  /-- `REQUIRE_UNC1_NUMERIC`. -/
  requireUnc1 : Bool
  f64Mode : F64ImportMode

/-- The scopes of which a write takes one. -/
def writeScopes : List String := ["write", "chip:write", "mcp:write"]

def typeOf (value : Json) : String := (bodyStr value "@type").getD ""

def worldOf (value : Json) : String := (bodyStr value "@world").getD ""

/-- What a token says to a chip: the DID it speaks for, or a denial. -/
def authorizeToken (auth : SessionAuth) (value : Json) : Except Denial (Option String) :=
  if !scopeAllowsAny auth.scope writeScopes then
    .error ⟨.policyDenied, "token scope does not allow write", auth.subjectDid⟩
  else if !worldScopeAllows auth.world (worldOf value) then
    .error ⟨.policyDenied, "token world '" ++ auth.world ++ "' does not authorize target world '" ++
      worldOf value ++ "'", auth.subjectDid⟩
  else .ok auth.subjectDid

section Submit

variable (g : SubmitGate) (h : SubmitHandlers) (out : SubmitOutside)

/-- The write policy, for a request that no token speaks for. -/
def authorizeByPolicy (headers : Option HeaderMap) (value : Json) : Except Denial (Option String) :=
  match g.policy.authorizeWrite headers (typeOf value) (worldOf value) with
  | .error denial => .error denial
  | .ok () => .ok none

/-- What the look-up of the token says to a chip. -/
def authorizeResolved (headers : HeaderMap) (value : Json) :
    Except String (Option SessionAuth) → Except Denial (Option String)
  | .ok (some auth) => authorizeToken auth value
  | .ok none => authorizeByPolicy g (some headers) value
  | .error msg => .error ⟨.unauthorized, msg, none⟩

def authorize (headers : Option HeaderMap) (value : Json) :
    McpProcess (Except Denial (Option String)) :=
  match headers with
  | none => pure (authorizeByPolicy g none value)
  | some hs =>
    if (parseBearerToken hs).isSome then do
      let resolved ← resolveSessionBearer g.rfc3339 out hs
      pure (authorizeResolved g hs value resolved)
    else pure (authorizeByPolicy g (some hs) value)

def knock (body : List UInt8) : Except Knock.KnockStop Json :=
  knockWithOptions g.knockEnv body g.requireUnc1 g.f64Mode

/-- What stands before the first colon of the error. -/
def knockReasonCode (e : KnockError) : String :=
  (Nrf.splitParts ':' (e.text g.knockEnv.text)).headD "KNOCK-000"

def createRequest (value : Json) : ChipRequest := ⟨typeOf value, value, [], some "create"⟩

/-- The author of a chip: the one its token speaks for, or the one it names itself. -/
def contextOf (headers : Option HeaderMap) (body : List UInt8) (value : Json)
    (tokenDid : Option String) : AuthorshipContext :=
  ⟨some (tokenDid.getD (resolveSubjectDid g.crypto g.toVec (some value)
    (actorHintFromHeaders g.crypto headers))), some (knockCidFromBytes g.crypto body)⟩

def submitChipBytes (headers : Option HeaderMap) (trustedWrite : Bool) (body : List UInt8) :
    McpProcess McpReply :=
  let knockCid := knockCidFromBytes g.crypto body
  let hint := actorHintFromHeaders g.crypto headers
  match knock g body with
  | .error .panic => .fail .panic
  | .error (.error e) =>
    h.knockRejected knockCid (knockReasonCode g e) (e.text g.knockEnv.text)
      (resolveSubjectDid g.crypto g.toVec none hint)
  | .ok value => do
    match ← (if trustedWrite then pure (.ok none) else authorize g out headers value) with
    | .error denial =>
      h.denied knockCid denial value (denial.subjectDid.getD
        (resolveSubjectDid g.crypto g.toVec (some value) hint))
    | .ok tokenDid =>
      match out.limited value with
      | some reply => pure reply
      | none => h.process (createRequest value) (contextOf g headers body value tokenDid)

end Submit

/-! ## What a look-up may find -/

section LookUp

variable {R : McpState → Prop} {out : SubmitOutside}

theorem mayReturn_lookUp {α : Type} {fault : Option ChipStoreError} {f : ChipStore → α}
    {a : Except ChipStoreError α} : (lookUp fault f).MayReturn (fun _ => R) a ↔
      ∃ s, R s ∧ answer fault f s = a := by
  rw [lookUp, Prog.mayReturn_reads]
  simp only [Except.ok.injEq]

/-- No act of a look-up submits a chip. -/
theorem acts_lookUp {α : Type} (fault : Option ChipStoreError) (f : ChipStore → α) :
    (lookUp fault f).Acts fun label _ _ => label ≠ .submit :=
  Prog.acts_atomic fun _ => nofun

theorem acts_revoked (fault : Option ChipStoreError) (cid : String) :
    (revoked fault cid).Acts fun label _ _ => label ≠ .submit := by
  refine (acts_lookUp _ _).bind fun result => ?_
  rcases result with e | ⟨chips, totalCount⟩ <;> exact acts_pure _

theorem acts_resolveSessionBearer (rfc3339 : String → Except String Int) (headers : HeaderMap) :
    (resolveSessionBearer rfc3339 out headers).Acts fun label _ _ => label ≠ .submit := by
  unfold resolveSessionBearer
  split
  · exact acts_pure _
  · refine (acts_lookUp _ _).bind fun chip => ?_
    rcases chip with e | _ | tokenChip
    · exact acts_pure _
    · exact acts_pure _
    · dsimp only
      unfold checkToken
      split
      · exact acts_pure _
      · split
        · exact acts_pure _
        · split_ifs
          · exact acts_pure _
          · refine (acts_revoked _ _).bind fun isRevoked => ?_
            cases isRevoked
            · rw [if_neg Bool.false_ne_true]
              split
              · exact acts_pure _
              · refine (acts_lookUp _ _).bind fun user => ?_
                refine (acts_revoked _ _).bind fun userRevoked => ?_
                cases userRevoked <;> exact acts_pure _
            · exact acts_pure _

/-- A revocation is not found: the query fails, or there is none. -/
def MayPass (R : McpState → Prop) (fault : Option ChipStoreError) (cid : String) : Prop :=
  ∃ s, R s ∧ (fault.isSome ∨ (s.pipeline.chips.query (revokeQuery cid)).2 = 0)

theorem mayReturn_revoked {fault : Option ChipStoreError} {cid : String} :
    (revoked fault cid).MayReturn (fun _ => R) false ↔ MayPass R fault cid := by
  rw [revoked, Prog.mayReturn_bind]
  constructor
  · rintro ⟨result, hresult, hfalse⟩
    obtain ⟨s, hs, rfl⟩ := mayReturn_lookUp.mp hresult
    refine ⟨s, hs, ?_⟩
    cases fault with
    | some e => exact .inl rfl
    | none =>
      have hzero : decide (0 < (s.pipeline.chips.query (revokeQuery cid)).2) = false := hfalse
      exact .inr (Nat.eq_zero_of_not_pos (of_decide_eq_false hzero))
  · rintro ⟨s, hs, hpass⟩
    refine ⟨_, mayReturn_lookUp.mpr ⟨s, hs, rfl⟩, ?_⟩
    cases fault with
    | some e => rfl
    | none =>
      have hzero := hpass.resolve_left (by simp)
      change decide (0 < (s.pipeline.chips.query (revokeQuery cid)).2) = false
      rw [hzero]
      rfl

/-- What a token is accepted on: it is found under its id and has not expired, and no revocation
of it or of its user is found. -/
def Accepts (rfc3339 : String → Except String Int) (out : SubmitOutside) (R : McpState → Prop)
    (headers : HeaderMap) (auth : SessionAuth) : Prop :=
  ∃ tokenId tokenChip session expiresAt world,
    parseBearerToken headers = some tokenId ∧
    (∃ s, R s ∧ answer out.tokenFault (tokenChipIn tokenId) s = .ok (some tokenChip)) ∧
    SessionToken.fromChipBody tokenChip.chipData = .ok session ∧
    rfc3339 session.expiresAt = .ok expiresAt ∧ out.now < expiresAt ∧
    MayPass R out.revokeFault tokenChip.cid ∧
    tokenWorld tokenChip = some world ∧
    MayPass R out.userRevokeFault session.userCid ∧
    ∃ s, R s ∧ auth = ⟨⟨tokenId, session.scope⟩, tokenChip.cid, world,
      userDid (answer out.userFault (·.getChip session.userCid) s)⟩

theorem mayReturn_checkToken {rfc3339 : String → Except String Int} {tokenId : String}
    {tokenChip : StoredChip} {auth : SessionAuth} :
    (checkToken rfc3339 out tokenId tokenChip).MayReturn (fun _ => R) (.ok (some auth)) ↔
      ∃ session expiresAt world, SessionToken.fromChipBody tokenChip.chipData = .ok session ∧
        rfc3339 session.expiresAt = .ok expiresAt ∧ out.now < expiresAt ∧
        MayPass R out.revokeFault tokenChip.cid ∧ tokenWorld tokenChip = some world ∧
        MayPass R out.userRevokeFault session.userCid ∧
        ∃ s, R s ∧ auth = ⟨⟨tokenId, session.scope⟩, tokenChip.cid, world,
          userDid (answer out.userFault (·.getChip session.userCid) s)⟩ := by
  unfold checkToken
  cases hsession : SessionToken.fromChipBody tokenChip.chipData with
  | error e => simp
  | ok session =>
    dsimp only
    cases hexpires : rfc3339 session.expiresAt with
    | error e => simp [hexpires]
    | ok expiresAt =>
      dsimp only
      by_cases hnow : expiresAt ≤ out.now
      · simp [hexpires, hnow]
      rw [if_neg hnow, Prog.mayReturn_bind]
      constructor
      · rintro ⟨isRevoked, hrevoked, h⟩
        cases isRevoked with
        | true => cases h
        | false =>
          rw [if_neg Bool.false_ne_true] at h
          cases hworld : tokenWorld tokenChip with
          | none => rw [hworld] at h; cases h
          | some world =>
            rw [hworld] at h
            obtain ⟨user, huser, h⟩ := Prog.mayReturn_bind.mp h
            obtain ⟨s, hs, rfl⟩ := mayReturn_lookUp.mp huser
            obtain ⟨userRevoked, huserRevoked, h⟩ := Prog.mayReturn_bind.mp h
            cases userRevoked with
            | true => cases h
            | false =>
              rw [if_neg Bool.false_ne_true] at h
              obtain rfl := Option.some.inj (Except.ok.inj h)
              exact ⟨session, expiresAt, world, rfl, hexpires, not_le.mp hnow,
                mayReturn_revoked.mp hrevoked, rfl, mayReturn_revoked.mp huserRevoked, s, hs, rfl⟩
      · rintro ⟨session', expiresAt', world, hsession', hexpires', -, hrevoked, hworld, huserRevoked,
          s, hs, rfl⟩
        obtain rfl := Except.ok.inj hsession'
        refine ⟨false, mayReturn_revoked.mpr hrevoked, ?_⟩
        rw [if_neg Bool.false_ne_true, hworld]
        refine Prog.mayReturn_bind.mpr ⟨_, mayReturn_lookUp.mpr ⟨s, hs, rfl⟩, ?_⟩
        exact Prog.mayReturn_bind.mpr ⟨false, mayReturn_revoked.mpr huserRevoked, rfl⟩

theorem mayReturn_resolveSessionBearer {rfc3339 : String → Except String Int}
    {headers : HeaderMap} {auth : SessionAuth} :
    (resolveSessionBearer rfc3339 out headers).MayReturn (fun _ => R) (.ok (some auth)) ↔
      Accepts rfc3339 out R headers auth := by
  unfold resolveSessionBearer Accepts
  cases htoken : parseBearerToken headers with
  | none => simp
  | some tokenId =>
    dsimp only
    rw [Prog.mayReturn_bind]
    constructor
    · rintro ⟨result, hresult, h⟩
      obtain ⟨s, hs, hfound⟩ := mayReturn_lookUp.mp hresult
      rcases result with e | _ | tokenChip
      · cases h
      · cases h
      · obtain ⟨session, expiresAt, world, h⟩ := mayReturn_checkToken.mp h
        exact ⟨tokenId, tokenChip, session, expiresAt, world, rfl, ⟨s, hs, hfound⟩, h⟩
    · rintro ⟨tokenId', tokenChip, session, expiresAt, world, htoken', ⟨s, hs, hfound⟩, h⟩
      obtain rfl := Option.some.inj htoken'
      exact ⟨_, mayReturn_lookUp.mpr ⟨s, hs, hfound⟩,
        mayReturn_checkToken.mpr ⟨session, expiresAt, world, h⟩⟩

end LookUp

/-! ## What is handed over -/

/-- A pipeline that shows itself where it gets a chip of this kind. -/
def watching (p : ChipRequest → AuthorshipContext → Bool) : SubmitHandlers where
  process request ctx :=
    if p request ctx then do
      Prog.modify .submit id
      pure (200, .null)
    else pure (200, .null)
  knockRejected _ _ _ _ := pure (422, .null)
  denied _ _ _ _ := pure (403, .null)

/-- The call may hand such a chip to the pipeline, where each act is from a state with `R`. -/
def HandsOver {α : Type} (R : McpState → Prop) (call : SubmitHandlers → McpProcess α)
    (p : ChipRequest → AuthorshipContext → Bool) : Prop :=
  (call (watching p)).MayAct (fun _ => R) (· = .submit)

theorem mayAct_watching {R : McpState → Prop} (hR : ∃ s, R s)
    {p : ChipRequest → AuthorshipContext → Bool} {request : ChipRequest} {ctx : AuthorshipContext} :
    ((watching p).process request ctx).MayAct (fun _ => R) (· = .submit) ↔ p request ctx := by
  unfold watching
  dsimp only
  split_ifs with hp
  · obtain ⟨s, hs⟩ := hR
    exact ⟨fun _ => hp, fun _ => ⟨s, hs, .inl rfl⟩⟩
  · exact ⟨False.elim, fun h => absurd h hp⟩

section HandsOver

variable {g : SubmitGate} {out : SubmitOutside} {R : McpState → Prop} {headers : HeaderMap}
  {value : Json} {tokenDid : Option String} {p : ChipRequest → AuthorshipContext → Bool}

/-- Who speaks for a chip over HTTP: its token, or the policy where there is none. -/
def Speaks (g : SubmitGate) (out : SubmitOutside) (R : McpState → Prop) (headers : HeaderMap)
    (value : Json) (tokenDid : Option String) : Prop :=
  if (parseBearerToken headers).isSome then
    ∃ auth, Accepts g.rfc3339 out R headers auth ∧ scopeAllowsAny auth.scope writeScopes ∧
      worldScopeAllows auth.world (worldOf value) ∧ tokenDid = auth.subjectDid
  else
    g.policy.authorizeWrite (some headers) (typeOf value) (worldOf value) = .ok () ∧ tokenDid = none

theorem authorizeToken_eq_ok {auth : SessionAuth} : authorizeToken auth value = .ok tokenDid ↔
    scopeAllowsAny auth.scope writeScopes ∧ worldScopeAllows auth.world (worldOf value) ∧
      tokenDid = auth.subjectDid := by
  unfold authorizeToken
  split_ifs with hscope hworld
  · exact ⟨nofun, fun h => absurd h.1 (by simpa using hscope)⟩
  · exact ⟨nofun, fun h => absurd h.2.1 (by simpa using hworld)⟩
  · have hscope : scopeAllowsAny auth.scope writeScopes = true := by simpa using hscope
    have hworld : worldScopeAllows auth.world (worldOf value) = true := by simpa using hworld
    exact ⟨fun h => ⟨hscope, hworld, (Except.ok.inj h).symm⟩, fun h => congrArg Except.ok h.2.2.symm⟩

theorem authorizeByPolicy_eq_ok {headers : Option HeaderMap} :
    authorizeByPolicy g headers value = .ok tokenDid ↔
      g.policy.authorizeWrite headers (typeOf value) (worldOf value) = .ok () ∧
        tokenDid = none := by
  unfold authorizeByPolicy
  cases g.policy.authorizeWrite headers (typeOf value) (worldOf value) with
  | error denial => exact ⟨nofun, nofun⟩
  | ok u => exact ⟨fun h => ⟨rfl, (Except.ok.inj h).symm⟩, fun h => congrArg Except.ok h.2.symm⟩

/-- A token that is looked up is there. -/
theorem not_mayReturn_none (h : (parseBearerToken headers).isSome) :
    ¬ (resolveSessionBearer g.rfc3339 out headers).MayReturn (fun _ => R) (.ok none) := by
  obtain ⟨tokenId, htoken⟩ := Option.isSome_iff_exists.mp h
  unfold resolveSessionBearer
  rw [htoken]
  intro hmay
  obtain ⟨result, -, hmay⟩ := Prog.mayReturn_bind.mp hmay
  rcases result with e | _ | tokenChip
  · cases hmay
  · cases hmay
  · change (checkToken _ _ _ _).MayReturn _ _ at hmay
    unfold checkToken at hmay
    split at hmay
    · cases hmay
    · split at hmay
      · cases hmay
      · split_ifs at hmay
        · cases hmay
        · obtain ⟨isRevoked, -, hmay⟩ := Prog.mayReturn_bind.mp hmay
          split_ifs at hmay
          · cases hmay
          · split at hmay
            · cases hmay
            · obtain ⟨user, -, hmay⟩ := Prog.mayReturn_bind.mp hmay
              obtain ⟨userRevoked, -, hmay⟩ := Prog.mayReturn_bind.mp hmay
              split_ifs at hmay <;> cases hmay

theorem mayReturn_authorize : (authorize g out (some headers) value).MayReturn (fun _ => R)
    (.ok tokenDid) ↔ Speaks g out R headers value tokenDid := by
  unfold authorize Speaks
  dsimp only
  split_ifs with htoken
  · rw [Prog.mayReturn_bind]
    constructor
    · rintro ⟨resolved, hresolved, h⟩
      have h : authorizeResolved g headers value resolved = .ok tokenDid := h
      rcases resolved with msg | _ | auth
      · cases h
      · exact absurd hresolved (not_mayReturn_none htoken)
      · exact ⟨auth, mayReturn_resolveSessionBearer.mp hresolved, authorizeToken_eq_ok.mp h⟩
    · rintro ⟨auth, haccepts, h⟩
      exact ⟨_, mayReturn_resolveSessionBearer.mpr haccepts, authorizeToken_eq_ok.mpr h⟩
  · exact authorizeByPolicy_eq_ok

theorem acts_authorize (headers : Option HeaderMap) :
    (authorize g out headers value).Acts fun label _ _ => label ≠ .submit := by
  unfold authorize
  split
  · exact acts_pure _
  · split_ifs
    · exact (acts_resolveSessionBearer _ _).bind fun _ => acts_pure _
    · exact acts_pure _

/-- What is left once someone speaks for the chip. -/
theorem handsOver_iff (hR : ∃ s, R s) {headers : Option HeaderMap} {trusted : Bool}
    {body : List UInt8} :
    HandsOver R (fun h => submitChipBytes g h out headers trusted body) p ↔
      ∃ value tokenDid, knock g body = .ok value ∧ out.limited value = none ∧
        (if trusted then pure (.ok none) else authorize g out headers value :
          McpProcess (Except Denial (Option String))).MayReturn (fun _ => R) (.ok tokenDid) ∧
        p (createRequest value) (contextOf g headers body value tokenDid) := by
  unfold HandsOver submitChipBytes
  cases hknock : knock g body with
  | error stop => cases stop <;> simp [watching]
  | ok value =>
    dsimp only
    rw [Prog.mayAct_bind]
    have hquiet : ¬ (if trusted then pure (.ok none) else authorize g out headers value :
        McpProcess (Except Denial (Option String))).MayAct (fun _ => R) (· = .submit) := by
      refine Prog.Acts.not_mayAct ?_
      split_ifs
      · exact acts_pure _
      · exact acts_authorize _
    constructor
    · intro h
      obtain ⟨verdict, hverdict, h⟩ := h.resolve_left hquiet
      rcases verdict with denial | tokenDid
      · cases h
      · dsimp only at h
        cases hlimited : out.limited value with
        | some reply => rw [hlimited] at h; cases h
        | none =>
          rw [hlimited] at h
          exact ⟨value, tokenDid, rfl, hlimited, hverdict, (mayAct_watching hR).mp h⟩
    · rintro ⟨value', tokenDid, hvalue, hlimited, hverdict, hp⟩
      obtain rfl := Except.ok.inj hvalue
      refine .inr ⟨_, hverdict, ?_⟩
      dsimp only
      rw [hlimited]
      exact (mayAct_watching hR).mpr hp

end HandsOver

/-- A POST hands over what KNOCK reads, where no limiter stops it and someone speaks for it. -/
theorem post_hands_iff (g : SubmitGate) (out : SubmitOutside) (R : McpState → Prop)
    (hR : ∃ s, R s) (headers : HeaderMap) (body : List UInt8)
    (p : ChipRequest → AuthorshipContext → Bool) :
    HandsOver R (fun h => submitChipBytes g h out (some headers) false body) p ↔
      ∃ value tokenDid, knock g body = .ok value ∧ out.limited value = none ∧
        Speaks g out R headers value tokenDid ∧
        p (createRequest value) (contextOf g (some headers) body value tokenDid) := by
  rw [handsOver_iff hR]
  simp only [Bool.false_eq_true, if_false, mayReturn_authorize]

/-! ## Submissions over MCP -/

/-- The server, with this as the way its tools submit a chip. -/
def withSubmissions (mcp : McpGate) (g : SubmitGate) (h : SubmitHandlers) (out : SubmitOutside) :
    McpGate :=
  { mcp with submitChipBytes := submitChipBytes g h out }

def rpcParams (rpc : Json) : Json := (rpc.get "params").getD (.object [])

def rpcArguments (rpc : Json) : Json := ((rpcParams rpc).get "arguments").getD (.object [])

/-- The chip of a call of the tool that delivers. -/
def deliveredChip (rpc : Json) : Json := ((rpcArguments rpc).get "chip").getD (.object [])

/-- The call is one of the tool that delivers. -/
def IsDelivery (rpc : Json) : Prop :=
  strField rpc "jsonrpc" = some "2.0" ∧ argStr rpc "method" = "tools/call" ∧
    canonicalToolName (argStr (rpcParams rpc) "name") = "ubl.deliver"

section Mcp

variable {mcp : McpGate} {mcpOut : McpOutside} {R : McpState → Prop}
  {headers : Option HeaderMap} {wsAuth : Option McpWsAuth} {arguments id : Json}

theorem mayAct_deliver {trusted : Bool} :
    (deliver mcp headers trusted arguments id).MayAct (fun _ => R) (· = .submit) ↔
      (mcp.submitChipBytes headers trusted
        (mcp.vm.toVec ((arguments.get "chip").getD (.object [])))).MayAct (fun _ => R)
          (· = .submit) := by
  unfold deliver
  rw [Prog.mayAct_bind, or_iff_left_iff_imp]
  rintro ⟨⟨status, payload⟩, -, h⟩
  dsimp only at h
  split_ifs at h <;> exact h.elim

/-- The call under its deadline. -/
def withDeadline (deadline : Option Nat) (id : Json) (call : McpProcess McpReply) :
    McpProcess McpReply :=
  match deadline with
  | none => call
  | some n => do
    match ← call.within n with
    | some reply => pure reply
    | none => pure (200, mcpErrorValue id (-32000) "Tool call timed out (30s limit)"
        (some (.object [("timeout_seconds", .number (.posInt 30))])))

/-- A deadline only takes acts away. -/
theorem mayAct_of_withDeadline {deadline : Option Nat} {call : McpProcess McpReply}
    (h : (withDeadline deadline id call).MayAct (fun _ => R) (· = .submit)) :
    call.MayAct (fun _ => R) (· = .submit) := by
  cases deadline with
  | none => exact h
  | some n =>
    rcases Prog.mayAct_bind.mp h with h | ⟨reply, -, h⟩
    · exact h.of_within
    · cases reply <;> exact h.elim

/-- No other tool submits. -/
theorem mayAct_dispatchToolCall {toolName : String} {deadline : Option Nat} :
    (withDeadline deadline id (dispatchToolCall mcp mcpOut toolName arguments id headers
        wsAuth)).MayAct (fun _ => R) (· = .submit) ↔
      canonicalToolName toolName = "ubl.deliver" ∧ (withDeadline deadline id
        (deliver mcp headers wsAuth.isSome arguments id)).MayAct (fun _ => R) (· = .submit) := by
  by_cases hname : canonicalToolName toolName = "ubl.deliver"
  · rw [dispatchToolCall, if_pos hname, and_iff_right hname]
  · refine iff_of_false (fun h => ?_) fun h => hname h.1
    exact Prog.Acts.not_mayAct (acts_dispatch_of_ne_deliver (fun _ _ h => h) hname
      (fun _ => .inr fun _ _ => nofun) _ _ _) (mayAct_of_withDeadline h)

section Handle

variable {rpc : Json}

/-- Of the methods, `tools/call` alone submits. -/
theorem mayAct_handleMcpRpcRequest :
    (handleMcpRpcRequest mcp mcpOut rpc headers wsAuth).MayAct (fun _ => R) (· = .submit) ↔
      strField rpc "jsonrpc" = some "2.0" ∧ argStr rpc "method" = "tools/call" ∧
        (toolsCall mcp mcpOut (rpcParams rpc) ((rpc.get "id").getD .null) headers wsAuth).MayAct
          (fun _ => R) (· = .submit) := by
  unfold handleMcpRpcRequest
  dsimp only
  split_ifs with hversion hlist hcall
  · exact iff_of_false id fun h => hversion h.1
  · exact iff_of_false id fun h => absurd (hlist.symm.trans h.2.1) (by decide)
  · rw [and_iff_right (not_not.mp hversion), and_iff_right hcall]
    rfl
  · exact iff_of_false id fun h => hcall h.2.1

/-- Over HTTP. -/
theorem mayAct_handle_http :
    (handleMcpRpcRequest mcp mcpOut rpc headers none).MayAct (fun _ => R) (· = .submit) ↔
      IsDelivery rpc ∧ (withDeadline mcpOut.deadline ((rpc.get "id").getD .null)
        (deliver mcp headers false (rpcArguments rpc) ((rpc.get "id").getD .null))).MayAct
          (fun _ => R) (· = .submit) := by
  rw [mayAct_handleMcpRpcRequest, IsDelivery, and_assoc, and_assoc]
  exact and_congr_right fun _ => and_congr_right fun _ => mayAct_dispatchToolCall

/-- A write over a socket needs the scope, and a bucket that is not full. -/
theorem mayAct_handle_socket {auth : McpWsAuth} :
    (handleMcpRpcRequest mcp mcpOut rpc headers (some auth)).MayAct (fun _ => R) (· = .submit) ↔
      IsDelivery rpc ∧ mcpScopeAllowsWrite auth ∧
        (∃ s, R s ∧ (checkTokenBucket mcp.perMinute mcpOut.now auth.tokenId s.buckets).1 = none) ∧
        (withDeadline mcpOut.deadline ((rpc.get "id").getD .null)
          (deliver mcp headers true (rpcArguments rpc) ((rpc.get "id").getD .null))).MayAct
            (fun _ => R) (· = .submit) := by
  rw [mayAct_handleMcpRpcRequest, IsDelivery, and_assoc, and_assoc]
  refine and_congr_right fun _ => and_congr_right fun _ => ?_
  unfold toolsCall
  rw [Prog.mayAct_bind]
  have hdispatch := @mayAct_dispatchToolCall mcp mcpOut R headers (some auth) (rpcArguments rpc)
    ((rpc.get "id").getD .null) (argStr (rpcParams rpc) "name") mcpOut.deadline
  constructor
  · rintro (h | ⟨limited, hlimited, h⟩)
    · exact (Prog.Acts.not_mayAct (Prog.acts_atomic fun _ => nofun) h).elim
    obtain ⟨s, hs, hbucket⟩ := Prog.mayReturn_atomic.mp hlimited
    cases limited with
    | some retryAfter => exact h.elim
    | none =>
      dsimp only at h
      split_ifs at h with hscope
      · exact h.elim
      obtain ⟨hname, h⟩ := hdispatch.mp h
      have hwrites : isWriteToolCall (argStr (rpcParams rpc) "name") (rpcArguments rpc) = true :=
        if_pos hname
      refine ⟨hname, ?_, ⟨s, hs, Except.ok.inj hbucket⟩, h⟩
      rw [rpcArguments] at hwrites
      rw [hwrites, Bool.true_and] at hscope
      simpa using hscope
  · rintro ⟨hname, hscope, ⟨s, hs, hbucket⟩, h⟩
    refine .inr ⟨none, Prog.mayReturn_atomic.mpr ⟨s, hs, congrArg Except.ok hbucket⟩, ?_⟩
    dsimp only
    rw [if_neg (by simp [hscope])]
    exact hdispatch.mpr ⟨hname, h⟩

end Handle

end Mcp

theorem handsOver_of_http {mcp : McpGate} {mcpOut : McpOutside} {g : SubmitGate}
    {out : SubmitOutside} {R : McpState → Prop} {rpc : Json} {headers : Option HeaderMap}
    {p : ChipRequest → AuthorshipContext → Bool}
    (h : HandsOver R (fun h => handleMcpRpcRequest (withSubmissions mcp g h out) mcpOut rpc headers
      none) p) :
    IsDelivery rpc ∧ HandsOver R (fun h => submitChipBytes g h out headers false
      (mcp.vm.toVec (deliveredChip rpc))) p := by
  unfold HandsOver at h ⊢
  obtain ⟨hrpc, h⟩ := mayAct_handle_http.mp h
  exact ⟨hrpc, mayAct_deliver.mp (mayAct_of_withDeadline h)⟩

/-- MCP over HTTP hands over what a POST of the chip would, if it is in time. -/
theorem rpc_hands_iff (mcp : McpGate) (mcpOut : McpOutside) (g : SubmitGate) (out : SubmitOutside)
    (R : McpState → Prop) (rpc : Json) (headers : Option HeaderMap)
    (p : ChipRequest → AuthorshipContext → Bool) :
    (HandsOver R (fun h => handleMcpRpcRequest (withSubmissions mcp g h out) mcpOut rpc headers none)
        p → IsDelivery rpc ∧ HandsOver R (fun h => submitChipBytes g h out headers false
          (mcp.vm.toVec (deliveredChip rpc))) p) ∧
      (mcpOut.deadline = none → IsDelivery rpc →
        HandsOver R (fun h => submitChipBytes g h out headers false
          (mcp.vm.toVec (deliveredChip rpc))) p →
        HandsOver R (fun h => handleMcpRpcRequest (withSubmissions mcp g h out) mcpOut rpc headers
          none) p) := by
  refine ⟨handsOver_of_http, fun hdeadline hrpc h => ?_⟩
  unfold HandsOver at h ⊢
  refine mayAct_handle_http.mpr ⟨hrpc, ?_⟩
  rw [hdeadline]
  exact mayAct_deliver.mpr h

/-- A trusted submission looks nothing up before it comes to the pipeline. -/
theorem begins_submitChipBytes (g : SubmitGate) (out : SubmitOutside)
    (p : ChipRequest → AuthorshipContext → Bool) (body : List UInt8) :
    (submitChipBytes g (watching p) out none true body).Begins (· = .submit) := by
  unfold submitChipBytes
  split
  · trivial
  · trivial
  · next value _ =>
    change (match out.limited value with
      | some reply => pure reply
      | none => (watching p).process (createRequest value) (contextOf g none body value none) :
        McpProcess McpReply).Begins _
    cases out.limited value with
    | some reply => trivial
    | none =>
      unfold watching
      dsimp only
      split_ifs
      · exact rfl
      · trivial

theorem begins_deliver (mcp : McpGate) (g : SubmitGate) (out : SubmitOutside)
    (p : ChipRequest → AuthorshipContext → Bool) (arguments id : Json) :
    (deliver (withSubmissions mcp g (watching p) out) none true arguments id).Begins
      (· = .submit) := by
  refine (begins_submitChipBytes g out p _).bind fun reply => ?_
  dsimp only
  split_ifs <;> trivial

/-- A call over a socket hands this chip over. -/
structure SocketDelivers (mcp : McpGate) (mcpOut : McpOutside) (g : SubmitGate) (out : SubmitOutside)
    (R : McpState → Prop) (rpc : Json) (auth : McpWsAuth) (value : Json) : Prop where
  delivery : IsDelivery rpc
  scope : mcpScopeAllowsWrite auth
  bucket : ∃ s, R s ∧ (checkTokenBucket mcp.perMinute mcpOut.now auth.tokenId s.buckets).1 = none
  deadline : mcpOut.deadline ≠ some 0
  knocked : knock g (mcp.vm.toVec (deliveredChip rpc)) = .ok value
  unlimited : out.limited value = none

theorem handsOver_socket_iff {mcp : McpGate} {mcpOut : McpOutside} {g : SubmitGate}
    {out : SubmitOutside} {R : McpState → Prop} (hR : ∃ s, R s) {rpc : Json} {auth : McpWsAuth}
    {p : ChipRequest → AuthorshipContext → Bool} :
    HandsOver R (fun h => handleMcpRpcRequest (withSubmissions mcp g h out) mcpOut rpc none
        (some auth)) p ↔
      ∃ value, SocketDelivers mcp mcpOut g out R rpc auth value ∧ p (createRequest value)
        (contextOf g none (mcp.vm.toVec (deliveredChip rpc)) value none) := by
  have hsubmit : HandsOver R (fun h => submitChipBytes g h out none true
      (mcp.vm.toVec (deliveredChip rpc))) p ↔
      ∃ value, knock g (mcp.vm.toVec (deliveredChip rpc)) = .ok value ∧
        out.limited value = none ∧ p (createRequest value)
          (contextOf g none (mcp.vm.toVec (deliveredChip rpc)) value none) := by
    rw [handsOver_iff hR]
    simp
  have htime : (withDeadline mcpOut.deadline ((rpc.get "id").getD .null)
      (deliver (withSubmissions mcp g (watching p) out) none true (rpcArguments rpc)
        ((rpc.get "id").getD .null))).MayAct (fun _ => R) (· = .submit) ↔
      mcpOut.deadline ≠ some 0 ∧ HandsOver R (fun h => submitChipBytes g h out none true
        (mcp.vm.toVec (deliveredChip rpc))) p := by
    cases hdeadline : mcpOut.deadline with
    | none => exact mayAct_deliver.trans (and_iff_right nofun).symm
    | some n =>
      have hbegins := begins_deliver mcp g out p (rpcArguments rpc) ((rpc.get "id").getD .null)
      have hin : (withDeadline (some n) ((rpc.get "id").getD .null)
          (deliver (withSubmissions mcp g (watching p) out) none true (rpcArguments rpc)
            ((rpc.get "id").getD .null))).MayAct (fun _ => R) (· = .submit) ↔
          ((deliver (withSubmissions mcp g (watching p) out) none true (rpcArguments rpc)
            ((rpc.get "id").getD .null)).within n).MayAct (fun _ => R) (· = .submit) := by
        refine Prog.mayAct_bind.trans (or_iff_left ?_)
        rintro ⟨reply, -, h⟩
        cases reply <;> exact h.elim
      rw [hin]
      cases n with
      | zero => exact iff_of_false Prog.not_mayAct_within_zero fun h => h.1 rfl
      | succ n =>
        rw [hbegins.mayAct_within, mayAct_deliver, and_iff_right (by simp)]
        exact Iff.rfl
  rw [HandsOver, mayAct_handle_socket, htime, hsubmit]
  constructor
  · rintro ⟨hdelivery, hscope, hbucket, hdeadline, value, hknocked, hunlimited, hp⟩
    exact ⟨value, ⟨hdelivery, hscope, hbucket, hdeadline, hknocked, hunlimited⟩, hp⟩
  · rintro ⟨value, h, hp⟩
    exact ⟨h.delivery, h.scope, h.bucket, h.deadline, value, h.knocked, h.unlimited, hp⟩

/-- The world of the token plays no part here, and neither does a revocation since the session
began. -/
theorem socket_hands_iff (mcp : McpGate) (mcpOut : McpOutside) (g : SubmitGate)
    (out : SubmitOutside) (R : McpState → Prop) (hR : ∃ s, R s) (rpc : Json) (auth : McpWsAuth)
    (p : ChipRequest → AuthorshipContext → Bool) :
    HandsOver R (fun h => handleMcpRpcRequest (withSubmissions mcp g h out) mcpOut rpc none
        (some auth)) p ↔
      IsDelivery rpc ∧ mcpScopeAllowsWrite auth ∧
        (∃ s, R s ∧ (checkTokenBucket mcp.perMinute mcpOut.now auth.tokenId s.buckets).1 = none) ∧
        mcpOut.deadline ≠ some 0 ∧
        ∃ value, knock g (mcp.vm.toVec (deliveredChip rpc)) = .ok value ∧
          out.limited value = none ∧
          p (createRequest value)
            (contextOf g none (mcp.vm.toVec (deliveredChip rpc)) value none) := by
  rw [handsOver_socket_iff hR]
  constructor
  · rintro ⟨value, h, hp⟩
    exact ⟨h.delivery, h.scope, h.bucket, h.deadline, value, h.knocked, h.unlimited, hp⟩
  · rintro ⟨hdelivery, hscope, hbucket, hdeadline, value, hknocked, hunlimited, hp⟩
    exact ⟨value, ⟨hdelivery, hscope, hbucket, hdeadline, hknocked, hunlimited⟩, hp⟩

/-! ## Revocations -/

section Revocations

variable {lib : StoreLib} {R : McpState → Prop}

/-- In a store that answers, a revocation is found if it is indexed. -/
theorem mayPass_iff (hindexed : ∀ s, R s → ∀ put ∈ s.pipeline.chips, put.indexed = true)
    (htagged : ∀ s, R s → ∀ put ∈ s.pipeline.chips, put.chip.Tagged lib)
    {fault : Option ChipStoreError} {cid : String} : MayPass R fault cid ↔
      ∃ s, R s ∧ (fault.isSome ∨
        s.pipeline.chips.holders "ubl/revoke" "target_cid" cid = []) := by
  refine exists_congr fun s => and_congr_right fun hs => ?_
  have hcount : (s.pipeline.chips.query
      (tagQuery "ubl/revoke" ("target_cid" ++ ":" ++ cid) (some 1))).2 =
        (s.pipeline.chips.holders "ubl/revoke" "target_cid" cid).length :=
    tagQuery_count_of_indexed (hindexed s hs) (htagged s hs) (by decide) (by decide) (some 1)
  rw [revokeQuery, show "target_cid:" ++ cid = "target_cid" ++ ":" ++ cid from rfl, hcount,
    List.length_eq_zero_iff]

/-- The chip that a token is read from is one of the store's, of its type and its id. -/
theorem of_tokenChipIn {tokenId : String} {store : ChipStore} {chip : StoredChip}
    (h : tokenChipIn tokenId store = some chip) :
    chip ∈ store.values ∧ chip.chipType = "ubl/token" ∧
      bodyStr chip.chipData "@id" = some tokenId := by
  have hid := List.find?_some h
  obtain ⟨hvalue, hmatches⟩ := of_mem_query (List.mem_of_find?_eq_some h)
  simp only [ChipStore.matchesQuery, Bool.and_eq_true] at hmatches
  exact ⟨hvalue, beq_iff_eq.mp hmatches.1.1.1.1, beq_iff_eq.mp hid⟩

end Revocations

/-- While every token of this id is revoked, or its user, nothing is handed over by a POST under
it: a revocation counts from the state that the first look-up sees, if no query for it fails. -/
theorem revoked_hands_nothing (lib : StoreLib) (g : SubmitGate) (out : SubmitOutside)
    (R : McpState → Prop) (hstore : ∀ s, R s → s.pipeline.chips.InOrder lib) (headers : HeaderMap)
    (tokenId : String) (htoken : parseBearerToken headers = some tokenId)
    (hrevoked : ∀ s, R s → ∀ chip ∈ s.pipeline.chips.values, chip.chipType = "ubl/token" →
      bodyStr chip.chipData "@id" = some tokenId →
      ∀ session, SessionToken.fromChipBody chip.chipData = .ok session →
        (out.revokeFault = none ∧ ∀ t, R t →
          t.pipeline.chips.holders "ubl/revoke" "target_cid" chip.cid ≠ []) ∨
        (out.userRevokeFault = none ∧ ∀ t, R t →
          t.pipeline.chips.holders "ubl/revoke" "target_cid" session.userCid ≠ []))
    (body : List UInt8) (p : ChipRequest → AuthorshipContext → Bool) :
    ¬ HandsOver R (fun h => submitChipBytes g h out (some headers) false body) p := by
  intro hhands
  obtain ⟨-, s₀, hs₀⟩ := hhands.exists_state
  obtain ⟨value, tokenDid, -, -, hmay, -⟩ := (handsOver_iff ⟨s₀, hs₀⟩).mp hhands
  rw [if_neg Bool.false_ne_true, mayReturn_authorize, Speaks, if_pos (by rw [htoken]; rfl)] at hmay
  obtain ⟨auth, ⟨tokenId', chip, session, -, -, htoken', ⟨s, hs, hfound⟩, hsession, -, -, hpass, -,
    huserPass, -⟩, -⟩ := hmay
  obtain rfl := Option.some.inj (htoken.symm.trans htoken')
  have hfound : tokenChipIn tokenId s.pipeline.chips = some chip := by
    revert hfound
    cases out.tokenFault with
    | some e => exact nofun
    | none => exact Except.ok.inj
  obtain ⟨hvalue, htype, hid⟩ := of_tokenChipIn hfound
  -- a look-up that answers has seen the revocation in the state it was made in
  have stops {fault : Option ChipStoreError} {cid : String} (hpass : MayPass R fault cid)
      (hfault : fault = none)
      (h : ∀ t, R t → t.pipeline.chips.holders "ubl/revoke" "target_cid" cid ≠ []) : False := by
    obtain ⟨t, ht, hnone⟩ := (mayPass_iff (fun s hs => (hstore s hs).indexed)
      (fun s hs => (hstore s hs).tagged)).mp hpass
    rw [hfault] at hnone
    exact h t ht (hnone.resolve_left Bool.false_ne_true)
  rcases hrevoked s hs chip hvalue htype hid session hsession with ⟨hfault, h⟩ | ⟨hfault, h⟩
  · exact stops hpass hfault h
  · exact stops huserPass hfault h

/-! ## A document for `a/acme` -/

/-- `serde_json` on the text of `gatedBody`. -/
def gatedEnv : KnockEnv where
  text := Nrf.asciiText
  chrono _ := none
  fromSlice bytes := if bytes = Utf8.utf8 gatedText then .ok gatedBody else .error "unread"
  displayNumber _ := ""

def acmeSubmit (publicWorlds : List String) : SubmitGate where
  policy := ⟨true, [], publicWorlds, ["ubl/document"]⟩
  crypto := Receipt.UnifiedReceipt.plainCrypto
  toVec _ := Utf8.utf8 gatedText
  rfc3339 _ := .error "unread"
  knockEnv := gatedEnv
  requireUnc1 := false
  f64Mode := .reject

theorem knock_gatedText (publicWorlds : List String) :
    knock (acmeSubmit publicWorlds) (Utf8.utf8 gatedText) = .ok gatedBody := by
  have hraw : Knock.knockRaw (Utf8.utf8 gatedText) = .ok () := by decide +kernel
  have hparse : Knock.parseBody gatedEnv (Utf8.utf8 gatedText) = .ok gatedBody := by
    simp only [Knock.parseBody, gatedEnv, if_true]
  have hnormal : Knock.normalizeBody gatedEnv gatedBody = .ok gatedBody := by
    with_unfolding_all rfl
  have hchecks : Knock.knockParsedWithOptions gatedEnv gatedBody false = .ok () := by
    decide +kernel
  have hkeys : Knock.checkDuplicateKeys (Utf8.utf8 gatedText) = .ok () := by decide +kernel
  have hvalue : Knock.knockValue gatedEnv (Utf8.utf8 gatedText) false .reject = .ok gatedBody := by
    simp only [Knock.knockValue, hraw, hparse, hnormal, Knock.importF64, hchecks,
      ExceptLemmas.bind_ok, ExceptLemmas.pure_eq_ok]
  simp only [knock, acmeSubmit, knockWithOptions, hvalue, hkeys]

def quietOutside : SubmitOutside := ⟨0, none, none, none, none, fun _ => none⟩

/-- A public world takes documents of anyone. -/
theorem post_hands_iff_public : HandsOver (· = sampleMcpState)
    (fun h => submitChipBytes (acmeSubmit ["a/acme"]) h quietOutside (some []) false
      (Utf8.utf8 gatedText)) (fun request _ => request.chipType == "ubl/document") := by
  refine (post_hands_iff _ quietOutside (· = sampleMcpState) ⟨_, rfl⟩ _ _ _).mpr
    ⟨gatedBody, none, knock_gatedText _, rfl, ?_, ?_⟩
  · exact ⟨by with_unfolding_all rfl, rfl⟩
  · with_unfolding_all rfl

/-- `tools/call` of `ubl.deliver`. -/
def deliverCall : Json :=
  .object [("jsonrpc", .string "2.0"), ("id", .null), ("method", .string "tools/call"),
    ("params", .object [("name", .string "ubl.deliver"),
      ("arguments", .object [("chip", gatedBody)])])]

theorem isDelivery_deliverCall : IsDelivery deliverCall := ⟨by decide, by decide, by decide⟩

/-- The same over MCP. -/
theorem rpc_hands_iff_public : HandsOver (· = sampleMcpState)
    (fun h => handleMcpRpcRequest (withSubmissions sampleMcp (acmeSubmit ["a/acme"]) h quietOutside)
      sampleMcpOutside deliverCall (some []) none)
    (fun request _ => request.chipType == "ubl/document") := by
  refine (rpc_hands_iff sampleMcp sampleMcpOutside (acmeSubmit ["a/acme"]) quietOutside
    (· = sampleMcpState) deliverCall (some []) _).2 rfl isDelivery_deliverCall ?_
  refine (@handsOver_iff _ quietOutside (· = sampleMcpState) _ ⟨_, rfl⟩ _ _ _).mpr
    ⟨gatedBody, none, knock_gatedText _, rfl, ?_, ?_⟩
  · rw [if_neg Bool.false_ne_true, mayReturn_authorize]
    exact ⟨by with_unfolding_all rfl, rfl⟩
  · with_unfolding_all rfl

/-- A socket writes to a world that is not public, without a word of its own world. -/
theorem socket_hands_iff_acme : HandsOver (· = sampleMcpState)
    (fun h => handleMcpRpcRequest (withSubmissions sampleMcp (acmeSubmit []) h quietOutside)
      sampleMcpOutside deliverCall none (some ⟨"t1", ["write"]⟩))
    (fun request _ => request.chipType == "ubl/document") := by
  refine (socket_hands_iff sampleMcp sampleMcpOutside (acmeSubmit []) quietOutside
    (· = sampleMcpState) ⟨_, rfl⟩ deliverCall ⟨"t1", ["write"]⟩ _).mpr
      ⟨isDelivery_deliverCall, by decide, ⟨_, rfl, ?_⟩, nofun, gatedBody, knock_gatedText _, rfl, ?_⟩
  · with_unfolding_all rfl
  · with_unfolding_all rfl

def revocationLib : StoreLib := ⟨Receipt.UnifiedReceipt.plainCrypto, fun _ => none⟩

def tokenChip : StoredChip :=
  storedChip revocationLib "t1" "b3:0a" (.object [("@type", .string "ubl/token"),
    ("@id", .string "tok-1"), ("user_cid", .string "b3:0b"), ("expires_at", .string "t9"),
    ("kid", .string "k")]) "b3:0r" ⟨"", 0, 0, [], "did:key:z1", true⟩

def revocationChip : StoredChip :=
  storedChip revocationLib "t2" "b3:0c" (.object [("@type", .string "ubl/revoke"),
    ("target_cid", .string "b3:0a")]) "b3:0s" ⟨"", 0, 0, [], "did:key:z1", true⟩

def revokedState : McpState :=
  ⟨{ sampleState "s0" with chips := [⟨revocationChip, true⟩, ⟨tokenChip, true⟩] }, .empty⟩

theorem revoked_hands_nothing_tok :
    ¬ HandsOver (· = revokedState) (fun h => submitChipBytes (acmeSubmit []) h quietOutside
      (some [("authorization", "Bearer tok-1")]) false (Utf8.utf8 gatedText))
      fun _ _ => true := by
  refine revoked_hands_nothing revocationLib _ quietOutside _ ?_ _ "tok-1" ?_ ?_ _ _
  · rintro s rfl
    refine (inOrder_nil.cons rfl (tagged_storedChip ..) nofun).cons rfl (tagged_storedChip ..) ?_
    intro older holder
    obtain rfl := List.mem_singleton.mp holder
    decide
  · with_unfolding_all rfl
  · rintro s rfl chip hchip htype - session -
    refine .inl ⟨rfl, ?_⟩
    rintro t rfl
    obtain rfl : chip = tokenChip := by
      have hvalues : revokedState.pipeline.chips.values = [revocationChip, tokenChip] := by
        with_unfolding_all rfl
      rw [hvalues] at hchip
      rcases List.mem_pair.mp hchip with rfl | rfl
      · exact absurd htype (by decide)
      · rfl
    exact List.ne_nil_of_mem
      (mem_holders_cons_self (by with_unfolding_all rfl) (by with_unfolding_all rfl))

end Ubl.Gate
