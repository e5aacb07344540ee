import Ubl.Gate.Submit

/-!
# What a session token writes, by transport

The world of a session token is looked at over HTTP, where `submitChipBytes` resolves the token
itself, and by the upgrade of a WebSocket, which keeps it for the session.  No call of the session
asks for it again: its chips are submitted as trusted, and a token of one world writes into every
other.  So the token bounds what is written

    over HTTP always, and over a socket where the chip's world is the token's anyway
                                                            (token_writes_inside_iff)
-/

namespace Ubl.Gate

open Chipstore Pipeline

/-! ## The upgrade -/

def upgradeError (code message : String) : Json :=
  .object [("@type", .string "ubl/error"), ("code", .string code), ("message", .string message)]

/-- `validate_mcp_ws_bearer`. -/
def validateMcpWsBearer (rfc3339 : String → Except String Int) (out : SubmitOutside)
    (headers : HeaderMap) : McpProcess (Except (Nat × Json) SessionAuth) :=
  match parseBearerToken headers with
  | none =>
    pure (.error (401, upgradeError "UNAUTHORIZED" "missing Authorization: Bearer <token>"))
  | some tokenId => do
    match ← resolveSessionBearer rfc3339 out headers with
    | .error msg => pure (.error (401, upgradeError "UNAUTHORIZED" msg))
    | .ok none => pure (.error (401, upgradeError "UNAUTHORIZED" "token not found"))
    | .ok (some auth) =>
      if !scopeAllowsAny auth.scope ["mcp", "read", "write", "mcp:write"] then
        pure (.error (403, upgradeError "POLICY_DENIED" "token scope does not allow MCP access"))
      else if auth.tokenId ≠ tokenId then
        pure (.error (401, upgradeError "UNAUTHORIZED" "token mismatch"))
      else pure (.ok auth)

/-- A session begins under a token that is accepted. -/
theorem mayReturn_validateMcpWsBearer {rfc3339 : String → Except String Int} {out : SubmitOutside}
    {R : McpState → Prop} {headers : HeaderMap} {auth : SessionAuth} :
    (validateMcpWsBearer rfc3339 out headers).MayReturn (fun _ => R) (.ok auth) ↔
      Accepts rfc3339 out R headers auth ∧
        scopeAllowsAny auth.scope ["mcp", "read", "write", "mcp:write"] := by
  unfold validateMcpWsBearer
  cases htoken : parseBearerToken headers with
  | none =>
    refine iff_of_false nofun ?_
    rintro ⟨⟨tokenId, _, _, _, _, h, -⟩, -⟩
    exact absurd (htoken.symm.trans h) nofun
  | some tokenId =>
    rw [Prog.mayReturn_bind]
    constructor
    · rintro ⟨resolved, hresolved, h⟩
      rcases resolved with msg | _ | auth'
      · cases h
      · cases h
      · dsimp only at h
        split_ifs at h with hscope hid
        · cases h
        · cases h
        · obtain rfl : auth' = auth := Except.ok.inj h
          exact ⟨mayReturn_resolveSessionBearer.mp hresolved, by simpa using hscope⟩
    · rintro ⟨haccepts, hscope⟩
      refine ⟨_, mayReturn_resolveSessionBearer.mpr haccepts, ?_⟩
      have hid : auth.tokenId = tokenId := by
        obtain ⟨tokenId', _, _, _, _, h, -, -, -, -, -, -, -, _, -, rfl⟩ := haccepts
        exact Option.some.inj (h.symm.trans htoken)
      dsimp only
      rw [if_neg (by simp [hscope]), if_neg (not_not.mpr hid)]
      rfl

/-! ## Requests under a token -/

/-- A request that may rest on a session token. -/
inductive TokenRequest where
  | post (headers : HeaderMap) (body : List UInt8)
  | rpc (headers : HeaderMap) (mcpOut : McpOutside) (message : Json)
  | socket (auth : SessionAuth) (mcpOut : McpOutside) (message : Json)

namespace TokenRequest

variable (mcp : McpGate) (g : SubmitGate) (out : SubmitOutside) (R : McpState → Prop)

def call (h : SubmitHandlers) : TokenRequest → McpProcess McpReply
  | post headers body => submitChipBytes g h out (some headers) false body
  | rpc headers mcpOut message =>
    handleMcpRpcRequest (withSubmissions mcp g h out) mcpOut message (some headers) none
  | socket auth mcpOut message =>
    handleMcpRpcRequest (withSubmissions mcp g h out) mcpOut message none (some auth.toMcpWsAuth)

/-- The request shows a token. -/
def ShowsToken : TokenRequest → Prop
  | post headers _ => (parseBearerToken headers).isSome
  | rpc headers _ _ => (parseBearerToken headers).isSome
  | socket _ _ _ => True

/-- The token that is accepted for the request: a session has it from its upgrade. -/
def Under : TokenRequest → SessionAuth → Prop
  | post headers _, auth => Accepts g.rfc3339 out R headers auth
  | rpc headers _ _, auth => Accepts g.rfc3339 out R headers auth
  | socket auth' _ _, auth => auth = auth'

/-- What the request hands over lies in the world of its token, and the token may write. -/
def WritesInside (req : TokenRequest) : Prop :=
  ∀ p, HandsOver R (fun h => req.call mcp g out h) p → ∃ auth value ctx, req.Under g out R auth ∧
    p (createRequest value) ctx ∧ worldScopeAllows auth.world (worldOf value) ∧
      scopeAllowsAny auth.scope writeScopes

end TokenRequest

section

variable {mcp : McpGate} {mcpOut : McpOutside} {g : SubmitGate} {out : SubmitOutside}
  {R : McpState → Prop} {headers : HeaderMap} {body : List UInt8}
  {p : ChipRequest → AuthorshipContext → Bool}

/-- Over HTTP the token is asked for its scope and its world. -/
theorem inside_of_handsOver (hR : ∃ s, R s) (htoken : (parseBearerToken headers).isSome)
    (h : HandsOver R (fun h => submitChipBytes g h out (some headers) false body) p) :
    ∃ auth value ctx, Accepts g.rfc3339 out R headers auth ∧ p (createRequest value) ctx ∧
      worldScopeAllows auth.world (worldOf value) ∧ scopeAllowsAny auth.scope writeScopes := by
  obtain ⟨value, tokenDid, -, -, hspeaks, hp⟩ := (handsOver_iff hR).mp h
  rw [if_neg Bool.false_ne_true, mayReturn_authorize, Speaks, if_pos htoken] at hspeaks
  obtain ⟨auth, haccepts, hscope, hworld, -⟩ := hspeaks
  exact ⟨auth, value, _, haccepts, hp, hworld, hscope⟩

theorem writes_of_mcpScopeAllowsWrite {auth : McpWsAuth} (h : mcpScopeAllowsWrite auth) :
    scopeAllowsAny auth.scope writeScopes := by
  simp only [mcpScopeAllowsWrite, scopeAllowsAny, writeScopes, List.any_cons, List.any_nil,
    Bool.or_false, Bool.or_eq_true] at h ⊢
  tauto

end

/-- Over HTTP a token writes inside its world, and over a socket just where the chip that the call
delivers lies there by itself. -/
theorem token_writes_inside_iff (mcp : McpGate) (g : SubmitGate) (out : SubmitOutside)
    (R : McpState → Prop) (hR : ∃ s, R s) (req : TokenRequest) (htoken : req.ShowsToken) :
    req.WritesInside mcp g out R ↔
      ∀ auth mcpOut message, req = .socket auth mcpOut message → ∀ value,
        SocketDelivers mcp mcpOut g out R message auth.toMcpWsAuth value →
          worldScopeAllows auth.world (worldOf value) := by
  cases req with
  | post headers body =>
    exact iff_of_true (fun p h => inside_of_handsOver hR htoken h)
      fun _ _ _ hreq => (by cases hreq)
  | rpc headers mcpOut message =>
    exact iff_of_true (fun p h => inside_of_handsOver hR htoken (handsOver_of_http h).2)
      fun _ _ _ hreq => (by cases hreq)
  | socket auth mcpOut message =>
    constructor
    · rintro hinside _ _ _ ⟨⟩ value hdelivers
      have hhands : HandsOver R (fun h => TokenRequest.call mcp g out h (.socket auth mcpOut message))
          fun request _ => worldOf request.body == worldOf value :=
        (handsOver_socket_iff hR).mpr ⟨value, hdelivers, beq_self_eq_true _⟩
      obtain ⟨auth', value', -, rfl, hvalue, hworld, -⟩ := hinside _ hhands
      rw [← beq_iff_eq.mp hvalue]
      exact hworld
    · intro hworld p h
      obtain ⟨value, hdelivers, hp⟩ := (handsOver_socket_iff hR).mp h
      exact ⟨auth, value, _, rfl, hp, hworld auth mcpOut message rfl value hdelivers,
        writes_of_mcpScopeAllowsWrite hdelivers.scope⟩

/-! ## A session for `a/acme`, and one for `a/other` -/

def sessionChip (world : String) : StoredChip :=
  storedChip revocationLib "t1" "b3:0a" (.object [("@type", .string "ubl/token"),
    ("@id", .string "tok-1"), ("@world", .string world), ("user_cid", .string "b3:0b"),
    ("scope", .array [.string "write"]), ("expires_at", .string "t9"), ("kid", .string "k")])
    "b3:0r" ⟨"", 0, 0, [], "did:key:z1", true⟩

def sessionState (world : String) : McpState :=
  ⟨{ sampleState "s0" with chips := [⟨sessionChip world, true⟩] }, .empty⟩

/-- Every token expires at 100. -/
def timedGate : SubmitGate := { acmeSubmit [] with rfc3339 := fun _ => .ok 100 }

def bearerHeaders : HeaderMap := [("authorization", "Bearer tok-1")]

def sessionOf (world : String) : SessionAuth := ⟨⟨"tok-1", ["write"]⟩, "b3:0a", world, none⟩

theorem accepts_sessionOf {world : String} (hworld : world = "a/acme" ∨ world = "a/other") :
    Accepts timedGate.rfc3339 quietOutside (· = sessionState world) bearerHeaders
      (sessionOf world) := by
  refine ⟨"tok-1", sessionChip world, ⟨"b3:0b", ["write"], "t9", "k"⟩, 100, world, ?_,
    ⟨_, rfl, ?_⟩, ?_, rfl, by decide, ⟨_, rfl, .inr ?_⟩, ?_, ⟨_, rfl, .inr ?_⟩, ⟨_, rfl, ?_⟩⟩ <;>
  rcases hworld with rfl | rfl <;> with_unfolding_all rfl

theorem delivers_gatedBody {value : Json} {auth : McpWsAuth} {R : McpState → Prop}
    (h : SocketDelivers sampleMcp sampleMcpOutside timedGate quietOutside R deliverCall auth value) :
    value = gatedBody :=
  Except.ok.inj (h.knocked.symm.trans (knock_gatedText []))

theorem token_writes_inside_iff_acme :
    (TokenRequest.socket (sessionOf "a/acme") sampleMcpOutside deliverCall).WritesInside sampleMcp
      timedGate quietOutside (· = sessionState "a/acme") := by
  refine (token_writes_inside_iff sampleMcp timedGate quietOutside (· = sessionState "a/acme")
    ⟨_, rfl⟩ (.socket (sessionOf "a/acme") sampleMcpOutside deliverCall) trivial).mpr ?_
  rintro auth mcpOut message ⟨⟩ value hdelivers
  rw [delivers_gatedBody hdelivers]
  decide +kernel

/-- The session of a token for `a/other` writes to `a/acme`. -/
theorem session_writes_outside :
    (validateMcpWsBearer timedGate.rfc3339 quietOutside bearerHeaders).MayReturn
        (fun _ => (· = sessionState "a/other")) (.ok (sessionOf "a/other")) ∧
      ¬ (TokenRequest.socket (sessionOf "a/other") sampleMcpOutside deliverCall).WritesInside
        sampleMcp timedGate quietOutside (· = sessionState "a/other") := by
  refine ⟨mayReturn_validateMcpWsBearer.mpr ⟨accepts_sessionOf (.inr rfl), by decide⟩, fun h => ?_⟩
  have hhands : HandsOver (· = sessionState "a/other") (fun h => TokenRequest.call sampleMcp timedGate
      quietOutside h (.socket (sessionOf "a/other") sampleMcpOutside deliverCall))
      fun request _ => worldOf request.body == "a/acme" := by
    refine (@handsOver_socket_iff sampleMcp sampleMcpOutside timedGate quietOutside
      (· = sessionState "a/other") ⟨_, rfl⟩ deliverCall (sessionOf "a/other").toMcpWsAuth _).mpr
      ⟨gatedBody, ⟨isDelivery_deliverCall, by decide, ⟨_, rfl, ?_⟩, fun h => (by cases h),
        knock_gatedText [], rfl⟩, ?_⟩
    · with_unfolding_all rfl
    · with_unfolding_all rfl
  obtain ⟨auth, value, -, rfl, hvalue, hworld, -⟩ := h _ hhands
  rw [show worldOf value = "a/acme" from beq_iff_eq.mp hvalue] at hworld
  exact absurd hworld (by decide +kernel)

end Ubl.Gate
