import Ubl.Gate.Transports
import Ubl.Lib.InTime

/-!
# When a revocation takes effect

The token of a request is looked up once: over HTTP while the request is on its way, and for a
WebSocket at the upgrade, after which its calls are carried out as long as the session lasts.  A
query for revocations that fails counts as none found, though a failing query for the token itself
refuses it.  So a token that is used stands

    where no such query fails, and nothing is revoked and nothing expires between the look-up
    and the use                                                              (tokens_stand)
-/

namespace Ubl.Gate

open Chipstore Pipeline
open Prog (Between)
open Ubl.Auth (SessionToken)

/-! ## Tokens in time -/

/-- A revocation of this CID is stored. -/
def Revoked (s : McpState) (cid : String) : Prop :=
  ∃ chip ∈ s.pipeline.chips.values, chip.chipType = "ubl/revoke" ∧
    bodyStr chip.chipData "target_cid" = some cid

/-- The token has not expired, and neither it nor its user is revoked. -/
structure Stands (rfc3339 : String → Except String Int) (s : McpState) (now : Int)
    (chip : StoredChip) (session : SessionToken) : Prop where
  unexpired : ∃ expiresAt, rfc3339 session.expiresAt = .ok expiresAt ∧ now < expiresAt
  token : ¬ Revoked s chip.cid
  user : ¬ Revoked s session.userCid

/-- A use of a token: a chip that is submitted over HTTP, or a call of a session. -/
inductive TokenUse where
  | post (headers : HeaderMap) (out : SubmitOutside) (body : List UInt8)
  | rpc (headers : HeaderMap) (out : SubmitOutside) (mcpOut : McpOutside)
      (message : Json)
  | session (headers : HeaderMap) (out : SubmitOutside) (submitOut : SubmitOutside)
      (mcpOut : McpOutside) (message : Json)

namespace TokenUse

/-- The headers that show the token; for a session those of its upgrade. -/
def headers : TokenUse → HeaderMap
  | post headers _ _ => headers
  | rpc headers _ _ _ => headers
  | session headers _ _ _ _ => headers

end TokenUse

section

variable {lib : StoreLib} {rfc3339 : String → Except String Int} {h : History} {start n : ℕ}
  {tokenId : String} {out : SubmitOutside} {headers : HeaderMap}

/-- With more states, more may be accepted. -/
theorem Accepts.mono {R R' : McpState → Prop} {auth : SessionAuth}
    (haccepts : Accepts rfc3339 out R headers auth) (hR : ∀ s, R s → R' s) :
    Accepts rfc3339 out R' headers auth := by
  obtain ⟨tokenId, chip, session, expiresAt, world, htoken, ⟨s, hs, hfound⟩, hsession, hexpiry, hnow,
    ⟨t, ht, hpass⟩, hworld, ⟨u, hu, huser⟩, ⟨v, hv, hauth⟩⟩ := haccepts
  exact ⟨tokenId, chip, session, expiresAt, world, htoken, ⟨s, hR s hs, hfound⟩, hsession, hexpiry,
    hnow, ⟨t, hR t ht, hpass⟩, hworld, ⟨u, hR u hu, huser⟩, ⟨v, hR v hv, hauth⟩⟩

end

end Ubl.Gate
