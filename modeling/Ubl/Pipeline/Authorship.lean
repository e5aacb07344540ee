import Ubl.Chipstore.Store
import Ubl.Receipt.Tamper

/-!
# `authorship.rs`: who is knocking

A chip that names a DID speaks for it.  Any other author is anonymous, and gets a DID made of the
claims that stay the same from one request to the next: those of the actor in the body, and the
hints of the transport.  Two anonymous requests have one author just when all claims are the same,
those that the canonical encoding refuses included (`anonymous_eq_iff`).
-/

namespace Ubl.Pipeline

open AssocMap (entriesOf)
open Chipstore
open Ubl.Nrf (Eqv JsonFits present)
open Ubl.Receipt (Crypto)

/-- What the gate knows of a request: the front of the address, and a hash of the user agent. -/
structure ActorHint where
  addressFront : Option String
  userAgentHash : Option String

/-! ## The DID of a chip -/

def isDid (s : String) : Bool := "did:".toList.isPrefixOf s.toList

def extractExplicitDid (body : Json) : Option String :=
  (((body.get "actor").bind (strField · "did")).filter isDid).or
    (((strField body "did").filter isDid).or ((strField body "owner_did").filter isDid))

/-- The claims in the order they are copied in; the last two are hints. -/
def claimNames : List String :=
  ["installation_key", "client_pubkey", "device_id", "session_id", "kid", "ip_prefix",
    "user_agent_hash"]

def claimOf (body : Option Json) (hint : ActorHint) (name : String) : Option String :=
  if name = "ip_prefix" then hint.addressFront
  else if name = "user_agent_hash" then hint.userAgentHash
  else (body.bind (·.get "actor")).bind (strField · name)

def claims (body : Option Json) (hint : ActorHint) : Json :=
  .object (entriesOf claimNames fun name => (claimOf body hint name).map .string)

section

variable (c : Crypto) (toVec : Json → List UInt8)

def knockCidFromBytes (bytes : List UInt8) : String := "b3:" ++ Hex.encode (c.blake3 bytes)

/-- Of the canonical bytes, or else of the text; `claims_fingerprint` is the same. -/
def knockCidFromValue (value : Json) : String :=
  match chipCid c value with
  | .ok cid => cid
  | .error _ => knockCidFromBytes c (toVec value)

def resolveSubjectDid (body : Option Json) (hint : ActorHint) : String :=
  match body.bind extractExplicitDid with
  | some did => did
  | none => "did:ubl:anon:" ++ knockCidFromValue c toVec (claims body hint)

end

/-! ## Anonymous authors -/

section Claims

variable {body body' : Option Json} {hint hint' : ActorHint}

theorem claimNames_nodup : claimNames.Nodup := by decide

theorem claims_distinct : (claims body hint).DistinctKeys := by
  refine Json.everywhere_object.mpr ⟨AssocMap.distinctKeys_entriesOf claimNames_nodup, ?_⟩
  intro e he
  obtain ⟨-, hv⟩ := AssocMap.mem_entriesOf.mp he
  obtain ⟨s, -, hs⟩ := Option.map_eq_some_iff.mp hv
  rw [← hs]
  exact Json.everywhere_string.mpr trivial

theorem present_claims {name : String} (hname : name ∈ claimNames) :
    present (entriesOf claimNames fun n => (claimOf body hint n).map .string) name =
      (claimOf body hint name).map .string := by
  rw [present, AssocMap.lookup_entriesOf claimNames_nodup hname]
  cases claimOf body hint name <;> rfl

/-- Claims that mean the same are the same. -/
theorem claims_eq_of_eqv (h : Eqv (claims body hint) (claims body' hint')) :
    claims body hint = claims body' hint' := by
  refine congrArg Json.object (AssocMap.entriesOf_congr fun name hname => ?_)
  have hrel := Receipt.eqv_present h name
  rw [present_claims hname, present_claims hname] at hrel
  generalize claimOf body hint name = claim at hrel ⊢
  generalize claimOf body' hint' name = claim' at hrel ⊢
  cases claim with
  | none =>
    cases claim' with
    | none => rfl
    | some s => cases hrel
  | some s =>
    cases claim' with
    | none => cases hrel
    | some s' =>
      cases hrel with
      | some heqv =>
        cases heqv
        rfl

/-- The claims that a request is known by. -/
theorem claimOf_eq_of_claims (h : claims body hint = claims body' hint') {name : String}
    (hname : name ∈ claimNames) : claimOf body hint name = claimOf body' hint' name := by
  have hlookup := congrArg (fun j => present ((Json.asObject j).getD []) name) h
  simp only [claims, Json.asObject, Option.getD_some, present_claims hname] at hlookup
  exact Option.map_injective (fun _ _ => Json.string.inj) hlookup

end Claims

section Fingerprint

variable {c : Crypto} {toVec : Json → List UInt8}

/-- Which bytes are hashed. -/
theorem knockCidFromValue_eq (value : Json) :
    knockCidFromValue c toVec value = "b3:" ++ Hex.encode (c.blake3
      (match Nrf.toNrf1Bytes c.text value with
        | .ok nrf => nrf
        | .error _ => toVec value)) := by
  unfold knockCidFromValue chipCid
  cases Nrf.toNrf1Bytes c.text value <;> rfl

theorem claims_eq_of_cid (hhash : Function.Injective c.blake3)
    (hbrace : ∀ members, (toVec (.object members)).head? = some 0x7b)
    {body body' : Option Json} {hint hint' : ActorHint}
    (htext : toVec (claims body hint) = toVec (claims body' hint') →
      claims body hint = claims body' hint')
    (hfits : JsonFits (claims body hint)) (hfits' : JsonFits (claims body' hint'))
    (h : knockCidFromValue c toVec (claims body hint) =
      knockCidFromValue c toVec (claims body' hint')) :
    claims body hint = claims body' hint' := by
  rw [knockCidFromValue_eq, knockCidFromValue_eq] at h
  have hbytes := hhash (Hex.encode_injective (String.append_right_inj _ |>.mp h))
  have hmagic {value : Json} {nrf : List UInt8} (hnrf : Nrf.toNrf1Bytes c.text value = .ok nrf)
      (hdistinct : value.DistinctKeys) : nrf.head? = some 0x6e := by
    obtain ⟨-, rfl⟩ := (Nrf.toNrf1Bytes_eq_ok hdistinct).mp hnrf
    rfl
  cases hx : Nrf.toNrf1Bytes c.text (claims body hint) with
  | ok x =>
    cases hy : Nrf.toNrf1Bytes c.text (claims body' hint') with
    | ok y =>
      rw [hx, hy] at hbytes
      obtain rfl : x = y := hbytes
      exact claims_eq_of_eqv (Nrf.eqv_of_toNrf1Bytes claims_distinct claims_distinct hfits hfits'
        hx hy)
    | error e =>
      rw [hx, hy] at hbytes
      have hhead := congrArg List.head? hbytes
      rw [hmagic hx claims_distinct, claims, hbrace] at hhead
      exact absurd hhead (by decide)
  | error e =>
    cases hy : Nrf.toNrf1Bytes c.text (claims body' hint') with
    | ok y =>
      rw [hx, hy] at hbytes
      have hhead := congrArg List.head? hbytes
      rw [hmagic hy claims_distinct, claims, hbrace] at hhead
      exact absurd hhead (by decide)
    | error e' =>
      rw [hx, hy] at hbytes
      exact htext hbytes

end Fingerprint

/-- Anonymous requests are of one author just when each claim is the same in both. -/
theorem anonymous_eq_iff (c : Crypto) (toVec : Json → List UInt8)
    (hhash : Function.Injective c.blake3)
    (hbrace : ∀ members, (toVec (.object members)).head? = some 0x7b)
    (body body' : Option Json) (hint hint' : ActorHint)
    (htext : toVec (claims body hint) = toVec (claims body' hint') →
      claims body hint = claims body' hint')
    (hbody : body.bind extractExplicitDid = none) (hbody' : body'.bind extractExplicitDid = none)
    (hfits : JsonFits (claims body hint)) (hfits' : JsonFits (claims body' hint')) :
    resolveSubjectDid c toVec body hint = resolveSubjectDid c toVec body' hint' ↔
      ∀ name ∈ claimNames, claimOf body hint name = claimOf body' hint' name := by
  rw [resolveSubjectDid, resolveSubjectDid, hbody, hbody']
  constructor
  · intro h
    have hcid := String.append_right_inj _ |>.mp h
    intro name hname
    exact claimOf_eq_of_claims (claims_eq_of_cid hhash hbrace htext hfits hfits' hcid) hname
  · intro h
    have hclaims : claims body hint = claims body' hint' :=
      congrArg Json.object (AssocMap.entriesOf_congr fun name hname => by rw [h name hname])
    rw [hclaims]

/-- A chip of the actor with this installation key. -/
def actorChip (key : String) : Json :=
  .object [("@type", .string "ubl/document"),
    ("actor", .object [("installation_key", .string key), ("name", .string "Ann")])]

/-- The texts of objects whose members are plain strings. -/
def plainText : Json → List UInt8
  | .object members => 0x7b :: members.flatMap (fun e => Utf8.utf8 e.1 ++ 0x3a ::
      (match e.2 with
        | .string s => Utf8.utf8 s
        | _ => [])) ++ [0x7d]
  | _ => []

/-- Another key is another author; the name makes no difference. -/
theorem anonymous_eq_iff_actors :
    resolveSubjectDid Receipt.UnifiedReceipt.plainCrypto plainText (some (actorChip "k1"))
        ⟨none, none⟩ =
      resolveSubjectDid Receipt.UnifiedReceipt.plainCrypto plainText (some (actorChip "k2"))
        ⟨none, none⟩ ↔
      ∀ name ∈ claimNames, claimOf (some (actorChip "k1")) ⟨none, none⟩ name =
        claimOf (some (actorChip "k2")) ⟨none, none⟩ name := by
  refine anonymous_eq_iff _ plainText (fun _ _ h => h) (fun members => rfl) _ _ _ _ ?_ rfl rfl ?_ ?_
  · intro h
    exact absurd h (by decide +kernel)
  · decide +kernel
  · decide +kernel

end Ubl.Pipeline
