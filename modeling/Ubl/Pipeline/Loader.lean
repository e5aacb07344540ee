import Ubl.Lib.Fueled
import Ubl.Pipeline.Policies

/-!
# The policy loader

`load_policy_chain` walks up from the parents of a request and takes in the policy chips among the
children of each ancestor.  The scope of a policy is read from its chip and not looked at again:
a policy has a say on every request whose ancestors it is attached to, be it in the scope of the
policy or not (`scope_respected_iff`).

The loop over the generations has fuel; it says `none` when that is used up.
-/

namespace Ubl.Pipeline

open Fueled ExceptLemmas
open Ubl.Policy

inductive PolicyError where
  | notFound (text : String)
  | invalidFormat (text : String)
  | circularDependency (cid : String)
  | storage (text : String)
deriving DecidableEq

def PolicyError.text : PolicyError → String
  | .notFound text => "Policy not found: " ++ text
  | .invalidFormat text => "Invalid policy format: " ++ text
  | .circularDependency cid => "Circular dependency detected: " ++ cid
  | .storage text => "Storage error: " ++ text

structure ChipData where
  cid : String
  chipType : String
  body : Json
  parents : List String

/-- What the loader asks of a storage. -/
structure PolicyStorage where
  getChip : String → Except PolicyError (Option ChipData)
  findChildren : String → Except PolicyError (List ChipData)

/-- The request as the loader sees it. -/
structure PolicyChipRequest where
  chipType : String
  body : Json
  parents : List String
  operation : String

def ParsedChipRequest.operation (request : ParsedChipRequest) : String :=
  request.request.operation.getD "create"

def ParsedChipRequest.policyRequest (request : ParsedChipRequest) : PolicyChipRequest :=
  ⟨request.chipType, request.body, request.request.parents, request.operation⟩

structure PolicyLoader where
  storage : PolicyStorage
  genesisChipCid : String
  /-- `serde_json::from_value::<Vec<Circuit>>`. -/
  circuitsFromValue : Json → Except String (List Circuit)
  /-- `serde_json::from_value::<PolicyScope>`. -/
  scopeFromValue : Json → Except String PolicyScope

/-- What a generation leaves behind. -/
structure AncestryWalk where
  visited : Finset String
  ancestry : List String
  nextParents : List String

namespace PolicyLoader

variable (loader : PolicyLoader)

def isGenesisChip (cid : String) : Bool := cid == loader.genesisChipCid

/-- The loop over `current_parents`. -/
def visitParents (walk : AncestryWalk) : List String → Except PolicyError AncestryWalk
  | [] => .ok walk
  | parentCid :: parents =>
    if parentCid ∈ walk.visited then .error (.circularDependency parentCid)
    else if loader.isGenesisChip parentCid then
      visitParents { walk with visited := insert parentCid walk.visited } parents
    else do
      let parentChip ← loader.storage.getChip parentCid
      visitParents ⟨insert parentCid walk.visited, walk.ancestry ++ [parentCid],
        walk.nextParents ++ (parentChip.map ChipData.parents).getD []⟩ parents

/-- The loop over the generations. -/
def ancestryLoop : Nat → Finset String → List String → List String →
    Except (Option PolicyError) (List String)
  | _, _, ancestry, [] => .ok ancestry.reverse
  | 0, _, _, _ :: _ => .error none
  | fuel + 1, visited, ancestry, parentCid :: parents => do
    let walk ← (loader.visitParents ⟨visited, ancestry, []⟩ (parentCid :: parents)).mapError some
    ancestryLoop fuel walk.visited walk.ancestry walk.nextParents

def resolveAncestry (fuel : Nat) (chipRequest : PolicyChipRequest) :
    Except (Option PolicyError) (List String) :=
  loader.ancestryLoop fuel ∅ [] chipRequest.parents

def parsePolicyChip (chip : ChipData) : Except PolicyError PolicyBit := do
  let circuits ← ((chip.body.get "circuits").map Except.ok).getD
    (.error (.invalidFormat "Missing circuits field"))
  let scope ← ((chip.body.get "scope").map Except.ok).getD
    (.error (.invalidFormat "Missing scope field"))
  let circuits ← (loader.circuitsFromValue circuits).mapError
    fun e => .invalidFormat ("Invalid circuits: " ++ e)
  let scope ← (loader.scopeFromValue scope).mapError
    fun e => .invalidFormat ("Invalid scope: " ++ e)
  let id := ((chip.body.get "id").bind Json.asStr).getD chip.cid
  let name := ((chip.body.get "description").bind Json.asStr).getD id
  .ok ⟨id, name, circuits, scope⟩

def isPolicyChip (chip : ChipData) : Bool := "ubl/policy".toList.isPrefixOf chip.chipType.toList

def findAttachedPolicies (chipCid : String) : Except PolicyError (List PolicyBit) := do
  let policyChips ← loader.storage.findChildren chipCid
  (policyChips.filter isPolicyChip).mapM loader.parsePolicyChip

def loadPolicyChain (fuel : Nat) (chipRequest : PolicyChipRequest) :
    Except (Option PolicyError) (List PolicyBit) := do
  let ancestry ← loader.resolveAncestry fuel chipRequest
  let attached ← (ancestry.mapM loader.findAttachedPolicies).mapError some
  .ok (createGenesisPolicy :: attached.flatten)

variable {loader} {fuel : Nat}

theorem ancestryLoop_nil {visited : Finset String} {ancestry : List String} :
    loader.ancestryLoop fuel visited ancestry [] = .ok ancestry.reverse := by
  cases fuel <;> rfl

theorem loadPolicyChain_head {chipRequest : PolicyChipRequest} {chain : List PolicyBit}
    (h : loader.loadPolicyChain fuel chipRequest = .ok chain) :
    ∃ attached, chain = createGenesisPolicy :: attached := by
  simp only [loadPolicyChain, bind_eq_ok] at h
  obtain ⟨ancestry, -, attached, -, h⟩ := h
  exact ⟨attached.flatten, (Except.ok.inj h).symm⟩

end PolicyLoader

/-! ## The storage in memory -/

/-- The newest entry of a CID is the one that is found; `byParent` has a pair for every parent of
every chip, in the order in which they came. -/
structure InMemoryPolicyStorage where
  chips : List (String × ChipData)
  byParent : List (String × String)

namespace InMemoryPolicyStorage

def new : InMemoryPolicyStorage := ⟨[], []⟩

def addChip (s : InMemoryPolicyStorage) (chip : ChipData) : InMemoryPolicyStorage :=
  ⟨(chip.cid, chip) :: s.chips, s.byParent ++ chip.parents.map fun parent => (parent, chip.cid)⟩

def storage (s : InMemoryPolicyStorage) : PolicyStorage where
  getChip cid := .ok (s.chips.lookup cid)
  findChildren parentCid := .ok ((s.byParent.filter fun e => e.1 == parentCid).filterMap
    fun e => s.chips.lookup e.2)

end InMemoryPolicyStorage

/-! ## The stage with a loader -/

namespace UblPipeline

/-- For this request the pipeline has its policies from the loader. -/
def UsesLoader (p : UblPipeline) (loader : PolicyLoader) (request : ParsedChipRequest) : Prop :=
  ∀ r : Except PolicyError (List PolicyBit),
    Settles (fun fuel => loader.loadPolicyChain fuel request.policyRequest) (r.mapError some) →
      p.loadPolicyChain request = r.mapError PolicyError.text

/-- The pipeline with the policies of a chain. -/
def withChain (p : UblPipeline) (chain : List PolicyBit) : UblPipeline :=
  { p with attachedPolicies := fun _ => .ok chain.tail }

end UblPipeline

end Ubl.Pipeline

namespace Ubl.Policy

/-- The chip type and the operation of the request are in the scope. -/
def PolicyScope.Covers (scope : PolicyScope) (request : Pipeline.PolicyChipRequest) : Prop :=
  (request.chipType ∈ scope.chipTypes ∨ "*" ∈ scope.chipTypes) ∧
    (request.operation ∈ scope.operations ∨ "*" ∈ scope.operations)

instance (scope : PolicyScope) (request : Pipeline.PolicyChipRequest) :
    Decidable (scope.Covers request) := inferInstanceAs (Decidable (_ ∧ _))

end Ubl.Policy

namespace Ubl.Pipeline

open Fueled ExceptLemmas
open Ubl.Policy

namespace UblPipeline

/-- To take out a policy that does not cover the request makes no difference to the decision. -/
def ScopeRespected (p : UblPipeline) (request : ParsedChipRequest) (chain : List PolicyBit) :
    Prop :=
  ∀ before policy after, chain = before ++ policy :: after → before ≠ [] →
    ¬ policy.scope.Covers request.policyRequest →
    (p.stageCheck request).map CheckResult.decision =
      ((p.withChain (before ++ after)).stageCheck request).map CheckResult.decision

/-- A policy can be taken out if it does not deny, or is not the only one that does. -/
theorem chainDecision_remove {context : EvalContext} {before after : List PolicyBit}
    {policy : PolicyBit} :
    chainDecision context (before ++ policy :: after) = chainDecision context (before ++ after) ↔
      (policy.Decides context .deny → ∃ other ∈ before ++ after, other.Decides context .deny) := by
  have hmem (q : PolicyBit) : q ∈ before ++ policy :: after ↔ q = policy ∨ q ∈ before ++ after := by
    simp only [List.mem_append, List.mem_cons]
    tauto
  constructor
  · intro heq hdeny
    rw [← chainDecision_eq_deny_iff, ← heq, chainDecision_eq_deny_iff]
    exact ⟨policy, (hmem policy).mpr (.inl rfl), hdeny⟩
  · intro himp
    by_cases hother : ∃ other ∈ before ++ after, other.Decides context .deny
    · rw [chainDecision_eq_deny_iff.mpr hother, chainDecision_eq_deny_iff]
      obtain ⟨other, hin, hdeny⟩ := hother
      exact ⟨other, (hmem other).mpr (.inr hin), hdeny⟩
    · have hnone : ∀ q ∈ before ++ after, ¬ q.Decides context .deny :=
        fun q hq hdeny => hother ⟨q, hq, hdeny⟩
      rw [chainDecision_eq_allow_iff.mpr hnone, chainDecision_eq_allow_iff]
      intro q hq hdeny
      obtain rfl | hq := (hmem q).mp hq
      · exact hother (himp hdeny)
      · exact hnone q hq hdeny

section WithChain

variable {p : UblPipeline} {request : ParsedChipRequest} {chain : List PolicyBit}

/-- A request that does not come to the policies has nothing to do with them. -/
theorem stageCheck_withChain (hnot : ¬ p.GoesOn request) :
    (p.withChain chain).stageCheck request = p.stageCheck request := by
  have hpre : (p.withChain chain).preChecks request = p.preChecks request := rfl
  have hgate : (p.withChain chain).gateCheck request = p.gateCheck request := rfl
  unfold stageCheck
  rw [hpre, hgate]
  cases hp : p.preChecks request with
  | error e => rfl
  | ok u =>
    cases hg : p.gateCheck request with
    | error stop => rfl
    | ok verdict =>
      cases verdict with
      | some result => rfl
      | none => exact absurd ⟨hp, hg⟩ hnot

theorem stageCheck_decision (hgoes : p.GoesOn request)
    (hload : p.loadPolicyChain request = .ok chain) :
    (p.stageCheck request).map CheckResult.decision =
      .ok (chainDecision (p.evalContext request) chain) := by
  rw [stageCheck_eq p hgoes hload]
  exact congrArg Except.ok (policiesLoop_eq [] chain).2

end WithChain

/-- Exactly the policies that deny alone reach beyond their scope. -/
theorem scope_respected_iff (p : UblPipeline) (loader : PolicyLoader)
    (request : ParsedChipRequest) (huses : p.UsesLoader loader request) (chain : List PolicyBit)
    (hload : Settles (fun fuel => loader.loadPolicyChain fuel request.policyRequest)
      (.ok chain)) :
    p.ScopeRespected request chain ↔
      (p.GoesOn request → ∀ before policy after, chain = before ++ policy :: after →
        before ≠ [] → ¬ policy.scope.Covers request.policyRequest →
        policy.Decides (p.evalContext request) .deny →
        ∃ other ∈ before ++ after, other.Decides (p.evalContext request) .deny) := by
  have hchain : p.loadPolicyChain request = .ok chain := huses (.ok chain) hload
  obtain ⟨attached, hhead⟩ : ∃ attached, chain = createGenesisPolicy :: attached := by
    obtain ⟨fuel, hfuel⟩ := hload
    exact PolicyLoader.loadPolicyChain_head (hfuel fuel le_rfl)
  have hkept (before : List PolicyBit) (policy : PolicyBit) (after : List PolicyBit)
      (hsplit : chain = before ++ policy :: after) (hbefore : before ≠ []) :
      (p.withChain (before ++ after)).loadPolicyChain request = .ok (before ++ after) := by
    obtain ⟨genesis, rest, rfl⟩ := List.exists_cons_of_ne_nil hbefore
    obtain ⟨rfl, -⟩ := List.cons.inj (hhead.symm.trans hsplit)
    rfl
  by_cases hgoes : p.GoesOn request
  · -- the decisions are those of the two chains
    have hiff (before : List PolicyBit) (policy : PolicyBit) (after : List PolicyBit)
        (hsplit : chain = before ++ policy :: after) (hbefore : before ≠ []) :
        (p.stageCheck request).map CheckResult.decision =
            ((p.withChain (before ++ after)).stageCheck request).map CheckResult.decision ↔
          (policy.Decides (p.evalContext request) .deny →
            ∃ other ∈ before ++ after, other.Decides (p.evalContext request) .deny) := by
      have hcontext : (p.withChain (before ++ after)).evalContext request =
          p.evalContext request := rfl
      rw [stageCheck_decision hgoes hchain, stageCheck_decision (p := p.withChain (before ++ after))
        hgoes (hkept before policy after hsplit hbefore), hcontext, Except.ok.injEq, hsplit,
        chainDecision_remove]
    constructor
    · intro hrespected _ before policy after hsplit hbefore hscope
      exact (hiff before policy after hsplit hbefore).mp
        (hrespected before policy after hsplit hbefore hscope)
    · intro hdeny before policy after hsplit hbefore hscope
      exact (hiff before policy after hsplit hbefore).mpr
        (hdeny hgoes before policy after hsplit hbefore hscope)
  · refine ⟨fun _ hgoes' => absurd hgoes' hgoes, fun _ => ?_⟩
    intro before policy after _ _ _
    rw [stageCheck_withChain hgoes]

/-! ### A policy for users -/

/-- A circuit with one bit, which decides `d`, as it is stored. -/
def constantCircuitJson (d : Decision) : Json :=
  .object [("id", .string "c"), ("name", .string "c"),
    ("reasoning_bits", .array [.object [("id", .string "b"), ("name", .string "b"),
      ("condition", .object [("Always", .bool true)]), ("on_true", .string d.debug),
      ("on_false", .string d.debug), ("requires_context", .array [])]]),
    ("composition", .string "Sequential"), ("aggregator", .string "All")]

/-- A policy on the creation of users, attached to an app. -/
def userPolicyChip (d : Decision) : ChipData where
  cid := "b3:policy"
  chipType := "ubl/policy.app"
  body := .object [("@type", .string "ubl/policy.app"), ("id", .string "acme.users.v1"),
    ("circuits", .array [constantCircuitJson d]),
    ("scope", .object [("chip_types", .array [.string "ubl/user"]),
      ("operations", .array [.string "create"]), ("level", .string "app")])]
  parents := ["b3:app"]

def userPolicy (d : Decision) : PolicyBit :=
  constantPolicy "acme.users.v1" d ⟨["ubl/user"], ["create"], "app"⟩

/-- A loader that reads circuits of `constantCircuitJson`, and scopes. -/
def sampleLoader (storage : PolicyStorage) : PolicyLoader where
  storage := storage
  genesisChipCid := "b3:genesis"
  circuitsFromValue v :=
    (([.allow, .deny, .require].find? fun d => valueEq v (.array [constantCircuitJson d])).map
      fun d => .ok [.mk "c" "c" [constantBit "b" d] .sequential .all]).getD (.error "")
  scopeFromValue v :=
    let strings (key : String) : Option (List String) :=
      ((v.get key).bind Json.asArray).bind fun items => items.mapM Json.asStr
    match strings "chip_types", strings "operations", (v.get "level").bind Json.asStr with
    | some chipTypes, some operations, some level => .ok ⟨chipTypes, operations, level⟩
    | _, _, _ => .error ""

def userPolicyLoader (d : Decision) : PolicyLoader :=
  sampleLoader (InMemoryPolicyStorage.new.addChip (userPolicyChip d)).storage

/-- A pipeline whose requests all have the policy for users. -/
def userPolicyPipeline (d : Decision) : UblPipeline :=
  { samplePipeline ⟨[], fun _ => none⟩ with attachedPolicies := fun _ => .ok [userPolicy d] }

/-- For a document of the app, the loader comes to the policy for users. -/
theorem loadPolicyChain_userPolicy (d : Decision) :
    Settles (fun fuel => (userPolicyLoader d).loadPolicyChain fuel
      (documentRequest ["b3:app"]).policyRequest) (.ok [createGenesisPolicy, userPolicy d]) := by
  refine ⟨1, fun fuel hle => ?_⟩
  obtain ⟨fuel, rfl⟩ := Nat.exists_eq_add_of_le' hle
  have hancestry : (userPolicyLoader d).resolveAncestry (fuel + 1)
      (documentRequest ["b3:app"]).policyRequest = .ok ["b3:app"] := by
    cases fuel <;> rfl
  have hattached : (userPolicyLoader d).findAttachedPolicies "b3:app" = .ok [userPolicy d] := by
    cases d <;> with_unfolding_all rfl
  simp only [PolicyLoader.loadPolicyChain, hancestry, bind_ok, List.mapM_cons, List.mapM_nil,
    hattached, pure_bind]
  rfl

theorem usesLoader_userPolicy (d : Decision) :
    (userPolicyPipeline d).UsesLoader (userPolicyLoader d) (documentRequest ["b3:app"]) := by
  intro r hr
  have hok := hr.unique (loadPolicyChain_userPolicy d)
  cases r with
  | error e => cases hok
  | ok chain =>
    obtain rfl := Except.ok.inj hok
    rfl

theorem scope_respected_iff_allow :
    (userPolicyPipeline .allow).ScopeRespected (documentRequest ["b3:app"])
      [createGenesisPolicy, userPolicy .allow] := by
  refine (scope_respected_iff (userPolicyPipeline .allow) (userPolicyLoader .allow)
    (documentRequest ["b3:app"]) (usesLoader_userPolicy .allow)
    [createGenesisPolicy, userPolicy .allow] (loadPolicyChain_userPolicy .allow)).mpr ?_
  intro _ before policy after hsplit hbefore _ hdeny
  -- the only policy behind the genesis policy allows
  have hmem : policy ∈ [userPolicy .allow] := by
    obtain ⟨genesis, rest, rfl⟩ := List.exists_cons_of_ne_nil hbefore
    obtain ⟨-, hrest⟩ := List.cons.inj hsplit
    rw [hrest]
    exact List.mem_append_right rest List.mem_cons_self
  obtain rfl := List.mem_singleton.mp hmem
  have heq := (constantPolicy_decides ..).mp hdeny
  cases heq

/-- The policy for users denies a document. -/
theorem scope_ignored : ∃ (p : UblPipeline) (loader : PolicyLoader) (chain : List PolicyBit),
    p.UsesLoader loader (documentRequest ["b3:app"]) ∧
      Settles (fun fuel => loader.loadPolicyChain fuel (documentRequest ["b3:app"]).policyRequest)
        (.ok chain) ∧
      (∀ policy ∈ chain.tail, ¬ policy.scope.Covers (documentRequest ["b3:app"]).policyRequest) ∧
      (p.stageCheck (documentRequest ["b3:app"])).map CheckResult.decision = .ok .deny ∧
      ((p.withChain [createGenesisPolicy]).stageCheck (documentRequest ["b3:app"])).map
        CheckResult.decision = .ok .allow := by
  refine ⟨userPolicyPipeline .deny, userPolicyLoader .deny,
    [createGenesisPolicy, userPolicy .deny], usesLoader_userPolicy .deny,
    loadPolicyChain_userPolicy .deny, ?_, ?_, ?_⟩
  · intro policy hpolicy
    obtain rfl := List.mem_singleton.mp hpolicy
    decide
  · rw [stageCheck_decision ⟨rfl, rfl⟩ rfl, Except.ok.injEq, chainDecision_eq_deny_iff]
    exact ⟨userPolicy .deny, by simp, (constantPolicy_decides ..).mpr rfl⟩
  · have hgoes : ((userPolicyPipeline .deny).withChain [createGenesisPolicy]).GoesOn
        (documentRequest ["b3:app"]) := ⟨rfl, rfl⟩
    rw [stageCheck_decision hgoes rfl, Except.ok.injEq, chainDecision_eq_allow_iff]
    intro policy hpolicy
    obtain rfl := List.mem_singleton.mp hpolicy
    exact genesis_not_deny _

end UblPipeline

end Ubl.Pipeline
