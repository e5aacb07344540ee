import Ubl.Json

/-!
# Reasoning bits, circuits and policies

The interpreter of the policy engine: an `Expression` is evaluated in a context, a reasoning bit
turns its value into a decision, a circuit composes and aggregates the decisions of its bits, a
policy stops at the first circuit that denies.  Durations are left out of the results.
-/

namespace Ubl.Policy

inductive Decision where
  | allow
  | deny
  | require
deriving DecidableEq

/-- `format!("{:?}", decision)`. -/
def Decision.debug : Decision → String
  | .allow => "Allow"
  | .deny => "Deny"
  | .require => "Require"

/-! ## Equality of JSON values -/

/-- A double that is zero of either sign. -/
def f64IsZero (bits : UInt64) : Bool := bits <<< 1 == 0

/-- `Number` compared by `PartialEq`; neither double is NaN. -/
def numberEq : Number → Number → Bool
  | .posInt a, .posInt b => a == b
  | .negInt a _, .negInt b _ => a == b
  | .float a _, .float b _ => a == b || f64IsZero a && f64IsZero b
  | _, _ => false

mutual

/-- `Value` compared by `PartialEq`: the order of the members does not count. -/
def valueEq : Json → Json → Bool
  | .null, .null => true
  | .bool a, .bool b => a == b
  | .number a, .number b => numberEq a b
  | .string a, .string b => a == b
  | .array xs, .array ys => itemsEq xs ys
  | .object xs, .object ys => xs.length == ys.length && membersEq xs ys
  | _, _ => false

def itemsEq : List Json → List Json → Bool
  | [], [] => true
  | x :: xs, y :: ys => valueEq x y && itemsEq xs ys
  | _, _ => false

/-- Every member of the first list is in the second, with an equal value. -/
def membersEq : List (String × Json) → List (String × Json) → Bool
  | [], _ => true
  | (k, x) :: xs, ys =>
    (match ys.lookup k with
      | some y => valueEq x y
      | none => false) && membersEq xs ys

end

/-! ## Reasoning bits -/

inductive Expression where
  | always (value : Bool)
  | contextHas (key : String)
  | contextEquals (key : String) (expected : Json)
  | bodySizeLte (limit : UInt64)
  | typeEquals (chipType : String)
  | and (expressions : List Expression)
  | or (expressions : List Expression)
  | not (expr : Expression)

structure EvalContext where
  chip : Json
  bodySize : UInt64
  vars : List (String × Json)

mutual

def Expression.evaluate (context : EvalContext) : Expression → Bool
  | .always value => value
  | .contextHas key => (context.vars.lookup key).isSome
  | .contextEquals key expected =>
    ((context.vars.lookup key).map fun v => valueEq v expected).getD false
  | .bodySizeLte limit => decide (context.bodySize ≤ limit)
  | .typeEquals expectedType =>
    (((context.chip.get "@type").bind Json.asStr).map fun t => t == expectedType).getD false
  | .and expressions => Expression.evaluateAll context expressions
  | .or expressions => Expression.evaluateAny context expressions
  | .not expr => !(Expression.evaluate context expr)

def Expression.evaluateAll (context : EvalContext) : List Expression → Bool
  | [] => true
  | e :: es => Expression.evaluate context e && Expression.evaluateAll context es

def Expression.evaluateAny (context : EvalContext) : List Expression → Bool
  | [] => false
  | e :: es => Expression.evaluate context e || Expression.evaluateAny context es

end

mutual

def Expression.collectInputs : Expression → List String
  | .contextHas key => [key]
  | .contextEquals key _ => [key]
  | .typeEquals _ => ["@type"]
  | .and exprs => Expression.collectAllInputs exprs
  | .or exprs => Expression.collectAllInputs exprs
  | .not expr => Expression.collectInputs expr
  | .always _ => []
  | .bodySizeLte _ => []

def Expression.collectAllInputs : List Expression → List String
  | [] => []
  | e :: es => Expression.collectInputs e ++ Expression.collectAllInputs es

end

/-- Sorted, with neighbours that are equal merged. -/
def Expression.inputsUsed (e : Expression) : List String :=
  (e.collectInputs.mergeSort (· ≤ ·)).destutter (· ≠ ·)

structure ReasoningBit where
  id : String
  name : String
  condition : Expression
  onTrue : Decision
  onFalse : Decision
  requiresContext : List String

structure RbResult where
  rbId : String
  decision : Decision
  reason : String
  inputsUsed : List String

def ReasoningBit.evaluate (rb : ReasoningBit) (context : EvalContext) : RbResult :=
  let conditionResult := rb.condition.evaluate context
  let decision := if conditionResult then rb.onTrue else rb.onFalse
  ⟨rb.id, decision,
    rb.name ++ " evaluated to " ++ toString conditionResult ++ " → " ++ decision.debug,
    rb.condition.inputsUsed⟩

/-! ## Circuits -/

inductive AggregationMode where
  | all
  | any
  | majority
  | kOfN (k n : UInt64)
  | firstDecisive
deriving DecidableEq

mutual

inductive CompositionMode where
  | sequential
  | parallel
  | conditional (branches : List ConditionalBranch)

inductive ConditionalBranch where
  | mk (condition : Expression) (thenCircuit : Circuit) (elseCircuit : Option Circuit)

inductive Circuit where
  | mk (id name : String) (reasoningBits : List ReasoningBit) (composition : CompositionMode)
      (aggregator : AggregationMode)

end

structure CircuitResult where
  circuitId : String
  decision : Decision
  reason : String
  rbResults : List RbResult
  shortCircuited : Bool

/-- The ids of the results with a decision, as the reasons list them. -/
def rbIds (d : Decision) (results : List RbResult) : String :=
  ", ".intercalate ((results.filter fun r => r.decision = d).map RbResult.rbId)

/-- How many results came to a decision. -/
def countOf (d : Decision) (results : List RbResult) : Nat :=
  (results.filter fun r => r.decision = d).length

theorem countOf_cons (d : Decision) (r : RbResult) (results : List RbResult) :
    countOf d (r :: results) = (if r.decision = d then 1 else 0) + countOf d results := by
  unfold countOf
  rw [List.filter_cons]
  by_cases h : r.decision = d
  · rw [if_pos (decide_eq_true h), if_pos h, List.length_cons, Nat.add_comm]
  · rw [if_neg (by simpa using h), if_neg h, Nat.zero_add]

def aggregateResults (id : String) (aggregator : AggregationMode) (results : List RbResult) :
    CircuitResult :=
  if results = [] then ⟨id, .allow, "No reasoning bits to evaluate", [], false⟩
  else
    let allows := countOf .allow results
    let total := results.length
    let (decision, reason) :=
      match aggregator with
      | .all =>
        if countOf .deny results ≠ 0 then
          (Decision.deny, "Denied by: " ++ rbIds .deny results)
        else if countOf .require results ≠ 0 then
          (.require, "Requires consent from: " ++ rbIds .require results)
        else (.allow, "All reasoning bits allowed")
      | .any =>
        if allows ≠ 0 then (.allow, "Allowed by: " ++ rbIds .allow results)
        else (.deny, "No reasoning bit allowed")
      | .majority =>
        if allows > total / 2 then
          (.allow, "Majority allowed (" ++ toString allows ++ "/" ++ toString total ++ ")")
        else
          (.deny, "Majority denied (" ++ toString (total - allows) ++ "/" ++ toString total ++ ")")
      | .kOfN k n =>
        if allows ≥ k.toNat then
          (.allow, "K-of-N satisfied (" ++ toString allows ++ "/" ++ toString n.toNat ++ ")")
        else
          (.deny, "K-of-N not satisfied (" ++ toString allows ++ "/" ++ toString n.toNat ++
            ", need " ++ toString k.toNat ++ ")")
      | .firstDecisive =>
        match results.find? fun r => r.decision ≠ .require with
        | some r => (r.decision, "First decisive: " ++ r.reason)
        | none => (.require, "All reasoning bits require consent")
    ⟨id, decision, reason, results, false⟩

/-- The loop of `evaluate_sequential`; `done` are the results before it. -/
def sequentialLoop (id : String) (aggregator : AggregationMode) (context : EvalContext)
    (done : List RbResult) : List ReasoningBit → CircuitResult
  | [] => aggregateResults id aggregator done
  | rb :: rbs =>
    let result := rb.evaluate context
    if result.decision = .deny then
      ⟨id, .deny, "Denied by " ++ result.rbId ++ ": " ++ result.reason, done ++ [result], true⟩
    else sequentialLoop id aggregator context (done ++ [result]) rbs

mutual

def Circuit.evaluate (context : EvalContext) : Circuit → CircuitResult
  | .mk id _ bits .sequential aggregator => sequentialLoop id aggregator context [] bits
  | .mk id _ bits .parallel aggregator =>
    aggregateResults id aggregator (bits.map fun rb => rb.evaluate context)
  | .mk id _ _ (.conditional branches) _ =>
    match firstBranch context branches with
    | some result => { result with circuitId := id }
    | none =>
      match elseOfFirst context branches with
      | some result => { result with circuitId := id }
      | none => ⟨id, .deny, "No matching condition in conditional circuit", [], false⟩

/-- The circuit of the first branch whose condition holds. -/
def firstBranch (context : EvalContext) : List ConditionalBranch → Option CircuitResult
  | [] => none
  | .mk condition thenCircuit _ :: branches =>
    if condition.evaluate context then some (Circuit.evaluate context thenCircuit)
    else firstBranch context branches

/-- The else circuit of the first branch. -/
def elseOfFirst (context : EvalContext) : List ConditionalBranch → Option CircuitResult
  | .mk _ _ (some elseCircuit) :: _ => some (Circuit.evaluate context elseCircuit)
  | _ => none

end

/-! ## Policies -/

/-- Where a policy applies. -/
structure PolicyScope where
  chipTypes : List String
  operations : List String
  level : String

structure PolicyBit where
  id : String
  name : String
  circuits : List Circuit
  scope : PolicyScope

structure PolicyResult where
  policyId : String
  decision : Decision
  reason : String
  circuitResults : List CircuitResult
  shortCircuited : Bool

/-- The loop of `PolicyBit::evaluate`: stops at the first circuit that denies. -/
def policyLoop (id : String) (context : EvalContext) (done : List CircuitResult) :
    List Circuit → PolicyResult
  | [] => ⟨id, .allow, "All circuits allowed", done, false⟩
  | circuit :: circuits =>
    let result := circuit.evaluate context
    if result.decision = .deny then ⟨id, .deny, result.reason, done ++ [result], true⟩
    else policyLoop id context (done ++ [result]) circuits

def PolicyBit.evaluate (p : PolicyBit) (context : EvalContext) : PolicyResult :=
  policyLoop p.id context [] p.circuits

end Ubl.Policy
