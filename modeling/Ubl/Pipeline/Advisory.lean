import Ubl.Json
import Ubl.Receipt.Unified

/-!
# `advisory.rs`: the chips an advisory engine attaches
-/

namespace Ubl.Pipeline

inductive AdvisoryHook where
  | postCheck
  | postWf
  | onDemand
deriving DecidableEq

def AdvisoryHook.text : AdvisoryHook → String
  | .postCheck => "post_check"
  | .postWf => "post_wf"
  | .onDemand => "on_demand"

structure Advisory where
  passportCid : String
  action : String
  inputCid : String
  output : Json
  confidence : Int64
  model : String
  hook : AdvisoryHook

def Advisory.toChipBody (a : Advisory) (id world : String) : Json :=
  .object [("@type", .string "ubl/advisory"), ("@id", .string id), ("@ver", .string "1.0"),
    ("@world", .string world), ("passport_cid", .string a.passportCid),
    ("action", .string a.action), ("input_cid", .string a.inputCid), ("output", a.output),
    ("confidence", .number (.ofI64 a.confidence)), ("model", .string a.model),
    ("hook", .string a.hook.text)]

/-- The counter of the engine is part of the state of the pipeline. -/
structure AdvisoryEngine where
  passportCid : String
  model : String
  world : String

def nextId (n : Nat) : String := "advisory-" ++ toString n

/-- `str::to_uppercase` on the two decisions that occur. -/
def upperDecision (decision : String) : String := String.ofList (decision.toList.map Char.toUpper)

def classifyChipType (chipType : String) : String :=
  let startsWith (label : String) : Bool := label.toList.isPrefixOf chipType.toList
  if startsWith "ubl/user" then "identity"
  else if startsWith "ubl/token" then "auth"
  else if startsWith "ubl/policy" then "governance"
  else if startsWith "ubl/ai.passport" then "ai_identity"
  else if startsWith "ubl/advisory" then "ai_advisory"
  else if startsWith "ubl/app" then "application"
  else if startsWith "ubl/tenant" then "tenant"
  else "general"

namespace AdvisoryEngine

variable (engine : AdvisoryEngine)

def postCheckAdvisory (inputCid decision reason : String) (policyCount : Nat) : Advisory where
  passportCid := engine.passportCid
  action := "explain_check"
  inputCid := inputCid
  output := .object [("decision", .string decision), ("reason", .string reason),
    ("policy_count", .number (.posInt (UInt64.ofNat policyCount))),
    ("narration", .string ("Policy evaluation resulted in " ++ upperDecision decision ++ ". " ++
      reason))]
  confidence := if decision = "deny" then 95 else 85
  model := engine.model
  hook := .postCheck

def postWfAdvisory (inputCid chipType decision : String) (durationMs : Int64) : Advisory where
  passportCid := engine.passportCid
  action := "classify"
  inputCid := inputCid
  output := .object [("category", .string (classifyChipType chipType)),
    ("chip_type", .string chipType), ("decision", .string decision),
    ("duration_ms", .number (.ofI64 durationMs)),
    ("summary", .string (chipType ++ " chip processed in " ++ toString durationMs ++ "ms → " ++
      upperDecision decision))]
  confidence := 90
  model := engine.model
  hook := .postWf

end AdvisoryEngine

theorem Advisory.toChipBody_type (a : Advisory) (id world : String) :
    ((a.toChipBody id world).get "@type").bind Json.asStr = some "ubl/advisory" := rfl

end Ubl.Pipeline
