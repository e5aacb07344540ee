import Ubl.Chipstore.Store
import Ubl.Lib.ExceptLemmas

/-!
# `meta_chip.rs`: the bodies of meta-chips

A type is registered with a schema and tests, described anew, and deprecated.  The parsers take the
fields one after the other; the schema and the tests are read by serde.

A registration names no type of the reserved prefixes and has a test, and every test is an input of
the type (`parseRegister_ok`).
-/

namespace Ubl.Pipeline

open Chipstore (strField)
open ExceptLemmas

/-! ## Structs as serde reads them -/

namespace Serde

/-- The value for a field: by name in an object, by position in an array. -/
def fieldOf (name : String) (position : Nat) : Json → Option Json
  | .object members => (Json.object members).get name
  | .array items => items[position]?
  | _ => none

/-- An object, or an array of no more values than there are fields. -/
def isStruct (fields : Nat) : Json → Bool
  | .object _ => true
  | .array items => items.length ≤ fields
  | _ => false

variable {α : Type} (cast : Json → Option α) (v : Json) (name : String) (position : Nat)

def required : Option α := (fieldOf name position v).bind cast

/-- `#[serde(default)]`. -/
def defaulted (default : α) : Option α :=
  match fieldOf name position v with
  | none => some default
  | some w => cast w

/-- `Option<T>`: null is none. -/
def optional : Json → Option (Option α)
  | .null => some none
  | w => (cast w).map some

/-- `Vec<T>`. -/
def vec (v : Json) : Option (List α) := v.asArray.bind (·.mapM cast)

end Serde

open Serde

/-! ## The parts of a type -/

structure Kat where
  label : String
  input : Json
  expectedDecision : String
  expectedError : Option String

structure SchemaField where
  name : String
  fieldType : String
  description : String

structure TypeSchema where
  requiredFields : List SchemaField
  optionalFields : List SchemaField
  requiredCap : Option String

def katOf (v : Json) : Option Kat :=
  if isStruct 4 v then do
    let label ← required Json.asStr v "label" 0
    let input ← required some v "input" 1
    let expectedDecision ← required Json.asStr v "expected_decision" 2
    let expectedError ← defaulted (optional Json.asStr) v "expected_error" 3 none
    pure ⟨label, input, expectedDecision, expectedError⟩
  else none

def schemaFieldOf (v : Json) : Option SchemaField :=
  if isStruct 3 v then do
    let name ← required Json.asStr v "name" 0
    let fieldType ← required Json.asStr v "field_type" 1
    let description ← defaulted Json.asStr v "description" 2 ""
    pure ⟨name, fieldType, description⟩
  else none

def typeSchemaOf (v : Json) : Option TypeSchema :=
  if isStruct 3 v then do
    let requiredFields ← required (vec schemaFieldOf) v "required_fields" 0
    let optionalFields ← defaulted (vec schemaFieldOf) v "optional_fields" 1 []
    let requiredCap ← defaulted (optional Json.asStr) v "required_cap" 2 none
    pure ⟨requiredFields, optionalFields, requiredCap⟩
  else none

/-- `skip_serializing_if = "Option::is_none"`. -/
def skipNone (name : String) (value : Option String) : List (String × Json) :=
  (value.map fun s => (name, Json.string s)).toList

def Kat.toJson (kat : Kat) : Json :=
  .object ([("label", .string kat.label), ("input", kat.input),
    ("expected_decision", .string kat.expectedDecision)] ++
    skipNone "expected_error" kat.expectedError)

def SchemaField.toJson (field : SchemaField) : Json :=
  .object [("name", .string field.name), ("field_type", .string field.fieldType),
    ("description", .string field.description)]

def TypeSchema.toJson (schema : TypeSchema) : Json :=
  .object ([("required_fields", .array (schema.requiredFields.map SchemaField.toJson)),
    ("optional_fields", .array (schema.optionalFields.map SchemaField.toJson))] ++
    skipNone "required_cap" schema.requiredCap)

/-! ## The chips -/

structure RegisterChip where
  targetType : String
  description : String
  schema : TypeSchema
  kats : List Kat
  typeVersion : String

structure DescribeChip where
  targetType : String
  description : String
  docsUrl : Option String
  kats : List Kat

structure DeprecateChip where
  targetType : String
  reason : String
  replacementType : Option String
  sunsetAt : Option String

inductive MetaChipError where
  | missingField (name : String)
  | invalidField (msg : String)
  | noKats
  | invalidKat (msg : String)
  | reservedPrefix (typePrefix : String)
deriving DecidableEq

def MetaChipError.text : MetaChipError → String
  | .missingField name => "missing required field: " ++ name
  | .invalidField msg => "invalid field: " ++ msg
  | .noKats => "at least one KAT is required for type registration"
  | .invalidKat msg => "invalid KAT: " ++ msg
  | .reservedPrefix typePrefix => "type prefix '" ++ typePrefix ++ "' is reserved"

def RESERVED_PREFIXES : List String := ["ubl/", "ubl/meta."]

/-- What serde says of a value that is no schema, or no test. -/
structure MetaLib where
  schemaText : Json → String
  katText : Json → String

/-- `.get(name).and_then(as_str).ok_or_else(MissingField(name))`. -/
def strOrMissing (body : Json) (name : String) : Except MetaChipError String :=
  match strField body name with
  | some s => .ok s
  | none => .error (.missingField name)

variable (lib : MetaLib)

def checkReserved (targetType : String) : Except MetaChipError Unit :=
  match RESERVED_PREFIXES.find? fun reserved => reserved.toList.isPrefixOf targetType.toList with
  | some reserved => .error (.reservedPrefix reserved)
  | none => .ok ()

def parseSchema (body : Json) : Except MetaChipError TypeSchema :=
  match body.get "schema" with
  | none => .error (.missingField "schema")
  | some value =>
    match typeSchemaOf value with
    | none => .error (.invalidField ("schema: " ++ lib.schemaText value))
    | some schema => .ok schema

/-- The tests from the `i`-th on. -/
def parseKats : Nat → List Json → Except MetaChipError (List Kat)
  | _, [] => .ok []
  | i, v :: vs =>
    match katOf v with
    | none => .error (.invalidKat ("KAT[" ++ toString i ++ "]: " ++ lib.katText v))
    | some kat => do
      let kats ← parseKats (i + 1) vs
      .ok (kat :: kats)

/-- The tests from the `i`-th on are inputs of the type. -/
def checkKats (targetType : String) : Nat → List Kat → Except MetaChipError Unit
  | _, [] => .ok ()
  | i, kat :: kats =>
    let katType := (strField kat.input "@type").getD ""
    if katType ≠ targetType then
      .error (.invalidKat ("KAT[" ++ toString i ++ "]: @type '" ++ katType ++
        "' doesn't match target_type '" ++ targetType ++ "'"))
    else checkKats targetType (i + 1) kats

def parseRegister (body : Json) : Except MetaChipError RegisterChip := do
  let targetType ← strOrMissing body "target_type"
  checkReserved targetType
  let description ← strOrMissing body "description"
  let schema ← parseSchema lib body
  match (body.get "kats").bind Json.asArray with
  | none => .error .noKats
  | some [] => .error .noKats
  | some (v :: vs) => do
    let kats ← parseKats lib 0 (v :: vs)
    checkKats targetType 0 kats
    .ok ⟨targetType, description, schema, kats, (strField body "type_version").getD "1.0"⟩

/-- Tests that cannot be read are left out. -/
def parseDescribe (body : Json) : Except MetaChipError DescribeChip := do
  let targetType ← strOrMissing body "target_type"
  let description ← strOrMissing body "description"
  .ok ⟨targetType, description, strField body "docs_url",
    (((body.get "kats").bind Json.asArray).getD []).filterMap katOf⟩

def parseDeprecate (body : Json) : Except MetaChipError DeprecateChip := do
  let targetType ← strOrMissing body "target_type"
  let reason ← strOrMissing body "reason"
  .ok ⟨targetType, reason, strField body "replacement_type", strField body "sunset_at"⟩

/-! ## What is accepted -/

section Accepted

variable {lib : MetaLib} {body : Json}

theorem strOrMissing_eq_ok {name s : String} :
    strOrMissing body name = .ok s ↔ strField body name = some s := by
  unfold strOrMissing
  split <;> simp_all

theorem checkReserved_eq_ok {targetType : String} (h : checkReserved targetType = .ok ()) :
    ∀ reserved ∈ RESERVED_PREFIXES, ¬ reserved.toList <+: targetType.toList := by
  unfold checkReserved at h
  split at h
  · cases h
  · rename_i hnone
    intro reserved hreserved hprefix
    exact List.find?_eq_none.mp hnone reserved hreserved (List.isPrefixOf_iff_prefix.mpr hprefix)

theorem length_of_parseKats {i : Nat} {vs : List Json} {kats : List Kat}
    (h : parseKats lib i vs = .ok kats) : kats.length = vs.length := by
  induction vs generalizing i kats with
  | nil =>
    obtain rfl := Except.ok.inj h
    rfl
  | cons v vs ih =>
    unfold parseKats at h
    split at h
    · cases h
    · obtain ⟨rest, hrest, h⟩ := bind_eq_ok.mp h
      obtain rfl := Except.ok.inj h
      exact congrArg Nat.succ (ih hrest)

theorem type_of_checkKats {targetType : String} {i : Nat} {kats : List Kat}
    (h : checkKats targetType i kats = .ok ()) :
    ∀ kat ∈ kats, (strField kat.input "@type").getD "" = targetType := by
  induction kats generalizing i with
  | nil => simp
  | cons kat kats ih =>
    unfold checkKats at h
    obtain ⟨htype, hrest⟩ := ite_error_eq_ok.mp h
    exact List.forall_mem_cons.mpr ⟨not_ne_iff.mp htype, ih hrest⟩

/-- What a registration that is accepted says. -/
theorem parseRegister_ok {parsed : RegisterChip} (h : parseRegister lib body = .ok parsed) :
    strField body "target_type" = some parsed.targetType ∧
      (∀ reserved ∈ RESERVED_PREFIXES, ¬ reserved.toList <+: parsed.targetType.toList) ∧
      parsed.kats ≠ [] ∧
      ∀ kat ∈ parsed.kats, (strField kat.input "@type").getD "" = parsed.targetType := by
  unfold parseRegister at h
  obtain ⟨targetType, htarget, h⟩ := bind_eq_ok.mp h
  obtain ⟨_, hreserved, h⟩ := bind_eq_ok.mp h
  obtain ⟨description, -, h⟩ := bind_eq_ok.mp h
  obtain ⟨schema, -, h⟩ := bind_eq_ok.mp h
  split at h
  · cases h
  · cases h
  · obtain ⟨kats, hkats, h⟩ := bind_eq_ok.mp h
    obtain ⟨_, htypes, h⟩ := bind_eq_ok.mp h
    obtain rfl := Except.ok.inj h
    refine ⟨strOrMissing_eq_ok.mp htarget, checkReserved_eq_ok hreserved, ?_, type_of_checkKats htypes⟩
    rintro rfl
    cases length_of_parseKats hkats

end Accepted

end Ubl.Pipeline
