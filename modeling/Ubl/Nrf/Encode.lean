import Ubl.Lib.AssocMap
import Ubl.Lib.BigEndian
import Ubl.Lib.Utf8
import Ubl.Nrf.Varint

/-!
# `nrf.rs`: NRF values and their canonical bytes

A `NrfValue` map is the list of its entries in iteration order; a `BTreeMap`
iterates in ascending key order, so the values the source can hold are the
`WellFormed` ones.  `encodeToVec` is the magic followed by `encodeValue`.
-/

namespace Ubl.Nrf

open AssocMap BigEndian Utf8

inductive NrfValue where
  | null
  | bool (b : Bool)
  | int (i : Int64)
  | string (s : String)
  | bytes (b : List UInt8)
  | array (items : List NrfValue)
  | map (entries : List (String × NrfValue))

def MAGIC : List UInt8 := [0x6e, 0x72, 0x66, 0x31]
@[simp] def TAG_NULL : UInt8 := 0x00
@[simp] def TAG_FALSE : UInt8 := 0x01
@[simp] def TAG_TRUE : UInt8 := 0x02
@[simp] def TAG_INT64 : UInt8 := 0x03
@[simp] def TAG_STRING : UInt8 := 0x04
@[simp] def TAG_BYTES : UInt8 := 0x05
@[simp] def TAG_ARRAY : UInt8 := 0x06
@[simp] def TAG_MAP : UInt8 := 0x07

/-! ## Algorithm -/

/-- `i64::to_be_bytes`. -/
def i64ToBE (i : Int64) : List UInt8 := toBE 8 i.toUInt64.toNat

/-- `i64::from_be_bytes`. -/
def i64OfBE (b : List UInt8) : Int64 := (UInt64.ofNat (ofBE b)).toInt64

def encodeString (s : String) : List UInt8 :=
  TAG_STRING :: (encodeVarint32 (UInt32.ofNat s.utf8ByteSize) ++ utf8 s)

mutual

def encodeValue : NrfValue → List UInt8
  | .null => [TAG_NULL]
  | .bool false => [TAG_FALSE]
  | .bool true => [TAG_TRUE]
  | .int i => TAG_INT64 :: i64ToBE i
  | .string s => encodeString s
  | .bytes b => TAG_BYTES :: (encodeVarint32 (UInt32.ofNat b.length) ++ b)
  | .array items =>
    TAG_ARRAY :: (encodeVarint32 (UInt32.ofNat items.length) ++ encodeItems items)
  | .map entries =>
    TAG_MAP :: (encodeVarint32 (UInt32.ofNat entries.length) ++ encodeEntries entries)

def encodeItems : List NrfValue → List UInt8
  | [] => []
  | v :: items => encodeValue v ++ encodeItems items

def encodeEntries : List (String × NrfValue) → List UInt8
  | [] => []
  | (k, v) :: entries => encodeString k ++ (encodeValue v ++ encodeEntries entries)

end

def encodeToVec (v : NrfValue) : Except NrfError (List UInt8) := .ok (MAGIC ++ encodeValue v)

/-! ## Induction and predicates that hold at every depth -/

/-- Induction over a value: items and entry values come first. -/
theorem NrfValue.ind {P : NrfValue → Prop} (null : P .null) (bool : ∀ b, P (.bool b))
    (int : ∀ i, P (.int i)) (string : ∀ s, P (.string s)) (bytes : ∀ b, P (.bytes b))
    (array : ∀ items : List NrfValue, (∀ v ∈ items, P v) → P (.array items))
    (map : ∀ entries : List (String × NrfValue), (∀ e ∈ entries, P e.2) → P (.map entries)) :
    ∀ v, P v := by
  intro v
  refine @NrfValue.rec P (fun items => ∀ v ∈ items, P v) (fun entries => ∀ e ∈ entries, P e.2)
    (fun e => P e.2) null bool int string bytes array map ?_ ?_ ?_ ?_ ?_ v
  · simp
  · intro v items hv hitems
    simpa using ⟨hv, hitems⟩
  · simp
  · intro e entries he hentries f hf
    rcases List.mem_cons.mp hf with rfl | hf
    · exact he
    · exact hentries f hf
  · intro k v hv
    exact hv

/-- `P` holds of the value and of every value inside it. -/
inductive NrfValue.Everywhere (P : NrfValue → Prop) : NrfValue → Prop where
  | null (h : P .null) : Everywhere P .null
  | bool (b : Bool) (h : P (.bool b)) : Everywhere P (.bool b)
  | int (i : Int64) (h : P (.int i)) : Everywhere P (.int i)
  | string (s : String) (h : P (.string s)) : Everywhere P (.string s)
  | bytes (b : List UInt8) (h : P (.bytes b)) : Everywhere P (.bytes b)
  | array (items : List NrfValue) (h : P (.array items))
      (hi : ∀ v ∈ items, Everywhere P v) : Everywhere P (.array items)
  | map (entries : List (String × NrfValue)) (h : P (.map entries))
      (hi : ∀ e ∈ entries, Everywhere P e.2) : Everywhere P (.map entries)

namespace NrfValue

theorem Everywhere.here {P : NrfValue → Prop} {v : NrfValue} (h : Everywhere P v) : P v := by
  cases h <;> assumption

section

variable {P : NrfValue → Prop}

@[simp] theorem everywhere_null : Everywhere P .null ↔ P .null :=
  ⟨Everywhere.here, .null⟩

@[simp] theorem everywhere_bool {b : Bool} : Everywhere P (.bool b) ↔ P (.bool b) :=
  ⟨Everywhere.here, .bool b⟩

@[simp] theorem everywhere_int {i : Int64} : Everywhere P (.int i) ↔ P (.int i) :=
  ⟨Everywhere.here, .int i⟩

@[simp] theorem everywhere_string {s : String} : Everywhere P (.string s) ↔ P (.string s) :=
  ⟨Everywhere.here, .string s⟩

@[simp] theorem everywhere_bytes {b : List UInt8} : Everywhere P (.bytes b) ↔ P (.bytes b) :=
  ⟨Everywhere.here, .bytes b⟩

@[simp] theorem everywhere_array {items : List NrfValue} :
    Everywhere P (.array items) ↔ P (.array items) ∧ ∀ v ∈ items, Everywhere P v := by
  constructor
  · rintro ⟨⟩
    exact ⟨by assumption, by assumption⟩
  · rintro ⟨h, hi⟩
    exact .array items h hi

@[simp] theorem everywhere_map {entries : List (String × NrfValue)} :
    Everywhere P (.map entries) ↔ P (.map entries) ∧ ∀ e ∈ entries, Everywhere P e.2 := by
  constructor
  · rintro ⟨⟩
    exact ⟨by assumption, by assumption⟩
  · rintro ⟨h, hi⟩
    exact .map entries h hi

end

/-- Every map holds its entries in ascending key order, as a `BTreeMap` does. -/
def WellFormed (v : NrfValue) : Prop :=
  Everywhere (fun
    | .map entries => Ascending entries
    | _ => True) v

/-- Byte lengths and counts fit the `u32` of the wire. -/
def Fits (v : NrfValue) : Prop :=
  Everywhere (fun
    | .string s => s.utf8ByteSize < 2 ^ 32
    | .bytes b => b.length < 2 ^ 32
    | .array items => items.length < 2 ^ 32
    | .map entries => entries.length < 2 ^ 32 ∧ ∀ e ∈ entries, e.1.utf8ByteSize < 2 ^ 32
    | _ => True) v

end NrfValue

/-! ## Lengths -/

theorem toNat_ofNat_u32 {n : Nat} (h : n < 2 ^ 32) : (UInt32.ofNat n).toNat = n :=
  UInt32.toNat_ofNat_of_lt' (by simpa [UInt32.size] using h)

theorem length_encodeValue_le_items {v : NrfValue} {items : List NrfValue} (h : v ∈ items) :
    (encodeValue v).length ≤ (encodeItems items).length := by
  induction items with
  | nil => cases h
  | cons w items ih =>
    rw [encodeItems, List.length_append]
    rcases List.mem_cons.mp h with rfl | h
    · omega
    · have := ih h
      omega

theorem length_encodeValue_le_entries {e : String × NrfValue} {entries : List (String × NrfValue)}
    (h : e ∈ entries) :
    (encodeString e.1).length + (encodeValue e.2).length ≤ (encodeEntries entries).length := by
  induction entries with
  | nil => cases h
  | cons f entries ih =>
    rw [encodeEntries, List.length_append, List.length_append]
    rcases List.mem_cons.mp h with rfl | h
    · omega
    · have := ih h
      omega

theorem i64OfBE_i64ToBE (i : Int64) : i64OfBE (i64ToBE i) = i := by
  unfold i64OfBE i64ToBE
  rw [ofBE_toBE_of_lt (by simpa using i.toUInt64.toNat_lt), UInt64.ofNat_toNat]
  rfl

theorem i64ToBE_i64OfBE {b : List UInt8} (h : b.length = 8) : i64ToBE (i64OfBE b) = b := by
  have hlt := ofBE_lt b
  rw [h] at hlt
  have htoNat : (i64OfBE b).toUInt64.toNat = ofBE b := by
    show (UInt64.ofNat (ofBE b)).toNat = ofBE b
    exact UInt64.toNat_ofNat_of_lt' (by simpa [UInt64.size] using hlt)
  rw [i64ToBE, htoNat, toBE_ofBE b h]

end Ubl.Nrf
