import Ubl.Lib.Hex
import Ubl.Lib.Split
import Ubl.Nrf.Envelope
import Ubl.Pipeline.Durable
import Ubl.Receipt.Tamper

/-!
# `idempotency.rs`: durable keys

The in-memory store looks a request up by the four fields of its key, the durable one by the hash
of the fields with a bar between each two.  A bar inside a field is not escaped, so the text does
not say where the fields end: a key has its durable key for itself just if it has no bar of its own
(`toDurableKey_own_iff`).
-/

namespace Ubl.Pipeline.IdempotencyKey

open Utf8
open Ubl.Nrf (validateWorld asciiText)
open Ubl.Receipt (Crypto)
open Ubl.Receipt.UnifiedReceipt (plainCrypto)

def fields (key : IdempotencyKey) : List String := [key.atType, key.atVer, key.atWorld, key.atId]

/-- No field holds the separator. -/
def BarFree (key : IdempotencyKey) : Prop := ∀ field ∈ key.fields, '|' ∉ field.toList

theorem toList_toStringKey (key : IdempotencyKey) :
    key.toStringKey.toList = ['|'].intercalate (key.fields.map String.toList) := by
  simp [toStringKey, fields, List.intercalate, List.intersperse]

theorem ext_fields {key key' : IdempotencyKey} (h : key.fields = key'.fields) : key = key' := by
  cases key
  cases key'
  simpa [fields] using h

/-- Three bars are those between the fields, the others are inside of them. -/
theorem count_toStringKey (key : IdempotencyKey) :
    key.toStringKey.toList.count '|' = 3 + (key.fields.map fun f => f.toList.count '|').sum := by
  simp [toStringKey, fields]
  omega

theorem barFree_iff_count {key : IdempotencyKey} :
    key.BarFree ↔ key.toStringKey.toList.count '|' = 3 := by
  rw [count_toStringKey, BarFree]
  simp [fields, List.count_eq_zero]

/-- Without bars in the fields the text can be cut into them. -/
theorem BarFree.eq {key key' : IdempotencyKey} (h : key.BarFree)
    (heq : key.toStringKey = key'.toStringKey) : key = key' := by
  have h' : key'.BarFree := by
    rw [barFree_iff_count, ← heq]
    exact barFree_iff_count.mp h
  have hcut {key : IdempotencyKey} (h : key.BarFree) :
      key.toStringKey.toList.splitOn '|' = key.fields.map String.toList := by
    rw [Split.splitOn_eq_iff]
    exact ⟨by simp [fields], List.forall_mem_map.mpr h, key.toList_toStringKey⟩
  have hfields := (hcut h).symm.trans ((congrArg (·.toList.splitOn '|') heq).trans (hcut h'))
  exact ext_fields (List.map_injective_iff.mpr (fun _ _ => String.toList_inj.mp) hfields)

theorem exists_split {s : String} (h : '|' ∈ s.toList) : ∃ x y, s = x ++ "|" ++ y := by
  obtain ⟨xs, ys, hs⟩ := List.append_of_mem h
  refine ⟨String.ofList xs, String.ofList ys, String.toList_inj.mp ?_⟩
  simp [hs]

theorem append_bar_ne (x y : String) : x ++ "|" ++ y ≠ x := by
  intro h
  have hlength := congrArg String.length h
  rw [String.length_append, String.length_append] at hlength
  have hbar : "|".length = 1 := rfl
  omega

theorem bar_append_ne (x y : String) : x ++ "|" ++ y ≠ y := by
  intro h
  have hlength := congrArg String.length h
  rw [String.length_append, String.length_append] at hlength
  have hbar : "|".length = 1 := rfl
  omega

/-- A bar of a field taken for one between two fields gives another key. -/
theorem exists_other {key : IdempotencyKey} (h : ¬ key.BarFree) :
    ∃ key' ≠ key, key'.toStringKey = key.toStringKey := by
  obtain ⟨atType, atVer, atWorld, atId⟩ := key
  simp only [BarFree, fields, List.forall_mem_cons, List.not_mem_nil, false_imp_iff, implies_true,
    and_true, not_and_or, not_not] at h
  rcases h with h | h | h | h
  · obtain ⟨x, y, rfl⟩ := exists_split h
    refine ⟨⟨x, y ++ "|" ++ atVer, atWorld, atId⟩, fun heq => ?_, ?_⟩
    · exact append_bar_ne x y (congrArg atType heq).symm
    · simp [toStringKey, String.append_assoc]
  · obtain ⟨x, y, rfl⟩ := exists_split h
    refine ⟨⟨atType ++ "|" ++ x, y, atWorld, atId⟩, fun heq => ?_, ?_⟩
    · exact bar_append_ne x y (congrArg IdempotencyKey.atVer heq).symm
    · simp [toStringKey, String.append_assoc]
  · obtain ⟨x, y, rfl⟩ := exists_split h
    refine ⟨⟨atType, atVer ++ "|" ++ x, y, atId⟩, fun heq => ?_, ?_⟩
    · exact bar_append_ne x y (congrArg IdempotencyKey.atWorld heq).symm
    · simp [toStringKey, String.append_assoc]
  · obtain ⟨x, y, rfl⟩ := exists_split h
    refine ⟨⟨atType, atVer, atWorld ++ "|" ++ x, y⟩, fun heq => ?_, ?_⟩
    · exact bar_append_ne x y (congrArg IdempotencyKey.atId heq).symm
    · simp [toStringKey, String.append_assoc]

theorem toDurableKey_eq_iff {c : Crypto} (hhash : Function.Injective c.blake3)
    {key key' : IdempotencyKey} :
    key.toDurableKey c = key'.toDurableKey c ↔ key.toStringKey = key'.toStringKey := by
  rw [toDurableKey, toDurableKey, Hex.encode_injective.eq_iff, hhash.eq_iff, utf8_injective.eq_iff]

/-- No other request shares the durable key just if there is no bar in a field. -/
theorem toDurableKey_own_iff (c : Crypto) (hhash : Function.Injective c.blake3)
    (key : IdempotencyKey) :
    (∀ key', key.toDurableKey c = key'.toDurableKey c → key = key') ↔ key.BarFree := by
  constructor
  · intro h
    by_contra hbar
    obtain ⟨key', hne, heq⟩ := exists_other hbar
    exact hne (h key' ((toDurableKey_eq_iff hhash).mpr heq.symm)).symm
  · intro h key' heq
    exact h.eq ((toDurableKey_eq_iff hhash).mp heq)

theorem toDurableKey_own_iff_plain :
    (∀ key' : IdempotencyKey, toDurableKey plainCrypto ⟨"ubl/document", "1.0", "a/acme", "doc-1"⟩ =
        key'.toDurableKey plainCrypto → ⟨"ubl/document", "1.0", "a/acme", "doc-1"⟩ = key') ↔
      BarFree ⟨"ubl/document", "1.0", "a/acme", "doc-1"⟩ :=
  toDurableKey_own_iff plainCrypto (fun _ _ h => h) _

/-- A request of the app `acme`. -/
def acmeBody : Json := .object [("@type", .string "ubl/document"), ("@ver", .string "1.0"),
  ("@world", .string "a/acme"), ("@id", .string "x|doc-1")]

/-- A request of the app `acme|x`. -/
def otherBody : Json := .object [("@type", .string "ubl/document"), ("@ver", .string "1.0"),
  ("@world", .string "a/acme|x"), ("@id", .string "doc-1")]

theorem bar_shares_durable_key :
    ∃ key key', fromChipBody acmeBody = some key ∧ fromChipBody otherBody = some key' ∧
      validateWorld asciiText key.atWorld = .ok () ∧ validateWorld asciiText key'.atWorld = .ok () ∧
      key.toDurableKey plainCrypto = key'.toDurableKey plainCrypto ∧
      key.atWorld ≠ key'.atWorld ∧ key.atId ≠ key'.atId := by
  refine ⟨⟨"ubl/document", "1.0", "a/acme", "x|doc-1"⟩,
    ⟨"ubl/document", "1.0", "a/acme|x", "doc-1"⟩, rfl, rfl, rfl, rfl, ?_, by decide, by decide⟩
  exact (toDurableKey_eq_iff fun _ _ h => h).mpr (by decide)

end Ubl.Pipeline.IdempotencyKey
