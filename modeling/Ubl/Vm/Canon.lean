import Ubl.Nrf.FromJson

/-!
# `ubl_vm`: the canon provider

`RhoCanon` is the best-effort canonicalisation of the pipeline: a string that passes
`validate_string` becomes its NFC form and any other is kept, a null member is dropped,
members are sorted by their raw key.  It is total, and on an object it acts member by member
(`get_rho`).
-/

namespace Ubl.Vm

open AssocMap
open Ubl.Nrf (Text hasBom containsControlChar present asciiText)

/-- `RhoCanon::validate_string`. -/
def validateString (t : Text) (s : String) : Except String String :=
  if s.toList.contains '\ufeff' then .error "BOM present in string"
  else if containsControlChar s then .error "Control character present in string"
  else .ok (t.nfc s)

/-- What `rho` makes of a string. -/
def rhoString (t : Text) (s : String) : String :=
  match validateString t s with
  | .ok normalized => normalized
  | .error _ => s

mutual

/-- `RhoCanon::rho`. -/
def rho (t : Text) : Json → Json
  | .null => .null
  | .bool b => .bool b
  | .number n => .number n
  | .string s => .string (rhoString t s)
  | .array items => .array (rhoItems t items)
  | .object members => .object (rhoMembers t members)

def rhoItems (t : Text) : List Json → List Json
  | [] => []
  | v :: items => rho t v :: rhoItems t items

/-- Sorting the pairs and inserting what is left of them is done in one pass. -/
def rhoMembers (t : Text) : List (String × Json) → List (String × Json)
  | [] => []
  | (k, v) :: members =>
    if v.isNull then rhoMembers t members
    else sortedInsert k (rho t v) (rhoMembers t members)

end

theorem lookup_rhoMembers (t : Text) {members : List (String × Json)}
    (hd : DistinctKeys members) (k : String) :
    (rhoMembers t members).lookup k = (present members k).map (rho t) := by
  induction members with
  | nil => simp [rhoMembers, present]
  | cons e members ih =>
    obtain ⟨k₀, v⟩ := e
    obtain ⟨hk₀, hd'⟩ := List.nodup_cons.mp hd
    have hnone : present members k₀ = none := by
      rw [present, lookup_none hk₀, Option.filter_none]
    rw [rhoMembers, present, lookup_cons_eq]
    by_cases hk : k = k₀
    · subst hk
      by_cases hnull : v.isNull
      · rw [if_pos hnull, if_pos rfl, ih hd', hnone]
        simp [Option.filter_some, hnull]
      · rw [if_neg hnull, if_pos rfl, lookup_sortedInsert, if_pos rfl]
        simp [Option.filter_some, hnull]
    · rw [if_neg hk]
      by_cases hnull : v.isNull
      · rw [if_pos hnull, ih hd', present]
      · rw [if_neg hnull, lookup_sortedInsert, if_neg hk, ih hd', present]

/-- Reading a key of a canonicalised object reads the member that is there and not null. -/
theorem get_rho (t : Text) {members : List (String × Json)} (hd : DistinctKeys members)
    (k : String) : (rho t (.object members)).get k = (present members k).map (rho t) := by
  rw [rho]
  exact lookup_rhoMembers t hd k

@[simp] theorem asStr_rho (t : Text) (j : Json) : (rho t j).asStr = j.asStr.map (rhoString t) := by
  cases j <;> simp [rho, Json.asStr]

@[simp] theorem isNull_rho (t : Text) (j : Json) : (rho t j).isNull = j.isNull := by
  cases j <;> simp [rho, Json.isNull]

/-! ## Canonical values -/

theorem rhoItems_eq_map (t : Text) (items : List Json) : rhoItems t items = items.map (rho t) := by
  induction items with
  | nil => rfl
  | cons v items ih => rw [rhoItems, ih, List.map_cons]

theorem ascending_rhoMembers (t : Text) (members : List (String × Json)) :
    Ascending (rhoMembers t members) := by
  induction members with
  | nil => exact List.Pairwise.nil
  | cons e members ih =>
    rw [rhoMembers]
    split_ifs
    · exact ih
    · exact sortedInsert_ascending _ _ ih

/-- A canonicalised member comes from one that is not null. -/
theorem mem_rhoMembers {t : Text} {members : List (String × Json)} {e : String × Json}
    (h : e ∈ rhoMembers t members) :
    ∃ f ∈ members, f.2.isNull = false ∧ e = (f.1, rho t f.2) := by
  induction members with
  | nil => cases h
  | cons f members ih =>
    rw [rhoMembers] at h
    split_ifs at h with hnull
    · obtain ⟨g, hg, he⟩ := ih h
      exact ⟨g, List.mem_cons_of_mem _ hg, he⟩
    · rcases mem_sortedInsert h with rfl | h
      · exact ⟨f, List.mem_cons_self, Bool.not_eq_true _ ▸ hnull, rfl⟩
      · obtain ⟨g, hg, he⟩ := ih h
        exact ⟨g, List.mem_cons_of_mem _ hg, he⟩

/-- Members that stand in order and are not null stay where they are. -/
theorem rhoMembers_of_ascending (t : Text) {members : List (String × Json)} (h : Ascending members)
    (hnull : ∀ e ∈ members, e.2.isNull = false) :
    rhoMembers t members = members.map fun e => (e.1, rho t e.2) := by
  induction members with
  | nil => rfl
  | cons e members ih =>
    obtain ⟨hfirst, h⟩ := List.pairwise_cons.mp h
    have ih := ih h fun f hf => hnull f (List.mem_cons_of_mem _ hf)
    have he : ¬ e.2.isNull := by simp [hnull e List.mem_cons_self]
    rw [rhoMembers, if_neg he, ih, List.map_cons]
    cases members with
    | nil => rfl
    | cons f members => rw [List.map_cons, sortedInsert, if_pos (hfirst f List.mem_cons_self)]

/-- The same value but for the order of members, at any depth. -/
inductive Reordered : Json → Json → Prop where
  | null : Reordered .null .null
  | bool (b : Bool) : Reordered (.bool b) (.bool b)
  | number (n : Number) : Reordered (.number n) (.number n)
  | string (s : String) : Reordered (.string s) (.string s)
  | array (xs ys : List Json) (hlen : xs.length = ys.length)
      (h : ∀ (i : Nat) u v, xs[i]? = some u → ys[i]? = some v → Reordered u v) :
      Reordered (.array xs) (.array ys)
  | object (ms ns : List (String × Json)) (hkeys : ∀ k, k ∈ keys ms ↔ k ∈ keys ns)
      (h : ∀ k u v, ms.lookup k = some u → ns.lookup k = some v → Reordered u v) :
      Reordered (.object ms) (.object ns)

theorem Reordered.isNull_eq {v w : Json} (h : Reordered v w) : v.isNull = w.isNull := by
  cases h <;> rfl

theorem rhoString_eq (t : Text) (s : String) :
    rhoString t s = if hasBom s || containsControlChar s then s else t.nfc s := by
  have hbom : s.toList.contains '\ufeff' = hasBom s := List.contains_eq_any_beq.trans
    (congrArg (s.toList.any ·) (funext fun c => Bool.beq_comm))
  rw [rhoString, validateString, hbom]
  cases hasBom s <;> cases containsControlChar s <;> rfl

section

variable {t : Text}
  (hnfc : ∀ s, hasBom s = false → containsControlChar s = false → t.Clean (t.nfc s))

include hnfc in
/-- Once in NFC a string stays as it is. -/
theorem rhoString_rhoString (s : String) : rhoString t (rhoString t s) = rhoString t s := by
  rw [rhoString_eq t s]
  split_ifs with h
  · rw [rhoString_eq, if_pos h]
  · obtain ⟨hbom, hctl⟩ := Bool.or_eq_false_iff.mp (Bool.not_eq_true _ ▸ h)
    obtain ⟨hbom', hctl', hfix⟩ := hnfc s hbom hctl
    rw [rhoString_eq, hbom', hctl', if_neg (by simp), hfix]

include hnfc in
theorem rho_rho (v : Json) : rho t (rho t v) = rho t v := by
  induction v using Json.ind with
  | null => rfl
  | bool b => rfl
  | number n => rfl
  | string s => rw [rho, rho, rhoString_rhoString hnfc]
  | array items ih =>
    rw [rho, rho, rhoItems_eq_map, rhoItems_eq_map, List.map_map]
    exact congrArg Json.array (List.map_congr_left ih)
  | object members ih =>
    have hnull : ∀ e ∈ rhoMembers t members, e.2.isNull = false := by
      intro e he
      obtain ⟨f, -, hf, rfl⟩ := mem_rhoMembers he
      rw [isNull_rho, hf]
    rw [rho, rho, rhoMembers_of_ascending t (ascending_rhoMembers t members) hnull]
    have hfix : ∀ e ∈ rhoMembers t members, (e.1, rho t e.2) = e := by
      intro e he
      obtain ⟨f, hf, -, rfl⟩ := mem_rhoMembers he
      rw [ih f hf]
    rw [List.map_congr_left hfix, List.map_id']

end

theorem Reordered.rho_eq (t : Text) (v : Json) (hv : v.DistinctKeys) :
    ∀ w, w.DistinctKeys → Reordered v w → rho t v = rho t w := by
  induction v using Json.ind with
  | null =>
    rintro w - ⟨⟩
    rfl
  | bool b =>
    rintro w - ⟨⟩
    rfl
  | number n =>
    rintro w - ⟨⟩
    rfl
  | string s =>
    rintro w - ⟨⟩
    rfl
  | array xs ih =>
    rintro w hw (⟨⟩ | ⟨⟩ | ⟨⟩ | ⟨⟩ | ⟨_, ys, hlen, h⟩)
    simp only [Json.DistinctKeys, Json.everywhere_array] at hv hw
    rw [rho, rho, rhoItems_eq_map, rhoItems_eq_map]
    refine congrArg Json.array (List.ext_getElem (by simpa using hlen) fun i hi hi' => ?_)
    rw [List.length_map] at hi hi'
    rw [List.getElem_map, List.getElem_map]
    have hx := List.getElem_mem hi
    have hy := List.getElem_mem hi'
    exact ih _ hx (hv.2 _ hx) _ (hw.2 _ hy)
      (h i _ _ (List.getElem?_eq_getElem hi) (List.getElem?_eq_getElem hi'))
  | object ms ih =>
    rintro w hw (⟨⟩ | ⟨⟩ | ⟨⟩ | ⟨⟩ | ⟨⟩ | ⟨_, ns, hkeys, h⟩)
    simp only [Json.DistinctKeys, Json.everywhere_object] at hv hw
    -- both results are in key order, so it is enough that they hold the same under each key
    rw [rho, rho]
    refine congrArg Json.object ((ascending_rhoMembers t ms).ext_lookup
      (ascending_rhoMembers t ns) fun k => ?_)
    rw [lookup_rhoMembers t hv.1, lookup_rhoMembers t hw.1, present, present]
    cases hu : ms.lookup k with
    | none =>
      have hk : k ∉ keys ns := by
        rw [← hkeys, ← lookup_isSome, hu]
        simp
      rw [lookup_none hk]
    | some u =>
      obtain ⟨x, hx⟩ : ∃ x, ns.lookup k = some x := by
        rw [← Option.isSome_iff_exists, lookup_isSome, ← hkeys, ← lookup_isSome, hu]
        rfl
      have hux := h k u x hu hx
      have hmu := mem_of_lookup hu
      have hmx := mem_of_lookup hx
      rw [hx, Option.filter_some, Option.filter_some, hux.isNull_eq]
      split_ifs
      · exact congrArg some (ih _ hmu (hv.2 _ hmu) x (hw.2 _ hmx) hux)
      · rfl

/-- Canonicalisation is a projection, and it does not see the order of members. -/
theorem rho_canonical (t : Text)
    (hnfc : ∀ s, hasBom s = false → containsControlChar s = false → t.Clean (t.nfc s)) :
    (∀ v, rho t (rho t v) = rho t v) ∧
      ∀ v w, v.DistinctKeys → w.DistinctKeys → Reordered v w → rho t v = rho t w :=
  ⟨rho_rho hnfc, fun v w hv hw h => h.rho_eq t v hv w hw⟩

/-- `{"b": 1, "a": "x", "gone": null}`. -/
def unsorted : Json :=
  .object [("b", .number (.posInt 1)), ("a", .string "x"), ("gone", .null)]

/-- `{"gone": null, "a": "x", "b": 1}`. -/
def reversed : Json :=
  .object [("gone", .null), ("a", .string "x"), ("b", .number (.posInt 1))]

theorem rho_canonical_reversed :
    rho asciiText (rho asciiText unsorted) = rho asciiText unsorted ∧
      rho asciiText unsorted = rho asciiText reversed := by
  obtain ⟨hfix, horder⟩ := rho_canonical asciiText fun _ hbom hctl => ⟨hbom, hctl, rfl⟩
  refine ⟨hfix unsorted, horder unsorted reversed ?_ ?_ (.object _ _ ?_ ?_)⟩
  · simp [unsorted, Json.DistinctKeys, DistinctKeys]
  · simp [reversed, Json.DistinctKeys, DistinctKeys]
  · intro k
    simp only [keys_cons, keys_nil, List.mem_cons, List.not_mem_nil, or_false]
    tauto
  · intro k u v hu hv
    simp only [lookup_cons_eq, List.lookup_nil] at hu hv
    split_ifs at hu hv <;> simp_all <;> subst hu hv <;> constructor

end Ubl.Vm
