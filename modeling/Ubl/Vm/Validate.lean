import Ubl.Vm.Canon

/-!
# `canon.rs`: the strict validator

`RhoCanon::validate` reports every breach of the ρ rules, where the encoder stops at the first.
What it lets pass is `Strict`: clean text, no null member, and integers.  An integer may be a `u64`
there, and the encoder takes an `i64` only, so a value that is let pass can be encoded exactly when
its integers are small enough (`validate_matches_encoder_iff`).
-/

namespace Ubl.Vm

open AssocMap
open Ubl.Nrf (Text hasBom containsControlChar present pathForIndex Rho toNrf1Bytes asciiText)

/-! ## Algorithm -/

/-- `if cond { errors.push(error) }`. -/
def pushIf (cond : Bool) (error : String) : List String := if cond then [error] else []

section

variable (t : Text) (displayNumber : Number → String)

mutual

/-- `RhoCanon::collect_errors`; `displayNumber` writes a number. -/
def collectErrors : Json → String → List String
  | .null, _ => []
  | .bool _, _ => []
  | .number n, path =>
    pushIf (!n.isI64 && !n.isU64)
      (path ++ ": raw float " ++ displayNumber n ++ " violates UNC-1 — use @num atoms")
  | .string s, path =>
    pushIf (hasBom s) (path ++ ": BOM present") ++
      pushIf (containsControlChar s) (path ++ ": control character present") ++
      pushIf (t.nfc s != s) (path ++ ": not NFC normalized")
  | .array arr, path => collectItems path 0 arr
  | .object map, path => collectMembers path [] map

def collectItems (path : String) (idx : Nat) : List Json → List String
  | [] => []
  | item :: arr => collectErrors item (pathForIndex path idx) ++ collectItems path (idx + 1) arr

def collectMembers (path : String) (seenNormKeys : List String) :
    List (String × Json) → List String
  | [] => []
  | (k, val) :: map =>
    let keyPath := path ++ "." ++ k
    let keyNfc := t.nfc k
    pushIf (hasBom k) (keyPath ++ ": BOM present in key") ++
      pushIf (containsControlChar k) (keyPath ++ ": control character present in key") ++
      pushIf (keyNfc != k) (keyPath ++ ": key not NFC normalized") ++
      pushIf (keyNfc ∈ seenNormKeys)
        (path ++ ": duplicate key after NFC normalization (" ++ keyNfc ++ ")") ++
      pushIf val.isNull (keyPath ++ ": null value in map (should be absent)") ++
      collectErrors val keyPath ++
      collectMembers path (keyNfc :: seenNormKeys) map

end

/-- `RhoCanon::validate`. -/
def validate (v : Json) : Except (List String) Unit :=
  let errors := collectErrors t displayNumber v "$"
  if errors.isEmpty then .ok () else .error errors

end

/-! ## What is let pass -/

/-- No value breaks a rule of the validator. -/
def Strict (t : Text) (v : Json) : Prop :=
  Json.Everywhere (fun
    | .number n => n.isI64 ∨ n.isU64
    | .string s => t.Clean s
    | .object members => ∀ e ∈ members, t.Clean e.1 ∧ e.2.isNull = false
    | _ => True) v

/-- Every number fits an `i64`. -/
def SmallNumbers (v : Json) : Prop :=
  Json.Everywhere (fun
    | .number n => n.isI64
    | _ => True) v

@[simp] theorem pushIf_eq_nil {cond : Bool} {error : String} :
    pushIf cond error = [] ↔ cond = false := by
  cases cond <;> simp [pushIf]

variable {t : Text} {displayNumber : Number → String}

theorem collectItems_eq_nil {arr : List Json}
    (h : ∀ v ∈ arr, ∀ path, collectErrors t displayNumber v path = [] ↔ Strict t v) (path : String)
    (idx : Nat) : collectItems t displayNumber path idx arr = [] ↔ ∀ v ∈ arr, Strict t v := by
  induction arr generalizing idx with
  | nil => simp [collectItems]
  | cons v arr ih =>
    rw [collectItems, List.append_eq_nil_iff, h v List.mem_cons_self,
      ih (fun u hu => h u (List.mem_cons_of_mem _ hu)), List.forall_mem_cons]

/-- Keys in NFC collide with none but themselves. -/
theorem collectMembers_eq_nil {map : List (String × Json)}
    (h : ∀ e ∈ map, ∀ path, collectErrors t displayNumber e.2 path = [] ↔ Strict t e.2)
    (hmap : DistinctKeys map) (path : String) (seen : List String) (hseen : ∀ e ∈ map, e.1 ∉ seen) :
    collectMembers t displayNumber path seen map = [] ↔
      ∀ e ∈ map, (t.Clean e.1 ∧ e.2.isNull = false) ∧ Strict t e.2 := by
  induction map generalizing seen with
  | nil => simp [collectMembers]
  | cons e map ih =>
    obtain ⟨k, v⟩ := e
    obtain ⟨hk, hmap⟩ := List.nodup_cons.mp hmap
    have hv := h (k, v) List.mem_cons_self (path ++ "." ++ k)
    have ih := ih (fun e he => h e (List.mem_cons_of_mem _ he)) hmap (k :: seen) <| by
      rintro e he hmem
      rcases List.mem_cons.mp hmem with heq | hmem
      · obtain rfl : e.1 = k := heq
        exact hk (show e.1 ∈ keys map from mem_keys_of_mem he)
      · exact hseen e (List.mem_cons_of_mem _ he) hmem
    have hnew : k ∉ seen := hseen (k, v) List.mem_cons_self
    rw [List.forall_mem_cons]
    simp only [collectMembers, List.append_eq_nil_iff, pushIf_eq_nil, hv, Nrf.Text.Clean,
      bne_eq_false_iff_eq, decide_eq_false_iff_not]
    constructor
    · rintro ⟨⟨⟨⟨⟨⟨hbom, hctl⟩, hnfc⟩, -⟩, hnull⟩, hstrict⟩, hrest⟩
      rw [hnfc] at hrest
      exact ⟨⟨⟨⟨hbom, hctl, hnfc⟩, hnull⟩, hstrict⟩, ih.mp hrest⟩
    · rintro ⟨⟨⟨⟨hbom, hctl, hnfc⟩, hnull⟩, hstrict⟩, hrest⟩
      rw [hnfc]
      exact ⟨⟨⟨⟨⟨⟨hbom, hctl⟩, rfl⟩, hnew⟩, hnull⟩, hstrict⟩, ih.mpr hrest⟩

theorem collectErrors_eq_nil (v : Json) (hv : v.DistinctKeys) :
    ∀ path, collectErrors t displayNumber v path = [] ↔ Strict t v := by
  induction v using Json.ind with
  | null => exact fun _ => by simp [collectErrors, Strict]
  | bool b => exact fun _ => by simp [collectErrors, Strict]
  | number n =>
    intro path
    rw [collectErrors, pushIf_eq_nil, Strict, Json.everywhere_number]
    show (!n.isI64 && !n.isU64) = false ↔ n.isI64 = true ∨ n.isU64 = true
    cases n.isI64 <;> cases n.isU64 <;> decide
  | string s =>
    intro path
    rw [collectErrors, List.append_eq_nil_iff, List.append_eq_nil_iff, pushIf_eq_nil,
      pushIf_eq_nil, pushIf_eq_nil, bne_eq_false_iff_eq, and_assoc, Strict, Json.everywhere_string]
    rfl
  | array arr ih =>
    intro path
    simp only [Json.DistinctKeys, Json.everywhere_array] at hv
    rw [collectErrors, collectItems_eq_nil fun u hu => ih u hu (hv.2 u hu), Strict,
      Json.everywhere_array, true_and]
    rfl
  | object map ih =>
    intro path
    simp only [Json.DistinctKeys, Json.everywhere_object] at hv
    rw [collectErrors, collectMembers_eq_nil (fun e he => ih e he (hv.2 e he)) hv.1 _ _ (by simp),
      Strict, Json.everywhere_object, forall₂_and]
    rfl

theorem validate_eq_ok {v : Json} (hv : v.DistinctKeys) :
    validate t displayNumber v = .ok () ↔ Strict t v := by
  rw [← collectErrors_eq_nil v hv "$", validate]
  cases collectErrors t displayNumber v "$" <;> simp

/-! ## The encoder -/

/-- Nothing is left to canonicalise but the order of members. -/
theorem Strict.reordered_rho (v : Json) (hd : v.DistinctKeys) (hv : Strict t v) :
    Reordered (rho t v) v := by
  induction v using Json.ind with
  | null => exact .null
  | bool b => exact .bool b
  | number n => exact .number n
  | string s =>
    obtain ⟨hbom, hctl, hnfc⟩ := hv.here
    rw [rho, rhoString_eq, hbom, hctl, hnfc]
    exact .string s
  | array items ih =>
    simp only [Json.DistinctKeys, Strict, Json.everywhere_array] at hd hv
    rw [rho, rhoItems_eq_map]
    refine .array _ _ (List.length_map _) fun i u w hu hw => ?_
    have hmem := List.mem_of_getElem? hw
    rw [List.getElem?_map, hw, Option.map_some, Option.some.injEq] at hu
    exact hu ▸ ih w hmem (hd.2 w hmem) (hv.2 w hmem)
  | object members ih =>
    simp only [Json.DistinctKeys, Strict, Json.everywhere_object] at hd hv
    have hlookup (k : String) :
        (rhoMembers t members).lookup k = (members.lookup k).map (rho t) := by
      rw [lookup_rhoMembers t hd.1, present]
      cases hk : members.lookup k with
      | none => rfl
      | some w =>
        have hnull := (hv.1 _ (mem_of_lookup hk)).2
        rw [Option.filter_some, hnull]
        rfl
    rw [rho]
    refine .object _ _ (fun k => ?_) fun k u w hu hw => ?_
    · rw [← lookup_isSome, hlookup, Option.isSome_map, lookup_isSome]
    · have hmem := mem_of_lookup hw
      rw [hlookup, hw, Option.map_some, Option.some.injEq] at hu
      exact hu ▸ ih _ hmem (hd.2 _ hmem) (hv.2 _ hmem)

/-- The rules of the encoder are those of the validator and that integers are `i64`s. -/
theorem Strict.rho_iff {v : Json} (hv : Strict t v) : Rho t v ↔ SmallNumbers v := by
  induction v using Json.ind with
  | null => simp [Rho, SmallNumbers]
  | bool b => simp [Rho, SmallNumbers]
  | number n => simp [Rho, SmallNumbers]
  | string s => simpa [Rho, SmallNumbers] using hv.here
  | array items ih =>
    simp only [Strict, Json.everywhere_array, true_and] at hv
    simp only [Rho, SmallNumbers, Json.everywhere_array, true_and]
    exact forall₂_congr fun v hmem => ih v hmem (hv v hmem)
  | object members ih =>
    simp only [Strict, Json.everywhere_object] at hv
    simp only [Rho, SmallNumbers, Json.everywhere_object, true_and]
    rw [and_iff_right fun e he => (hv.1 e he).1]
    exact forall₂_congr fun e hmem => ih e hmem (hv.2 e hmem)

/-- The validator keeps its word on `v` exactly when every number of `v` is an `i64` or another
rule is broken. -/
theorem validate_matches_encoder_iff (t : Text) (displayNumber : Number → String) (v : Json)
    (hd : v.DistinctKeys) :
    (validate t displayNumber v = .ok () →
        Reordered (rho t v) v ∧ ∃ bytes, toNrf1Bytes t v = .ok bytes) ↔
      SmallNumbers v ∨ ¬ Strict t v := by
  have hbytes : (∃ bytes, toNrf1Bytes t v = .ok bytes) ↔ Rho t v := by
    simp only [Nrf.toNrf1Bytes_eq_ok hd, exists_and_left, exists_eq, and_true]
  rw [validate_eq_ok hd, hbytes]
  constructor
  · intro h
    by_cases hv : Strict t v
    · exact .inl (hv.rho_iff.mp (h hv).2)
    · exact .inr hv
  · rintro (hsmall | hbroken) hv
    · exact ⟨hv.reordered_rho v hd, hv.rho_iff.mpr hsmall⟩
    · exact absurd hv hbroken

/-- `{"n": 7, "s": "x"}`. -/
def smallValue : Json := .object [("n", .number (.posInt 7)), ("s", .string "x")]

theorem validate_matches_encoder_iff_small :
    (validate asciiText (fun _ => "") smallValue = .ok () →
        Reordered (rho asciiText smallValue) smallValue ∧
          ∃ bytes, toNrf1Bytes asciiText smallValue = .ok bytes) ↔
      SmallNumbers smallValue ∨ ¬ Strict asciiText smallValue :=
  validate_matches_encoder_iff asciiText (fun _ => "") smallValue <| by
    simp [smallValue, Json.DistinctKeys, DistinctKeys]

/-- `{"n": 9223372036854775808}`, which is `i64::MAX + 1`. -/
def largeValue : Json := .object [("n", .number (.posInt 9223372036854775808))]

theorem validate_passes_large :
    validate asciiText (fun _ => "") largeValue = .ok () ∧
      toNrf1Bytes asciiText largeValue =
        .error (.rho ⟨"body.n", .numberMustBeI64⟩) ∧
      ¬ (validate asciiText (fun _ => "") largeValue = .ok () →
        Reordered (rho asciiText largeValue) largeValue ∧
          ∃ bytes, toNrf1Bytes asciiText largeValue = .ok bytes) := by
  have hok : validate asciiText (fun _ => "") largeValue = .ok () := by
    with_unfolding_all rfl
  have herror : toNrf1Bytes asciiText largeValue =
      .error (.rho ⟨"body.n", .numberMustBeI64⟩) := by
    with_unfolding_all rfl
  refine ⟨hok, herror, fun h => ?_⟩
  obtain ⟨-, bytes, hbytes⟩ := h hok
  rw [herror] at hbytes
  cases hbytes

end Ubl.Vm
