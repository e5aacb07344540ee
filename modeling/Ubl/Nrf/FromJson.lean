import Ubl.Json
import Ubl.Nrf.Canonicity

/-!
# `nrf.rs`: from JSON to canonical bytes

`jsonToNrf` checks the ρ rules on the way: integers only, no byte order mark, no control
character, NFC; a null member is dropped and the rest is collected in a sorted map.
`nrfOf` is the value it returns whenever it returns one (`jsonToNrfWithPath_eq_ok`), and
`Json.Eqv` the equality of JSON values that ignores member order and null members.

    toNrf1Bytes t a = .ok x → toNrf1Bytes t b = .ok y → (x = y ↔ Json.Eqv a b)
-/

namespace Ubl.Nrf

open AssocMap Utf8 ExceptLemmas

/-- The text functions of `unicode_normalization` and of `core::fmt`. -/
structure Text where
  /-- `s.nfc().collect()`. -/
  nfc : String → String
  /-- `format!("{:?}", s)`. -/
  debug : String → String

/-! ## Algorithm -/

/-- The ρ rule that a value breaks. -/
inductive RhoRule where
  | numberMustBeI64
  | bomPresent
  | bomPresentInKey
  | controlCharPresent
  | controlCharPresentInKey
  | notNFC
  | notNFCInKey
  | emptyKeyAfterNormalization
  | duplicateKey (key : String)
deriving DecidableEq

def RhoRule.text : RhoRule → String
  | .numberMustBeI64 => "Number must be i64"
  | .bomPresent => "BOMPresent"
  | .bomPresentInKey => "BOMPresent in key"
  | .controlCharPresent => "ControlCharPresent"
  | .controlCharPresentInKey => "ControlCharPresent in key"
  | .notNFC => "NotNFC"
  | .notNFCInKey => "NotNFC in key"
  | .emptyKeyAfterNormalization => "EmptyKeyAfterNormalization"
  | .duplicateKey key => "DuplicateKey(" ++ key ++ ")"

structure RhoError where
  path : String
  rule : RhoRule
deriving DecidableEq

def RhoError.text (e : RhoError) : String :=
  "ρ violation at " ++ e.path ++ ": " ++ e.rule.text

def pathForKey (t : Text) (path key : String) : String :=
  if key.toList.all fun c => c.isAlphanum || c == '_' || c == '@' then path ++ "." ++ key
  else path ++ "[" ++ t.debug key ++ "]"

def pathForIndex (path : String) (idx : Nat) : String := path ++ "[" ++ toString idx ++ "]"

/-- `s.chars().any(|c| ('\u{0000}'..='\u{001f}').contains(&c))`. -/
def containsControlChar (s : String) : Bool := s.toList.any fun c => decide (c.toNat ≤ 0x1f)

mutual

def jsonToNrfWithPath (t : Text) : Json → String → Except RhoError NrfValue
  | .null, _ => .ok .null
  | .bool b, _ => .ok (.bool b)
  | .number n, path =>
    match n.asI64 with
    | some i => .ok (.int i)
    | none => .error ⟨path, .numberMustBeI64⟩
  | .string s, path => do
    if hasBom s then throw ⟨path, .bomPresent⟩
    if containsControlChar s then throw ⟨path, .controlCharPresent⟩
    if t.nfc s ≠ s then throw ⟨path, .notNFC⟩
    pure (.string s)
  | .array arr, path => do
    let items ← itemsToNrf t path 0 arr
    pure (.array items)
  | .object map, path => do
    let bt ← membersToNrf t path [] map
    pure (.map bt)

def itemsToNrf (t : Text) (path : String) (idx : Nat) :
    List Json → Except RhoError (List NrfValue)
  | [] => .ok []
  | v :: arr => do
    let item ← jsonToNrfWithPath t v (pathForIndex path idx)
    let items ← itemsToNrf t path (idx + 1) arr
    pure (item :: items)

def membersToNrf (t : Text) (path : String) (bt : List (String × NrfValue)) :
    List (String × Json) → Except RhoError (List (String × NrfValue))
  | [] => .ok bt
  | (k, v) :: map => do
    let keyPath := pathForKey t path k
    if hasBom k then throw ⟨keyPath, .bomPresentInKey⟩
    if containsControlChar k then throw ⟨keyPath, .controlCharPresentInKey⟩
    if t.nfc k ≠ k then throw ⟨keyPath, .notNFCInKey⟩
    -- ρ: null values are stripped from maps
    if v.isNull then membersToNrf t path bt map
    else do
      let nrfVal ← jsonToNrfWithPath t v keyPath
      if k ∈ keys bt then throw ⟨path, .duplicateKey k⟩
      membersToNrf t path (sortedInsert k nrfVal bt) map

end

def jsonToNrf (t : Text) (value : Json) : Except RhoError NrfValue :=
  jsonToNrfWithPath t value "body"

/-- `CompileError`, with the two kinds of `anyhow` errors that `to_nrf1_bytes` can raise. -/
inductive CompileError where
  | rho (e : RhoError)
  | encode (e : NrfError)

/-- The `Display` text; both kinds come out of `anyhow`. -/
def CompileError.text : CompileError → String
  | .rho e => "NRF encoding error: " ++ e.text
  | .encode e => "NRF encoding error: " ++ e.text

def toNrf1Bytes (t : Text) (json : Json) : Except CompileError (List UInt8) :=
  match jsonToNrf t json with
  | .error e => .error (.rho e)
  | .ok nrfValue =>
    match encodeToVec nrfValue with
    | .error e => .error (.encode e)
    | .ok bytes => .ok bytes

/-! ## What is accepted, and what comes out -/

/-- No byte order mark, no control character, in NFC. -/
def Text.Clean (t : Text) (s : String) : Prop :=
  hasBom s = false ∧ containsControlChar s = false ∧ t.nfc s = s

/-- The ρ rules at every depth. -/
def Rho (t : Text) (j : Json) : Prop :=
  Json.Everywhere (fun
    | .number n => n.isI64
    | .string s => t.Clean s
    | .object members => ∀ e ∈ members, t.Clean e.1
    | _ => True) j

mutual

/-- The NRF value of a JSON value that keeps the ρ rules. -/
def nrfOf : Json → NrfValue
  | .null => .null
  | .bool b => .bool b
  | .number n => .int (n.asI64.getD 0)
  | .string s => .string s
  | .array items => .array (nrfItems items)
  | .object members => .map (nrfEntries [] members)

def nrfItems : List Json → List NrfValue
  | [] => []
  | v :: items => nrfOf v :: nrfItems items

def nrfEntries (bt : List (String × NrfValue)) :
    List (String × Json) → List (String × NrfValue)
  | [] => bt
  | (k, v) :: members =>
    if v.isNull then nrfEntries bt members
    else nrfEntries (sortedInsert k (nrfOf v) bt) members

end

theorem nrfItems_eq_map (items : List Json) : nrfItems items = items.map nrfOf := by
  induction items with
  | nil => rfl
  | cons v items ih => rw [nrfItems, ih, List.map_cons]

theorem itemsToNrf_eq_ok {t : Text} (path : String) {arr : List Json}
    (h : ∀ v ∈ arr, ∀ p w, jsonToNrfWithPath t v p = .ok w ↔ Rho t v ∧ w = nrfOf v)
    (idx : Nat) (items : List NrfValue) :
    itemsToNrf t path idx arr = .ok items ↔ (∀ v ∈ arr, Rho t v) ∧ items = nrfItems arr := by
  induction arr generalizing idx items with
  | nil =>
    simp only [itemsToNrf, Except.ok.injEq, nrfItems, List.not_mem_nil, false_imp_iff,
      implies_true, true_and]
    exact eq_comm
  | cons v arr ih =>
    have hv := h v List.mem_cons_self
    have harr := ih (fun u hu => h u (List.mem_cons_of_mem _ hu)) (idx + 1)
    simp only [itemsToNrf, bind_eq_ok, pure_eq_ok, Except.ok.injEq, hv, harr, nrfItems,
      List.forall_mem_cons]
    constructor
    · rintro ⟨w, ⟨h1, rfl⟩, ws, ⟨h2, rfl⟩, rfl⟩
      exact ⟨⟨h1, h2⟩, rfl⟩
    · rintro ⟨⟨h1, h2⟩, rfl⟩
      exact ⟨_, ⟨h1, rfl⟩, _, ⟨h2, rfl⟩, rfl⟩

theorem membersToNrf_eq_ok {t : Text} (path : String) {map : List (String × Json)}
    (h : ∀ e ∈ map, ∀ p w, jsonToNrfWithPath t e.2 p = .ok w ↔ Rho t e.2 ∧ w = nrfOf e.2)
    (hmap : DistinctKeys map) (bt out : List (String × NrfValue))
    (hbt : ∀ e ∈ map, e.1 ∉ keys bt) :
    membersToNrf t path bt map = .ok out ↔
      (∀ e ∈ map, t.Clean e.1 ∧ Rho t e.2) ∧ out = nrfEntries bt map := by
  induction map generalizing bt with
  | nil =>
    simp only [membersToNrf, Except.ok.injEq, nrfEntries, List.not_mem_nil, false_imp_iff,
      implies_true, true_and]
    exact eq_comm
  | cons e map ih =>
    obtain ⟨k, v⟩ := e
    obtain ⟨hk, hmap⟩ := List.nodup_cons.mp hmap
    have hv := h (k, v) List.mem_cons_self
    have hnew : k ∉ keys bt := hbt (k, v) List.mem_cons_self
    have ih := ih (fun e he => h e (List.mem_cons_of_mem _ he)) hmap
    simp only [membersToNrf, throw_eq_error, bind_error, ite_error_eq_ok, List.forall_mem_cons,
      nrfEntries, Text.Clean, Bool.not_eq_true, ne_eq, not_not]
    by_cases hnull : v.isNull
    · have hrho : Rho t v := by
        rw [Json.isNull_iff.mp hnull]
        exact .null trivial
      rw [if_pos hnull, if_pos hnull, ih bt fun e he => hbt e (List.mem_cons_of_mem _ he)]
      simp only [Text.Clean, hrho, and_true]
      tauto
    · have hbt' : ∀ e ∈ map, e.1 ∉ keys (sortedInsert k (nrfOf v) bt) := by
        intro e he hmem
        rcases mem_keys_sortedInsert.mp hmem with heq | hmem
        · exact hk (show k ∈ keys map from heq ▸ mem_keys_of_mem he)
        · exact hbt e (List.mem_cons_of_mem _ he) hmem
      have ih := ih _ hbt'
      simp only [if_neg hnull, bind_eq_ok, hv]
      constructor
      · rintro ⟨h1, h2, h3, w, ⟨hrho, rfl⟩, hins⟩
        simp only [if_neg hnew] at hins
        obtain ⟨h4, rfl⟩ := ih.mp hins
        exact ⟨⟨⟨⟨h1, h2, h3⟩, hrho⟩, h4⟩, rfl⟩
      · rintro ⟨⟨⟨⟨h1, h2, h3⟩, hrho⟩, h4⟩, rfl⟩
        refine ⟨h1, h2, h3, nrfOf v, ⟨hrho, rfl⟩, ?_⟩
        simp only [if_neg hnew]
        exact ih.mpr ⟨h4, rfl⟩

/-- Acceptance is exactly the ρ rules; the path only shows in errors. -/
theorem jsonToNrfWithPath_eq_ok (t : Text) (j : Json) (hj : j.DistinctKeys) :
    ∀ path v, jsonToNrfWithPath t j path = .ok v ↔ Rho t j ∧ v = nrfOf j := by
  induction j using Json.ind with
  | null =>
    intro path v
    simp only [jsonToNrfWithPath, Rho, Json.everywhere_null, nrfOf, true_and, Except.ok.injEq]
    exact eq_comm
  | bool b =>
    intro path v
    simp only [jsonToNrfWithPath, Rho, Json.everywhere_bool, nrfOf, true_and, Except.ok.injEq]
    exact eq_comm
  | number n =>
    intro path v
    simp only [jsonToNrfWithPath, Rho, Json.everywhere_number, nrfOf, Number.isI64_iff]
    cases hn : n.asI64 with
    | none => simp
    | some i => simp [eq_comm]
  | string s =>
    intro path v
    simp only [jsonToNrfWithPath, throw_eq_error, bind_error, ite_error_eq_ok, pure_eq_ok,
      Except.ok.injEq, Rho, Json.everywhere_string, nrfOf, Text.Clean, Bool.not_eq_true, ne_eq,
      not_not, and_assoc]
    rw [eq_comm (a := v)]
  | array items ih =>
    intro path v
    simp only [Json.DistinctKeys, Json.everywhere_array] at hj
    have hitems := itemsToNrf_eq_ok path (fun u hu => ih u hu (hj.2 u hu)) 0
    simp only [jsonToNrfWithPath, bind_eq_ok, pure_eq_ok, Except.ok.injEq, hitems, Rho,
      Json.everywhere_array, nrfOf, true_and]
    constructor
    · rintro ⟨_, ⟨h, rfl⟩, rfl⟩
      exact ⟨h, rfl⟩
    · rintro ⟨h, rfl⟩
      exact ⟨_, ⟨h, rfl⟩, rfl⟩
  | object members ih =>
    intro path v
    simp only [Json.DistinctKeys, Json.everywhere_object] at hj
    have hmembers (out) := membersToNrf_eq_ok path (fun e he => ih e he (hj.2 e he)) hj.1
      [] out (by simp)
    simp only [jsonToNrfWithPath, bind_eq_ok, pure_eq_ok, Except.ok.injEq, hmembers, Rho,
      Json.everywhere_object, nrfOf]
    constructor
    · rintro ⟨_, ⟨h, rfl⟩, rfl⟩
      exact ⟨⟨fun e he => (h e he).1, fun e he => (h e he).2⟩, rfl⟩
    · rintro ⟨⟨h1, h2⟩, rfl⟩
      exact ⟨_, ⟨fun e he => ⟨h1 e he, h2 e he⟩, rfl⟩, rfl⟩

theorem toNrf1Bytes_eq_ok {t : Text} {j : Json} (hj : j.DistinctKeys) {b : List UInt8} :
    toNrf1Bytes t j = .ok b ↔ Rho t j ∧ b = MAGIC ++ encodeValue (nrfOf j) := by
  have h := jsonToNrfWithPath_eq_ok t j hj "body"
  unfold toNrf1Bytes jsonToNrf
  cases hv : jsonToNrfWithPath t j "body" with
  | error e =>
    have : ¬ Rho t j := fun hr => by simpa [hv] using (h (nrfOf j)).mpr ⟨hr, rfl⟩
    simp [this]
  | ok v =>
    obtain ⟨hr, rfl⟩ := (h v).mp hv
    simp [encodeToVec, hr, eq_comm]

/-! ## Equality up to member order and null members -/

/-- The value of a member that is there and is not null. -/
def present (members : List (String × Json)) (k : String) : Option Json :=
  (members.lookup k).filter fun v => !v.isNull

/-- Same scalars, same array elements in the same order, same non-null members. -/
inductive Eqv : Json → Json → Prop where
  | null : Eqv .null .null
  | bool (b : Bool) : Eqv (.bool b) (.bool b)
  | number (n : Number) : Eqv (.number n) (.number n)
  | string (s : String) : Eqv (.string s) (.string s)
  | array (xs ys : List Json) (hlen : xs.length = ys.length)
      (h : ∀ (i : Nat) u v, xs[i]? = some u → ys[i]? = some v → Eqv u v) :
      Eqv (.array xs) (.array ys)
  | object (ms ns : List (String × Json))
      (hkeys : ∀ k, (present ms k).isSome = (present ns k).isSome)
      (h : ∀ k u v, present ms k = some u → present ns k = some v → Eqv u v) :
      Eqv (.object ms) (.object ns)

/-- Byte lengths and counts below 2^32. -/
def JsonFits (j : Json) : Prop :=
  Json.Everywhere (fun
    | .string s => s.utf8ByteSize < 2 ^ 32
    | .array items => items.length < 2 ^ 32
    | .object members => members.length < 2 ^ 32 ∧ ∀ e ∈ members, e.1.utf8ByteSize < 2 ^ 32
    | _ => True) j

instance (j : Json) : Decidable (JsonFits j) :=
  @Json.Everywhere.decidable _ (fun
    | .null | .bool _ | .number _ => isTrue trivial
    | .string s => inferInstanceAs (Decidable (s.utf8ByteSize < 2 ^ 32))
    | .array items => inferInstanceAs (Decidable (items.length < 2 ^ 32))
    | .object members => inferInstanceAs (Decidable
        (members.length < 2 ^ 32 ∧ ∀ e ∈ members, e.1.utf8ByteSize < 2 ^ 32))) j

theorem mem_of_present {members : List (String × Json)} {k : String} {v : Json}
    (h : present members k = some v) : (k, v) ∈ members :=
  mem_of_lookup (Option.filter_eq_some_iff.mp h).1

theorem lookup_nrfEntries {members : List (String × Json)} (hd : DistinctKeys members)
    (bt : List (String × NrfValue)) (k : String) :
    (nrfEntries bt members).lookup k = ((present members k).map nrfOf).or (bt.lookup k) := by
  induction members generalizing bt with
  | nil => simp [nrfEntries, present]
  | cons e members ih =>
    obtain ⟨k₀, v⟩ := e
    obtain ⟨hk₀, hd'⟩ := List.nodup_cons.mp hd
    have hnone : present members k₀ = none := by
      rw [present, lookup_none hk₀, Option.filter_none]
    rw [nrfEntries, present, lookup_cons_eq]
    by_cases hk : k = k₀
    · subst hk
      by_cases hnull : v.isNull
      · rw [if_pos hnull, if_pos rfl, ih hd', hnone]
        simp [Option.filter_some, hnull]
      · rw [if_neg hnull, if_pos rfl, ih hd', hnone, lookup_sortedInsert]
        simp [Option.filter_some, hnull]
    · rw [if_neg hk]
      by_cases hnull : v.isNull
      · rw [if_pos hnull, ih hd', present]
      · rw [if_neg hnull, ih hd', lookup_sortedInsert, if_neg hk, present]

theorem nrfEntries_ascending {bt : List (String × NrfValue)} (h : Ascending bt)
    (members : List (String × Json)) : Ascending (nrfEntries bt members) := by
  induction members generalizing bt with
  | nil => exact h
  | cons e members ih =>
    rw [nrfEntries]
    split_ifs
    · exact ih h
    · exact ih (sortedInsert_ascending _ _ h)

theorem nrfEntries_eq_iff {ms ns : List (String × Json)} (hm : DistinctKeys ms)
    (hn : DistinctKeys ns) :
    nrfEntries [] ms = nrfEntries [] ns ↔
      ∀ k, (present ms k).map nrfOf = (present ns k).map nrfOf := by
  have hlookup {ms : List (String × Json)} (hm : DistinctKeys ms) (k : String) :
      (nrfEntries [] ms).lookup k = (present ms k).map nrfOf := by
    rw [lookup_nrfEntries hm, List.lookup_nil, Option.or_none]
  constructor
  · intro h k
    rw [← hlookup hm, ← hlookup hn, h]
  · intro h
    refine (nrfEntries_ascending List.Pairwise.nil ms).ext_lookup
      (nrfEntries_ascending List.Pairwise.nil ns) fun k => ?_
    rw [hlookup hm, hlookup hn, h k]

theorem nrfOf_array_eq_iff {xs ys : List Json}
    (ih : ∀ v ∈ xs, ∀ w ∈ ys, nrfOf v = nrfOf w ↔ Eqv v w) :
    nrfOf (.array xs) = nrfOf (.array ys) ↔ Eqv (.array xs) (.array ys) := by
  rw [nrfOf, nrfOf, NrfValue.array.injEq, nrfItems_eq_map, nrfItems_eq_map]
  constructor
  · intro h
    refine .array xs ys (by simpa using congrArg List.length h) fun i u v hu hv => ?_
    have hi := congrArg (·[i]?) h
    simp only [List.getElem?_map, hu, hv, Option.map_some, Option.some.injEq] at hi
    exact (ih u (List.mem_of_getElem? hu) v (List.mem_of_getElem? hv)).mp hi
  · rintro ⟨⟩
    next hlen h =>
    refine List.ext_getElem? fun i => ?_
    simp only [List.getElem?_map]
    by_cases hi : i < xs.length
    · have hu : xs[i]? = some xs[i] := List.getElem?_eq_getElem hi
      have hv : ys[i]? = some ys[i] := List.getElem?_eq_getElem (hlen ▸ hi)
      rw [hu, hv, Option.map_some, Option.map_some]
      exact congrArg some ((ih _ (List.getElem_mem hi) _ (List.getElem_mem (hlen ▸ hi))).mpr
        (h i _ _ hu hv))
    · rw [List.getElem?_eq_none (by omega), List.getElem?_eq_none (by omega)]

theorem nrfOf_object_eq_iff {ms ns : List (String × Json)} (hm : DistinctKeys ms)
    (hn : DistinctKeys ns) (ih : ∀ e ∈ ms, ∀ f ∈ ns, nrfOf e.2 = nrfOf f.2 ↔ Eqv e.2 f.2) :
    nrfOf (.object ms) = nrfOf (.object ns) ↔ Eqv (.object ms) (.object ns) := by
  rw [nrfOf, nrfOf, NrfValue.map.injEq, nrfEntries_eq_iff hm hn]
  constructor
  · intro h
    refine .object ms ns (fun k => ?_) fun k u v hu hv => ?_
    · simpa using congrArg Option.isSome (h k)
    · have hk := h k
      rw [hu, hv, Option.map_some, Option.map_some, Option.some.injEq] at hk
      exact (ih _ (mem_of_present hu) _ (mem_of_present hv)).mp hk
  · rintro ⟨⟩ k
    next hkeys h =>
    have hk := hkeys k
    cases hu : present ms k with
    | none =>
      rw [hu, Option.isSome_none, eq_comm, Option.isSome_eq_false_iff, Option.isNone_iff_eq_none]
        at hk
      rw [hk]
    | some u =>
      rw [hu, Option.isSome_some, eq_comm, Option.isSome_iff_exists] at hk
      obtain ⟨v, hv⟩ := hk
      rw [hv, Option.map_some, Option.map_some]
      exact congrArg some ((ih _ (mem_of_present hu) _ (mem_of_present hv)).mpr (h k u v hu hv))

/-- On what is accepted, `nrfOf` forgets member order and null members and nothing else. -/
theorem nrfOf_eq_iff {t : Text} (a : Json) (ha : a.DistinctKeys) (hra : Rho t a) :
    ∀ b : Json, b.DistinctKeys → Rho t b → (nrfOf a = nrfOf b ↔ Eqv a b) := by
  induction a using Json.ind with
  | null =>
    intro b hb hrb
    cases b <;> simp only [nrfOf, reduceCtorEq, true_iff, false_iff]
    · exact .null
    all_goals rintro ⟨⟩
  | bool x =>
    intro b hb hrb
    cases b <;> simp only [nrfOf, reduceCtorEq, false_iff, NrfValue.bool.injEq]
    case bool y =>
      constructor
      · rintro rfl
        exact .bool x
      · rintro ⟨⟩
        rfl
    all_goals rintro ⟨⟩
  | number m =>
    intro b hb hrb
    cases b <;> simp only [nrfOf, reduceCtorEq, false_iff, NrfValue.int.injEq]
    case number n =>
      obtain ⟨i, hi⟩ := Number.isI64_iff.mp hra.here
      obtain ⟨j, hj⟩ := Number.isI64_iff.mp hrb.here
      rw [hi, hj, Option.getD_some, Option.getD_some]
      constructor
      · rintro rfl
        rw [Number.asI64_inj hi hj]
        exact .number n
      · rintro ⟨⟩
        exact Option.some.inj (hi.symm.trans hj)
    all_goals rintro ⟨⟩
  | string x =>
    intro b hb hrb
    cases b <;> simp only [nrfOf, reduceCtorEq, false_iff, NrfValue.string.injEq]
    case string y =>
      constructor
      · rintro rfl
        exact .string x
      · rintro ⟨⟩
        rfl
    all_goals rintro ⟨⟩
  | array xs ih =>
    intro b hb hrb
    cases b
    case array ys =>
      simp only [Json.DistinctKeys, Rho, Json.everywhere_array] at ha hra hb hrb
      exact nrfOf_array_eq_iff fun v hv w hw =>
        ih v hv (ha.2 v hv) (hra.2 v hv) w (hb.2 w hw) (hrb.2 w hw)
    all_goals
      simp only [nrfOf, reduceCtorEq, false_iff]
      rintro ⟨⟩
  | object ms ih =>
    intro b hb hrb
    cases b
    case object ns =>
      simp only [Json.DistinctKeys, Rho, Json.everywhere_object] at ha hra hb hrb
      exact nrfOf_object_eq_iff ha.1 hb.1 fun e he f hf =>
        ih e he (ha.2 e he) (hra.2 e he) f.2 (hb.2 f hf) (hrb.2 f hf)
    all_goals
      simp only [nrfOf, reduceCtorEq, false_iff]
      rintro ⟨⟩

theorem mem_nrfEntries {bt : List (String × NrfValue)} {members : List (String × Json)}
    {e : String × NrfValue} (h : e ∈ nrfEntries bt members) :
    e ∈ bt ∨ ∃ f ∈ members, e = (f.1, nrfOf f.2) := by
  induction members generalizing bt with
  | nil => exact .inl h
  | cons f members ih =>
    rw [nrfEntries] at h
    split_ifs at h
    · exact (ih h).imp id fun ⟨g, hg, he⟩ => ⟨g, List.mem_cons_of_mem _ hg, he⟩
    · rcases ih h with h | ⟨g, hg, he⟩
      · rcases mem_sortedInsert h with rfl | h
        · exact .inr ⟨f, List.mem_cons_self, rfl⟩
        · exact .inl h
      · exact .inr ⟨g, List.mem_cons_of_mem _ hg, he⟩

theorem length_nrfEntries_le (bt : List (String × NrfValue)) (members : List (String × Json)) :
    (nrfEntries bt members).length ≤ bt.length + members.length := by
  induction members generalizing bt with
  | nil => simp [nrfEntries]
  | cons e members ih =>
    rw [nrfEntries, List.length_cons]
    split_ifs
    · have := ih bt
      omega
    · have := ih (sortedInsert e.1 (nrfOf e.2) bt)
      have := length_sortedInsert_le e.1 (nrfOf e.2) bt
      omega

theorem fits_nrfOf (j : Json) (h : JsonFits j) : (nrfOf j).Fits := by
  induction j using Json.ind with
  | null => exact .null trivial
  | bool b => exact .bool b trivial
  | number n => exact .int _ trivial
  | string s => exact .string s h.here
  | array items ih =>
    simp only [JsonFits, Json.everywhere_array] at h
    rw [nrfOf, nrfItems_eq_map]
    refine .array _ (by simpa using h.1) ?_
    intro w hw
    obtain ⟨v, hv, rfl⟩ := List.mem_map.mp hw
    exact ih v hv (h.2 v hv)
  | object members ih =>
    simp only [JsonFits, Json.everywhere_object] at h
    have hlen := length_nrfEntries_le [] members
    rw [List.length_nil, Nat.zero_add] at hlen
    have hmem {e : String × NrfValue} (he : e ∈ nrfEntries [] members) :
        ∃ f ∈ members, e = (f.1, nrfOf f.2) := by
      simpa using mem_nrfEntries he
    rw [nrfOf]
    refine .map _ ⟨lt_of_le_of_lt hlen h.1.1, fun e he => ?_⟩ fun e he => ?_
    · obtain ⟨f, hf, rfl⟩ := hmem he
      exact h.1.2 f hf
    · obtain ⟨f, hf, rfl⟩ := hmem he
      exact ih f hf (h.2 f hf)

/-! ## Canonical bytes identify meaning -/

theorem encoding_eq_iff {t : Text} {a b : Json} (ha : a.DistinctKeys) (hb : b.DistinctKeys)
    (hfa : JsonFits a) (hfb : JsonFits b) (hra : Rho t a) (hrb : Rho t b) :
    MAGIC ++ encodeValue (nrfOf a) = MAGIC ++ encodeValue (nrfOf b) ↔ Eqv a b := by
  rw [← nrfOf_eq_iff a ha hra b hb hrb]
  constructor
  · intro h
    have hwire := congrArg wireTree h
    rw [wireTree_encode _ (fits_nrfOf a hfa), wireTree_encode _ (fits_nrfOf b hfb)] at hwire
    exact Except.ok.inj hwire
  · intro h
    rw [h]

/-- Values with the same bytes mean the same. -/
theorem eqv_of_toNrf1Bytes {t : Text} {a b : Json} (ha : a.DistinctKeys) (hb : b.DistinctKeys)
    (hfa : JsonFits a) (hfb : JsonFits b) {x : List UInt8} (hx : toNrf1Bytes t a = .ok x)
    (hy : toNrf1Bytes t b = .ok x) : Eqv a b := by
  obtain ⟨hra, rfl⟩ := (toNrf1Bytes_eq_ok ha).mp hx
  obtain ⟨hrb, heq⟩ := (toNrf1Bytes_eq_ok hb).mp hy
  exact (encoding_eq_iff ha hb hfa hfb hra hrb).mp heq

/-- Values that mean the same have the same bytes. -/
theorem toNrf1Bytes_congr {t : Text} {a b : Json} (ha : a.DistinctKeys) (hb : b.DistinctKeys)
    (h : Eqv a b) {x y : List UInt8} (hx : toNrf1Bytes t a = .ok x) (hy : toNrf1Bytes t b = .ok y) :
    x = y := by
  obtain ⟨hra, rfl⟩ := (toNrf1Bytes_eq_ok ha).mp hx
  obtain ⟨hrb, rfl⟩ := (toNrf1Bytes_eq_ok hb).mp hy
  rw [(nrfOf_eq_iff a ha hra b hb hrb).mpr h]

theorem toNrf1Bytes_eq_iff (t : Text) (a b : Json) (ha : a.DistinctKeys) (hb : b.DistinctKeys)
    (hfa : JsonFits a) (hfb : JsonFits b) (x y : List UInt8) (hx : toNrf1Bytes t a = .ok x)
    (hy : toNrf1Bytes t b = .ok y) : x = y ↔ Eqv a b := by
  obtain ⟨hra, rfl⟩ := (toNrf1Bytes_eq_ok ha).mp hx
  obtain ⟨hrb, rfl⟩ := (toNrf1Bytes_eq_ok hb).mp hy
  exact encoding_eq_iff ha hb hfa hfb hra hrb

/-- ASCII text is in NFC; the sample values hold no other. -/
def asciiText : Text := ⟨id, id⟩

/-- `{"b": 1, "gone": null, "a": [null, "x"]}`. -/
def sampleA : Json :=
  .object [("b", .number (.posInt 1)), ("gone", .null), ("a", .array [.null, .string "x"])]

/-- `{"a": [null, "x"], "b": 1}`. -/
def sampleB : Json := .object [("a", .array [.null, .string "x"]), ("b", .number (.posInt 1))]

theorem toNrf1Bytes_eq_iff_sample :
    ∃ x y, toNrf1Bytes asciiText sampleA = .ok x ∧ toNrf1Bytes asciiText sampleB = .ok y ∧
      (x = y ↔ Eqv sampleA sampleB) := by
  have hx : toNrf1Bytes asciiText sampleA = .ok (MAGIC ++ encodeValue (nrfOf sampleA)) := by
    with_unfolding_all rfl
  have hy : toNrf1Bytes asciiText sampleB = .ok (MAGIC ++ encodeValue (nrfOf sampleB)) := by
    with_unfolding_all rfl
  refine ⟨_, _, hx, hy, toNrf1Bytes_eq_iff asciiText sampleA sampleB ?_ ?_ ?_ ?_ _ _ hx hy⟩
  all_goals simp [sampleA, sampleB, Json.DistinctKeys, JsonFits, DistinctKeys]
  · refine ⟨?_, by decide⟩
    rintro k v (⟨rfl, -⟩ | ⟨rfl, -⟩ | ⟨rfl, -⟩) <;> decide
  · refine ⟨?_, by decide⟩
    rintro k v (⟨rfl, -⟩ | ⟨rfl, -⟩) <;> decide

end Ubl.Nrf
