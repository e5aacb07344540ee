import Ubl.Lib.KeyTree
import Ubl.Nrf.FromJson

/-!
# `nrf.rs`: input normalisation

`normalizeForInput` brings external JSON to a form the encoder can take: text is put in
NFC without byte order marks, null members are dropped, timestamps under timestamp keys
and arrays under set-like keys get one spelling.  Numbers pass unchanged.  Whatever comes
out is `Tidy`: its text is clean and its keys are distinct.

    Text.Lawful t → normalizeForInput t chrono j = .ok v → Tidy t v
-/

namespace Ubl.Nrf

open AssocMap ExceptLemmas

/-- A UTC date and time as `chrono` holds it; a leap second has `nanos` at or above 10^9. -/
structure UtcTime where
  year : Int
  month : Nat
  day : Nat
  hour : Nat
  minute : Nat
  second : Nat
  nanos : Nat
deriving DecidableEq

/-! ## Algorithm -/

/-- Decimal digits, zero-padded on the left. -/
def padded (width n : Nat) : String :=
  String.ofList (List.replicate (width - (toString n).length) '0') ++ toString n

/-- `%Y`: four digits, with a sign outside `0..=9999`. -/
def formatYear (year : Int) : String :=
  if 0 ≤ year ∧ year ≤ 9999 then padded 4 year.toNat
  else (if year < 0 then "-" else "+") ++ padded 4 year.natAbs

/-- `utc.format("%Y-%m-%dT%H:%M:%S")`. -/
def UtcTime.base (ts : UtcTime) : String :=
  formatYear ts.year ++ "-" ++ padded 2 ts.month ++ "-" ++ padded 2 ts.day ++ "T" ++
    padded 2 ts.hour ++ ":" ++ padded 2 ts.minute ++ ":" ++
    padded 2 (ts.second + ts.nanos / 1000000000)

/-- `chrono` is `DateTime::parse_from_rfc3339` followed by `with_timezone(&Utc)`. -/
def normalizeTimestamp (chrono : String → Option UtcTime) (s : String) : Option String :=
  (chrono s).map fun ts =>
    if ts.nanos = 0 then ts.base ++ "Z"
    else
      let frac := (padded 9 ts.nanos).toList.rdropWhile (· == '0')
      ts.base ++ "." ++ String.ofList frac ++ "Z"

def normalizeStringScalar (t : Text) (s : String) : Except RhoRule String :=
  let withoutBom := String.ofList (s.toList.filter (· != '\uFEFF'))
  if containsControlChar withoutBom then .error .controlCharPresent
  else .ok (t.nfc withoutBom)

def normalizeKeyScalar (t : Text) (k : String) : Except RhoRule String := do
  let normalized ← normalizeStringScalar t k
  if normalized = "" then throw .emptyKeyAfterNormalization
  pure normalized

def isTimestampKey (key : String) : Bool :=
  let key := key.toList.map Char.toLower
  "_at".toList.isSuffixOf key || "_time".toList.isSuffixOf key ||
    "created".toList.isSuffixOf key || "expires".toList.isSuffixOf key ||
    "issued".toList.isSuffixOf key

def isSetLikeKey (key : String) : Bool :=
  key == "chip_types" || key == "policy_refs" || key == "evidence_cids" || key == "audience"

/-- Each item with its NRF bytes. -/
def withNrfBytes (t : Text) (path : String) (idx : Nat) :
    List Json → Except RhoError (List (List UInt8 × Json))
  | [] => .ok []
  | item :: items => do
    let nrf ← jsonToNrfWithPath t item (pathForIndex path idx)
    let pairs ← withNrfBytes t path (idx + 1) items
    pure ((MAGIC ++ encodeValue nrf, item) :: pairs)

/-- `dedup_by`: of consecutive pairs with equal bytes the first stays. -/
def dedupPairs : List (List UInt8 × Json) → List (List UInt8 × Json)
  | [] => []
  | p :: pairs =>
    match dedupPairs pairs with
    | [] => [p]
    | q :: rest => if p.1 = q.1 then p :: rest else p :: q :: rest

def normalizeAsSetWithPath (t : Text) (items : List Json) (path : String) :
    Except RhoError (List Json) := do
  let pairs ← withNrfBytes t path 0 items
  let sorted := pairs.mergeSort fun a b => decide (a.1 ≤ b.1)
  pure ((dedupPairs sorted).map Prod.snd)

/-- `map_err(|e| anyhow!("ρ violation at {}: {}", path, e))`. -/
def atPath {α : Type} (path : String) : Except RhoRule α → Except RhoError α
  | .error rule => .error ⟨path, rule⟩
  | .ok a => .ok a

section

variable (t : Text) (chrono : String → Option UtcTime)

mutual

def normalizeValueForInput : Json → Option String → String → Except RhoError Json
  | .null, _, _ => .ok .null
  | .bool b, _, _ => .ok (.bool b)
  | .number n, _, _ => .ok (.number n)
  | .string s, parentKey, path => do
    let normalized ← atPath path (normalizeStringScalar t s)
    if parentKey.any isTimestampKey then
      match normalizeTimestamp chrono normalized with
      | some ts => pure (.string ts)
      | none => pure (.string normalized)
    else pure (.string normalized)
  | .array arr, parentKey, path => do
    let out ← normalizeItems path 0 arr
    if parentKey.any isSetLikeKey then do
      let set ← normalizeAsSetWithPath t out path
      pure (.array set)
    else pure (.array out)
  | .object map, _, path => do
    let out ← normalizeMembers path [] map
    pure (.object out)

def normalizeItems (path : String) (idx : Nat) : List Json → Except RhoError (List Json)
  | [] => .ok []
  | item :: arr => do
    let v ← normalizeValueForInput item none (pathForIndex path idx)
    let out ← normalizeItems path (idx + 1) arr
    pure (v :: out)

def normalizeMembers (path : String) (out : List (String × Json)) :
    List (String × Json) → Except RhoError (List (String × Json))
  | [] => .ok out
  | (k, v) :: map => do
    let keyPath := pathForKey t path k
    let normalizedKey ← atPath keyPath (normalizeKeyScalar t k)
    let normalizedValue ← normalizeValueForInput v (some normalizedKey) keyPath
    -- ρ: null values are stripped from maps
    if normalizedValue.isNull then normalizeMembers path out map
    else if normalizedKey ∈ keys out then throw ⟨path, .duplicateKey normalizedKey⟩
    else normalizeMembers path (insertBack normalizedKey normalizedValue out) map

end

def normalizeForInput (value : Json) : Except RhoError Json :=
  normalizeValueForInput t chrono value none "body"

end

/-! ## Clean text -/

/-- What the normalisation relies on of NFC: it keeps a string free of byte order marks
and control characters, its result is in NFC, and ASCII text is in NFC already. -/
structure Text.Lawful (t : Text) : Prop where
  clean_nfc : ∀ s, hasBom s = false → containsControlChar s = false → t.Clean (t.nfc s)
  nfc_ascii : ∀ s, (∀ c ∈ s.toList, c.toNat < 0x80) → t.nfc s = s

theorem asciiText_lawful : asciiText.Lawful :=
  ⟨fun _ hb hc => ⟨hb, hc, rfl⟩, fun _ _ => rfl⟩

/-- ASCII without control characters. -/
def Printable (s : String) : Prop := ∀ c ∈ s.toList, 0x20 ≤ c.toNat ∧ c.toNat < 0x80

theorem Printable.append {a b : String} (ha : Printable a) (hb : Printable b) :
    Printable (a ++ b) := by
  intro c hc
  rw [String.toList_append, List.mem_append] at hc
  exact hc.elim (ha c) (hb c)

theorem Printable.clean {t : Text} (ht : t.Lawful) {s : String} (h : Printable s) :
    t.Clean s := by
  refine ⟨?_, ?_, ht.nfc_ascii s fun c hc => (h c hc).2⟩
  · rw [hasBom, List.any_eq_false]
    intro c hc heq
    obtain rfl := eq_of_beq heq
    exact absurd (h _ hc).2 (by decide)
  · rw [containsControlChar, List.any_eq_false]
    intro c hc hle
    have := (h c hc).1
    have := of_decide_eq_true hle
    omega

theorem printable_of_isDigit {c : Char} (h : c.isDigit) : 0x20 ≤ c.toNat ∧ c.toNat < 0x80 := by
  rw [Char.isDigit, Bool.and_eq_true, decide_eq_true_eq, decide_eq_true_eq,
    ge_iff_le, UInt32.le_iff_toNat_le, UInt32.le_iff_toNat_le] at h
  have h0 : '0'.val.toNat = 48 := rfl
  have h9 : '9'.val.toNat = 57 := rfl
  simp only [Char.toNat]
  omega

theorem printable_nat (n : Nat) : Printable (toString n) := by
  intro c hc
  have hmem : c ∈ Nat.toDigits 10 n := by
    simpa [Nat.toString_eq_repr, Nat.repr] using hc
  exact printable_of_isDigit (Nat.isDigit_of_mem_toDigits (by decide) (by decide) hmem)

theorem printable_int (i : Int) : Printable (toString i) := by
  rw [Int.toString_eq_repr, Int.repr_eq_if]
  split_ifs
  · exact printable_nat _
  · exact Printable.append (by simp [Printable]) (printable_nat _)

theorem printable_padded (width n : Nat) : Printable (padded width n) := by
  refine Printable.append (fun c hc => ?_) (printable_nat n)
  rw [String.toList_ofList] at hc
  obtain rfl := List.eq_of_mem_replicate hc
  decide

theorem printable_base (ts : UtcTime) : Printable ts.base := by
  have hyear : Printable (formatYear ts.year) := by
    unfold formatYear
    split_ifs
    · exact printable_padded _ _
    · exact Printable.append (by simp [Printable]) (printable_padded _ _)
    · exact Printable.append (by simp [Printable]) (printable_padded _ _)
  have hsep (s : String) (n : Nat) (hs : Printable s) : Printable (s ++ padded 2 n) :=
    hs.append (printable_padded 2 n)
  unfold UtcTime.base
  refine hsep _ _ (Printable.append (hsep _ _ (Printable.append (hsep _ _ (Printable.append
    (hsep _ _ (Printable.append (hsep _ _ (hyear.append ?_)) ?_)) ?_)) ?_)) ?_) <;> simp [Printable]

/-- A normalised timestamp is plain ASCII. -/
theorem printable_normalizeTimestamp {chrono : String → Option UtcTime} {s ts : String}
    (h : normalizeTimestamp chrono s = some ts) : Printable ts := by
  obtain ⟨utc, -, rfl⟩ := Option.map_eq_some_iff.mp h
  split_ifs with hn
  · exact (printable_base utc).append (by simp [Printable])
  · refine (((printable_base utc).append (by simp [Printable])).append fun c hc => ?_).append (by simp [Printable])
    rw [String.toList_ofList] at hc
    exact printable_padded 9 utc.nanos c ((List.rdropWhile_prefix _ _).subset hc)

theorem clean_normalizeStringScalar {t : Text} (ht : t.Lawful) {s r : String}
    (h : normalizeStringScalar t s = .ok r) : t.Clean r := by
  simp only [normalizeStringScalar] at h
  split_ifs at h with hctl
  obtain rfl := Except.ok.inj h
  refine ht.clean_nfc _ ?_ (Bool.not_eq_true _ ▸ hctl)
  rw [hasBom, String.toList_ofList, List.any_eq_false]
  intro c hc heq
  have hne := (List.mem_filter.mp hc).2
  simp [eq_of_beq heq] at hne

theorem clean_normalizeKeyScalar {t : Text} (ht : t.Lawful) {k r : String}
    (h : normalizeKeyScalar t k = .ok r) : t.Clean r := by
  obtain ⟨n, hn, h⟩ := bind_eq_ok.mp h
  simp only [throw_eq_error, bind_error, ite_error_eq_ok, pure_eq_ok, Except.ok.injEq] at h
  exact h.2 ▸ clean_normalizeStringScalar ht hn

theorem atPath_eq_ok {α : Type} {path : String} {x : Except RhoRule α} {a : α} :
    atPath path x = .ok a ↔ x = .ok a := by
  cases x <;> simp [atPath]

/-! ## The output is tidy -/

/-- Clean text at every depth and distinct keys in every object. -/
def Tidy (t : Text) (j : Json) : Prop :=
  Json.Everywhere (fun
    | .string s => t.Clean s
    | .object members => AssocMap.DistinctKeys members ∧ ∀ e ∈ members, t.Clean e.1
    | _ => True) j

theorem Tidy.distinctKeys {t : Text} {j : Json} (h : Tidy t j) : j.DistinctKeys := by
  refine h.mono fun j hj => ?_
  cases j with
  | object members => exact hj.1
  | _ => trivial

theorem mem_of_mem_dedupPairs {p : List UInt8 × Json} {pairs : List (List UInt8 × Json)}
    (h : p ∈ dedupPairs pairs) : p ∈ pairs := by
  induction pairs with
  | nil => exact h
  | cons q pairs ih =>
    rw [dedupPairs] at h
    split at h
    · simp_all
    · next r rest heq =>
      rw [heq] at ih
      split_ifs at h
      · rcases List.mem_cons.mp h with rfl | h
        · exact List.mem_cons_self
        · exact List.mem_cons_of_mem _ (ih (List.mem_cons_of_mem _ h))
      · rcases List.mem_cons.mp h with rfl | h
        · exact List.mem_cons_self
        · exact List.mem_cons_of_mem _ (ih h)

theorem snd_mem_of_withNrfBytes {t : Text} {path : String} {items : List Json} {idx : Nat}
    {pairs : List (List UInt8 × Json)} (h : withNrfBytes t path idx items = .ok pairs) :
    ∀ p ∈ pairs, p.2 ∈ items := by
  induction items generalizing idx pairs with
  | nil =>
    obtain rfl := Except.ok.inj h
    simp
  | cons item items ih =>
    obtain ⟨nrf, -, h⟩ := bind_eq_ok.mp h
    obtain ⟨rest, hrest, h⟩ := bind_eq_ok.mp h
    obtain rfl := Except.ok.inj h
    intro p hp
    rcases List.mem_cons.mp hp with rfl | hp
    · exact List.mem_cons_self
    · exact List.mem_cons_of_mem _ (ih hrest p hp)

/-- Normalising as a set only reorders and drops items. -/
theorem mem_of_normalizeAsSet {t : Text} {items set : List Json} {path : String}
    (h : normalizeAsSetWithPath t items path = .ok set) : ∀ v ∈ set, v ∈ items := by
  obtain ⟨pairs, hpairs, h⟩ := bind_eq_ok.mp h
  obtain rfl := Except.ok.inj h
  intro v hv
  obtain ⟨p, hp, rfl⟩ := List.mem_map.mp hv
  exact snd_mem_of_withNrfBytes hpairs p (List.mem_mergeSort.mp (mem_of_mem_dedupPairs hp))

section

variable {t : Text} {chrono : String → Option UtcTime}

theorem normalizeItems_tidy {arr : List Json}
    (ih : ∀ j ∈ arr, ∀ parentKey path v,
      normalizeValueForInput t chrono j parentKey path = .ok v → Tidy t v)
    {path : String} {idx : Nat} {out : List Json}
    (h : normalizeItems t chrono path idx arr = .ok out) : ∀ v ∈ out, Tidy t v := by
  induction arr generalizing idx out with
  | nil =>
    obtain rfl := Except.ok.inj h
    simp
  | cons item arr iharr =>
    obtain ⟨v, hv, h⟩ := bind_eq_ok.mp h
    obtain ⟨rest, hrest, h⟩ := bind_eq_ok.mp h
    obtain rfl := Except.ok.inj h
    intro w hw
    rcases List.mem_cons.mp hw with rfl | hw
    · exact ih item List.mem_cons_self _ _ _ hv
    · exact iharr (fun j hj => ih j (List.mem_cons_of_mem _ hj)) hrest w hw

theorem normalizeMembers_tidy (ht : t.Lawful) {map : List (String × Json)}
    (ih : ∀ e ∈ map, ∀ parentKey path v,
      normalizeValueForInput t chrono e.2 parentKey path = .ok v → Tidy t v)
    {path : String} {out res : List (String × Json)} (hout : Tidy t (.object out))
    (h : normalizeMembers t chrono path out map = .ok res) : Tidy t (.object res) := by
  induction map generalizing out with
  | nil =>
    obtain rfl := Except.ok.inj h
    exact hout
  | cons e map ihmap =>
    obtain ⟨k, v⟩ := e
    have ihmap := @ihmap fun e he => ih e (List.mem_cons_of_mem _ he)
    obtain ⟨key, hkey, h⟩ := bind_eq_ok.mp h
    obtain ⟨value, hvalue, h⟩ := bind_eq_ok.mp h
    split_ifs at h with hnull hdup
    · exact ihmap hout h
    · refine ihmap ?_ h
      simp only [Tidy, Json.everywhere_object] at hout ⊢
      have hclean := clean_normalizeKeyScalar ht (atPath_eq_ok.mp hkey)
      have hval : Tidy t value := ih (k, v) List.mem_cons_self _ _ _ hvalue
      rw [insertBack_new value hdup]
      refine ⟨⟨hout.1.1.append_new value hdup, ?_⟩, ?_⟩
      · intro f hf
        rcases List.mem_append.mp hf with hf | hf
        · exact hout.1.2 f hf
        · rwa [List.mem_singleton.mp hf]
      · intro f hf
        rcases List.mem_append.mp hf with hf | hf
        · exact hout.2 f hf
        · rwa [List.mem_singleton.mp hf]

theorem normalizeValueForInput_tidy (ht : t.Lawful) (j : Json) :
    ∀ parentKey path v, normalizeValueForInput t chrono j parentKey path = .ok v → Tidy t v := by
  induction j using Json.ind with
  | null =>
    rintro _ _ _ ⟨⟩
    exact .null trivial
  | bool b =>
    rintro _ _ _ ⟨⟩
    exact .bool b trivial
  | number n =>
    rintro _ _ _ ⟨⟩
    exact .number n trivial
  | string s =>
    intro parentKey path v h
    obtain ⟨r, hr, h⟩ := bind_eq_ok.mp h
    have hclean := clean_normalizeStringScalar ht (atPath_eq_ok.mp hr)
    split_ifs at h
    · split at h
      · next ts hts =>
        obtain rfl := Except.ok.inj h
        exact .string ts ((printable_normalizeTimestamp hts).clean ht)
      · obtain rfl := Except.ok.inj h
        exact .string r hclean
    · obtain rfl := Except.ok.inj h
      exact .string r hclean
  | array arr ih =>
    intro parentKey path v h
    obtain ⟨out, hout, h⟩ := bind_eq_ok.mp h
    have htidy := normalizeItems_tidy ih hout
    split_ifs at h
    · obtain ⟨set, hset, h⟩ := bind_eq_ok.mp h
      obtain rfl := Except.ok.inj h
      exact .array set trivial fun v hv => htidy v (mem_of_normalizeAsSet hset v hv)
    · obtain rfl := Except.ok.inj h
      exact .array out trivial htidy
  | object map ih =>
    intro parentKey path v h
    obtain ⟨out, hout, h⟩ := bind_eq_ok.mp h
    obtain rfl := Except.ok.inj h
    exact normalizeMembers_tidy ht ih (.object [] ⟨List.nodup_nil, by simp⟩ (by simp)) hout

theorem normalizeForInput_tidy (ht : t.Lawful) {j v : Json}
    (h : normalizeForInput t chrono j = .ok v) : Tidy t v :=
  normalizeValueForInput_tidy ht j _ _ v h

end

end Ubl.Nrf
