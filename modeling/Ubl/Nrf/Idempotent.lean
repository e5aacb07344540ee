import Ubl.Nrf.Sets
import Ubl.Nrf.Timestamps

/-!
# `nrf.rs`: normalising twice

A normalised value has clean text, no null member and its sets in order, so nothing of it changes
in a second normalisation but the fractions of leap seconds.  If none of the leap seconds that are
read can change, the second normalisation returns what the first one did, and otherwise it does
not (`normalizeForInput_idempotent_iff`).
-/

namespace Ubl.Nrf

open AssocMap ExceptLemmas

variable {t : Text} {chrono : String → Option UtcTime}

/-! ## Clean text -/

theorem normalizeStringScalar_of_clean {s : String} (h : t.Clean s) :
    normalizeStringScalar t s = .ok s := by
  obtain ⟨hbom, hctl, hnfc⟩ := h
  have hfilter : s.toList.filter (· != '\uFEFF') = s.toList := by
    rw [List.filter_eq_self]
    intro c hc
    have := List.any_eq_false.mp hbom c hc
    simpa using this
  rw [normalizeStringScalar, hfilter, String.ofList_toList, hctl, hnfc]
  rfl

theorem normalizeKeyScalar_of_clean {k : String} (h : t.Clean k) (hne : k ≠ "") :
    normalizeKeyScalar t k = .ok k := by
  rw [normalizeKeyScalar, normalizeStringScalar_of_clean h, bind_ok, if_neg hne]
  rfl

/-- A normalised key stays. -/
theorem normalizeKeyScalar_again (ht : t.Lawful) {k key : String}
    (h : normalizeKeyScalar t k = .ok key) : normalizeKeyScalar t key = .ok key := by
  have hne : key ≠ "" := by
    obtain ⟨n, hn, h⟩ := bind_eq_ok.mp h
    simp only [throw_eq_error, bind_error, ite_error_eq_ok, pure_eq_ok, Except.ok.injEq] at h
    exact h.2 ▸ h.1
  exact normalizeKeyScalar_of_clean (clean_normalizeKeyScalar ht h) hne

theorem normalizedKey_eq_some {k key : String} :
    normalizedKey t k = some key ↔ normalizeKeyScalar t k = .ok key := by
  rw [normalizedKey]
  cases normalizeKeyScalar t k <;> simp [Except.toOption]

/-! ## Timestamps in a value -/

/-- `P` holds of every text under a timestamp key, at any depth. -/
def Times (t : Text) (P : String → Prop) (v : Json) : Prop :=
  Json.Everywhere (fun
    | .object members => ∀ e ∈ members, (normalizedKey t e.1).any isTimestampKey = true →
        ∀ s, e.2 = .string s → P s
    | _ => True) v

/-- So it does of the value itself, should it stand under such a key. -/
def TimesAt (t : Text) (P : String → Prop) (parentKey : Option String) (v : Json) : Prop :=
  (parentKey.any isTimestampKey = true → ∀ s, v = .string s → P s) ∧ Times t P v

section

variable {P Q : String → Prop} {parentKey : Option String}

theorem timesAt_string {s : String} :
    TimesAt t P parentKey (.string s) ↔ (parentKey.any isTimestampKey = true → P s) := by
  simp [TimesAt, Times]

theorem timesAt_array {items : List Json} :
    TimesAt t P parentKey (.array items) ↔ ∀ v ∈ items, TimesAt t P none v := by
  simp [TimesAt, Times]

theorem timesAt_object {members : List (String × Json)} :
    TimesAt t P parentKey (.object members) ↔
      ∀ e ∈ members, TimesAt t P (normalizedKey t e.1) e.2 := by
  simp only [TimesAt, Times, Json.everywhere_object, forall_and, reduceCtorEq, false_imp_iff,
    implies_true, true_and]

theorem timesAt_true (v : Json) (parentKey : Option String) :
    TimesAt t (fun _ => True) parentKey v := by
  induction v using Json.ind generalizing parentKey with
  | null | bool | number => simp [TimesAt, Times]
  | string s => exact timesAt_string.mpr fun _ => trivial
  | array items ih => exact timesAt_array.mpr fun v hv => ih v hv none
  | object members ih => exact timesAt_object.mpr fun e he => ih e he _

/-- What the normalisation makes of a text under a timestamp key. -/
def nextText (chrono : String → Option UtcTime) (r : String) : String :=
  (normalizeTimestamp chrono r).getD r

theorem normalizeString_eq_ok {s path : String} {w : Json} :
    normalizeValueForInput t chrono (.string s) parentKey path = .ok w ↔
      ∃ r, normalizeStringScalar t s = .ok r ∧
        w = .string (if parentKey.any isTimestampKey = true then nextText chrono r else r) := by
  simp only [normalizeValueForInput, bind_eq_ok, atPath_eq_ok]
  refine exists_congr fun r => and_congr_right fun _ => ?_
  unfold nextText
  split_ifs
  · cases normalizeTimestamp chrono r <;> simp [eq_comm]
  · simp [eq_comm]

/-- A member that normalises to something is there, unless that is null. -/
theorem mem_of_normalizeMembers {map out res : List (String × Json)} {path : String}
    (h : normalizeMembers t chrono path out map = .ok res) :
    (∀ e ∈ out, e ∈ res) ∧ ∀ f ∈ map, ∃ key value p, normalizeKeyScalar t f.1 = .ok key ∧
      normalizeValueForInput t chrono f.2 (some key) p = .ok value ∧
      (value.isNull = true ∨ (key, value) ∈ res) := by
  induction map generalizing out with
  | nil =>
    obtain rfl := Except.ok.inj h
    exact ⟨fun _ he => he, nofun⟩
  | cons f map ih =>
    obtain ⟨key, hkey, h⟩ := bind_eq_ok.mp h
    obtain ⟨value, hvalue, h⟩ := bind_eq_ok.mp h
    have hkey := atPath_eq_ok.mp hkey
    split_ifs at h with hnull hdup
    · obtain ⟨hout, hmap⟩ := ih h
      exact ⟨hout, List.forall_mem_cons.mpr ⟨⟨key, value, _, hkey, hvalue, .inl hnull⟩, hmap⟩⟩
    · obtain ⟨hout, hmap⟩ := ih h
      rw [insertBack_new value hdup] at hout
      have hnew := hout (key, value) (List.mem_append_right _ List.mem_cons_self)
      exact ⟨fun e he => hout e (List.mem_append_left _ he),
        List.forall_mem_cons.mpr ⟨⟨key, value, _, hkey, hvalue, .inr hnew⟩, hmap⟩⟩

/-- Texts with `Q` become texts with `P`. -/
theorem timesAt_normalize (ht : t.Lawful)
    (hPQ : ∀ s r, Q s → normalizeStringScalar t s = .ok r → P (nextText chrono r)) (j : Json) :
    ∀ parentKey path w, normalizeValueForInput t chrono j parentKey path = .ok w →
      TimesAt t Q parentKey j → TimesAt t P parentKey w := by
  induction j using Json.ind with
  | null =>
    rintro _ _ _ ⟨⟩ -
    exact ⟨nofun, .null trivial⟩
  | bool b =>
    rintro _ _ _ ⟨⟩ -
    exact ⟨nofun, .bool b trivial⟩
  | number n =>
    rintro _ _ _ ⟨⟩ -
    exact ⟨nofun, .number n trivial⟩
  | string s =>
    intro parentKey path w h hQ
    obtain ⟨r, hr, rfl⟩ := normalizeString_eq_ok.mp h
    rw [timesAt_string] at hQ ⊢
    intro hkey
    rw [if_pos hkey]
    exact hPQ s r (hQ hkey) hr
  | array arr ih =>
    intro parentKey path w h hQ
    obtain ⟨out, hout, h⟩ := bind_eq_ok.mp h
    rw [timesAt_array] at hQ
    have hitems : ∀ w ∈ out, TimesAt t P none w := by
      intro w hw
      obtain ⟨v, hv, p, hvw⟩ := (mem_normalizeItems hout).2 w hw
      exact ih v hv none p w hvw (hQ v hv)
    split_ifs at h
    · obtain ⟨set, hset, h⟩ := bind_eq_ok.mp h
      obtain rfl := Except.ok.inj h
      exact timesAt_array.mpr fun w hw => hitems w (mem_of_normalizeAsSet hset w hw)
    · obtain rfl := Except.ok.inj h
      exact timesAt_array.mpr hitems
  | object map ih =>
    intro parentKey path w h hQ
    obtain ⟨out, hout, h⟩ := bind_eq_ok.mp h
    obtain rfl := Except.ok.inj h
    rw [timesAt_object] at hQ ⊢
    intro e he
    rcases mem_normalizeMembers hout he with he | ⟨f, hf, p, hkey, -, hvalue⟩
    · cases he
    · have hself := normalizedKey_eq_some.mpr (normalizeKeyScalar_again ht hkey)
      have hraw := normalizedKey_eq_some.mpr hkey
      rw [hself]
      exact ih f hf (some e.1) p e.2 hvalue (hraw ▸ hQ f hf)

end

/-! ## Normal values -/

/-- Members are not null, and their keys stay. -/
def Trimmed (t : Text) (v : Json) : Prop :=
  Json.Everywhere (fun
    | .object members => AssocMap.DistinctKeys members ∧
        ∀ e ∈ members, normalizeKeyScalar t e.1 = .ok e.1 ∧ e.2.isNull = false
    | .string s => normalizeStringScalar t s = .ok s
    | _ => True) v

theorem trimmed_of_normalize (ht : t.Lawful) (j : Json) :
    ∀ parentKey path w, normalizeValueForInput t chrono j parentKey path = .ok w → Trimmed t w := by
  induction j using Json.ind with
  | null =>
    rintro _ _ _ ⟨⟩
    exact .null trivial
  | bool b =>
    rintro _ _ _ ⟨⟩
    exact .bool b trivial
  | number n =>
    rintro _ _ _ ⟨⟩
    exact .number n trivial
  | string s =>
    intro parentKey path w h
    have htidy := normalizeValueForInput_tidy ht _ _ _ _ h
    obtain ⟨r, hr, rfl⟩ := normalizeString_eq_ok.mp h
    exact .string _ (normalizeStringScalar_of_clean htidy.here)
  | array arr ih =>
    intro parentKey path w h
    obtain ⟨out, hout, h⟩ := bind_eq_ok.mp h
    have hitems : ∀ w ∈ out, Trimmed t w := by
      intro w hw
      obtain ⟨v, hv, p, hvw⟩ := (mem_normalizeItems hout).2 w hw
      exact ih v hv none p w hvw
    split_ifs at h
    · obtain ⟨set, hset, h⟩ := bind_eq_ok.mp h
      obtain rfl := Except.ok.inj h
      exact .array set trivial fun w hw => hitems w (mem_of_normalizeAsSet hset w hw)
    · obtain rfl := Except.ok.inj h
      exact .array out trivial hitems
  | object map ih =>
    intro parentKey path w h
    have htidy := normalizeValueForInput_tidy ht _ _ _ _ h
    obtain ⟨out, hout, h⟩ := bind_eq_ok.mp h
    obtain rfl := Except.ok.inj h
    refine .object out ⟨htidy.here.1, fun e he => ?_⟩ fun e he => ?_
    · rcases mem_normalizeMembers hout he with he | ⟨f, hf, p, hkey, hnull, -⟩
      · cases he
      · exact ⟨normalizeKeyScalar_again ht hkey, hnull⟩
    · rcases mem_normalizeMembers hout he with he | ⟨f, hf, p, -, -, hvalue⟩
      · cases he
      · exact ih f hf (some e.1) p e.2 hvalue

/-- The sets of a value are in order, and so is the value itself where it stands as one. -/
def SetsAt (t : Text) (parentKey : Option String) (v : Json) : Prop :=
  SetsAscending t v ∧
    (parentKey.any isSetLikeKey = true → ∀ items, v = .array items → AscendingSet t items)

theorem normalizeItems_of_fixed {items : List Json}
    (h : ∀ v ∈ items, ∀ p, normalizeValueForInput t chrono v none p = .ok v) (path : String)
    (idx : Nat) : normalizeItems t chrono path idx items = .ok items := by
  induction items generalizing idx with
  | nil => rfl
  | cons v items ih =>
    rw [normalizeItems, h v List.mem_cons_self, bind_ok,
      ih fun u hu => h u (List.mem_cons_of_mem _ hu)]
    rfl

theorem normalizeMembers_of_fixed {members out : List (String × Json)}
    (hd : AssocMap.DistinctKeys (out ++ members))
    (h : ∀ e ∈ members, normalizeKeyScalar t e.1 = .ok e.1 ∧ e.2.isNull = false ∧
      ∀ p, normalizeValueForInput t chrono e.2 (some e.1) p = .ok e.2) (path : String) :
    normalizeMembers t chrono path out members = .ok (out ++ members) := by
  induction members generalizing out with
  | nil => rw [List.append_nil]; rfl
  | cons e members ih =>
    obtain ⟨k, v⟩ := e
    obtain ⟨hkey, hnull, hvalue⟩ := h (k, v) List.mem_cons_self
    have hnew : k ∉ keys out := by
      intro hk
      rw [AssocMap.DistinctKeys, keys, List.map_append] at hd
      exact (List.nodup_append.mp hd).2.2 k hk k List.mem_cons_self rfl
    have happend : out ++ (k, v) :: members = (out ++ [(k, v)]) ++ members := by simp
    rw [happend] at hd ⊢
    have ih := ih hd fun e he => h e (List.mem_cons_of_mem _ he)
    simp only [normalizeMembers, hkey, atPath, bind_ok, hvalue, hnull, insertBack_new v hnew]
    rw [if_neg (by simp), if_neg hnew]
    exact ih

/-- A normal value whose timestamps stay is normalised to itself. -/
theorem normalize_of_stable (w : Json) :
    ∀ parentKey path, w.DistinctKeys → Trimmed t w → SetsAt t parentKey w →
      TimesAt t (StableText chrono) parentKey w →
      normalizeValueForInput t chrono w parentKey path = .ok w := by
  induction w using Json.ind with
  | null => exact fun _ _ _ _ _ _ => rfl
  | bool b => exact fun _ _ _ _ _ _ => rfl
  | number n => exact fun _ _ _ _ _ _ => rfl
  | string s =>
    intro parentKey path _ htrim _ htimes
    refine normalizeString_eq_ok.mpr ⟨s, htrim.here, ?_⟩
    split_ifs with hkey
    · have hstable := timesAt_string.mp htimes hkey
      rw [nextText]
      cases hnext : normalizeTimestamp chrono s with
      | none => rfl
      | some y => rw [Option.getD_some, hstable y hnext]
    · rfl
  | array items ih =>
    intro parentKey path hd htrim hsets htimes
    simp only [Json.DistinctKeys, Trimmed, Json.everywhere_array, true_and] at hd htrim
    have hitems : normalizeItems t chrono path 0 items = .ok items := by
      refine normalizeItems_of_fixed (fun v hv p => ?_) path 0
      have hascending := (Json.everywhere_array.mp hsets.1).2 v hv
      exact ih v hv none p (hd v hv) (htrim v hv) ⟨hascending, nofun⟩
        (timesAt_array.mp htimes v hv)
    rw [normalizeValueForInput, hitems, bind_ok]
    split_ifs with hkey
    · obtain ⟨hrho, hpairwise⟩ := (ascendingSet_iff hd).mp (hsets.2 hkey items rfl)
      have hset : normalizeAsSetWithPath t items path = .ok items :=
        (normalizeAsSet_eq_ok hd).mpr ⟨hrho, (canonicalSet_of_pairwise hpairwise).symm⟩
      rw [hset]
      rfl
    · rfl
  | object members ih =>
    intro parentKey path hd htrim hsets htimes
    simp only [Json.DistinctKeys, Trimmed, Json.everywhere_object] at hd htrim
    have hmembers : normalizeMembers t chrono path [] members = .ok members := by
      refine normalizeMembers_of_fixed (show AssocMap.DistinctKeys ([] ++ members) from hd.1)
        (fun e he => ?_) path
      obtain ⟨hkey, hnull⟩ := htrim.1.2 e he
      have htimes := timesAt_object.mp htimes e he
      rw [normalizedKey_eq_some.mpr hkey] at htimes
      obtain ⟨hascending, hinner⟩ := Json.everywhere_object.mp hsets.1
      refine ⟨hkey, hnull, fun p => ih e he (some e.1) p (hd.2 e he) (htrim.2 e he)
        ⟨hinner e he, fun hset items hitems => ?_⟩ htimes⟩
      exact hascending e.1 items (hitems ▸ he) hset
    rw [normalizeValueForInput, hmembers]
    rfl

/-! ## Leap seconds come to rest -/

mutual

/-- The unrest of all texts under timestamp keys together. -/
def totalUnrest (chrono : String → Option UtcTime) : Option String → Json → Nat
  | parentKey, .string s => if parentKey.any isTimestampKey then unrest chrono s else 0
  | _, .array items => totalItems chrono items
  | _, .object members => totalMembers chrono members
  | _, _ => 0

def totalItems (chrono : String → Option UtcTime) : List Json → Nat
  | [] => 0
  | v :: items => totalUnrest chrono none v + totalItems chrono items

def totalMembers (chrono : String → Option UtcTime) : List (String × Json) → Nat
  | [] => 0
  | (k, v) :: members => totalUnrest chrono (some k) v + totalMembers chrono members

end

theorem totalItems_eq_sum (items : List Json) :
    totalItems chrono items = (items.map (totalUnrest chrono none)).sum := by
  induction items with
  | nil => rfl
  | cons v items ih => rw [totalItems, ih, List.map_cons, List.sum_cons]

theorem totalMembers_append (ms ns : List (String × Json)) :
    totalMembers chrono (ms ++ ns) = totalMembers chrono ms + totalMembers chrono ns := by
  induction ms with
  | nil => rw [List.nil_append, totalMembers, Nat.zero_add]
  | cons e ms ih => rw [List.cons_append, totalMembers, totalMembers, ih, Nat.add_assoc]

theorem dedupPairs_sublist (pairs : List (List UInt8 × Json)) :
    (dedupPairs pairs).Sublist pairs := by
  induction pairs with
  | nil => exact .slnil
  | cons p pairs ih =>
    rw [dedupPairs]
    split
    · exact List.singleton_sublist.mpr List.mem_cons_self
    · next q rest h =>
      rw [h] at ih
      split_ifs
      · exact ((List.sublist_cons_self q rest).trans ih).cons_cons p
      · exact ih.cons_cons p

/-- Items only go. -/
theorem totalItems_canonicalSet_le (chrono : String → Option UtcTime) (items : List Json) :
    totalItems chrono (canonicalSet items) ≤ totalItems chrono items := by
  have hperm := ((List.mergeSort_perm (items.map fun v => (bytesOf v, v)) fun a b =>
    decide (a.1 ≤ b.1)).map Prod.snd).map (totalUnrest chrono none)
  have hsub := ((dedupPairs_sublist ((items.map fun v => (bytesOf v, v)).mergeSort fun a b =>
    decide (a.1 ≤ b.1))).map Prod.snd).map (totalUnrest chrono none)
  rw [totalItems_eq_sum, totalItems_eq_sum, canonicalSet]
  refine (hsub.sum_le_sum fun _ _ => Nat.zero_le _).trans (le_of_eq ?_)
  rw [hperm.sum_eq, List.map_map, List.map_map]
  rfl

/-- A normalisation that does not lower the unrest has nothing to change. -/
def Calms (t : Text) (chrono : String → Option UtcTime) (parentKey : Option String) (v w : Json) :
    Prop :=
  totalUnrest chrono parentKey w ≤ totalUnrest chrono parentKey v ∧
    (totalUnrest chrono parentKey w = totalUnrest chrono parentKey v →
      TimesAt t (StableText chrono) parentKey v)

theorem calms_items {items out : List Json} {path : String} {idx : Nat}
    (ih : ∀ v ∈ items, ∀ p w, normalizeValueForInput t chrono v none p = .ok w →
      Calms t chrono none v w) (h : normalizeItems t chrono path idx items = .ok out) :
    totalItems chrono out ≤ totalItems chrono items ∧
      (totalItems chrono out = totalItems chrono items →
        ∀ v ∈ items, TimesAt t (StableText chrono) none v) := by
  induction items generalizing idx out with
  | nil =>
    obtain rfl := Except.ok.inj h
    exact ⟨le_rfl, fun _ => nofun⟩
  | cons v items ihitems =>
    obtain ⟨w, hw, h⟩ := bind_eq_ok.mp h
    obtain ⟨out, hout, h⟩ := bind_eq_ok.mp h
    obtain rfl := Except.ok.inj h
    obtain ⟨hle, hstable⟩ := ih v List.mem_cons_self _ w hw
    obtain ⟨hle', hstable'⟩ := ihitems (fun u hu => ih u (List.mem_cons_of_mem _ hu)) hout
    rw [totalItems, totalItems]
    refine ⟨Nat.add_le_add hle hle', fun heq => List.forall_mem_cons.mpr ⟨?_, ?_⟩⟩
    · exact hstable (by omega)
    · exact hstable' (by omega)

theorem isNull_of_normalize {v w : Json} {parentKey : Option String} {path : String}
    (h : normalizeValueForInput t chrono v parentKey path = .ok w) : w.isNull = v.isNull := by
  cases v with
  | null | bool | number =>
    obtain rfl := Except.ok.inj h
    rfl
  | string s =>
    obtain ⟨r, -, rfl⟩ := normalizeString_eq_ok.mp h
    rfl
  | array arr =>
    obtain ⟨out, -, h⟩ := bind_eq_ok.mp h
    split_ifs at h
    · obtain ⟨set, -, h⟩ := bind_eq_ok.mp h
      obtain rfl := Except.ok.inj h
      rfl
    · obtain rfl := Except.ok.inj h
      rfl
  | object map =>
    obtain ⟨out, -, h⟩ := bind_eq_ok.mp h
    obtain rfl := Except.ok.inj h
    rfl

theorem calms_members {members out res : List (String × Json)} {path : String}
    (htrim : ∀ e ∈ members, normalizeKeyScalar t e.1 = .ok e.1 ∧ e.2.isNull = false)
    (ih : ∀ e ∈ members, ∀ p w, normalizeValueForInput t chrono e.2 (some e.1) p = .ok w →
      Calms t chrono (some e.1) e.2 w)
    (h : normalizeMembers t chrono path out members = .ok res) :
    totalMembers chrono res ≤ totalMembers chrono out + totalMembers chrono members ∧
      (totalMembers chrono res = totalMembers chrono out + totalMembers chrono members →
        ∀ e ∈ members, TimesAt t (StableText chrono) (some e.1) e.2) := by
  induction members generalizing out with
  | nil =>
    obtain rfl := Except.ok.inj h
    exact ⟨le_rfl, fun _ => nofun⟩
  | cons e members ihmembers =>
    obtain ⟨k, v⟩ := e
    obtain ⟨hk, hnull⟩ := htrim (k, v) List.mem_cons_self
    obtain ⟨key, hkey, h⟩ := bind_eq_ok.mp h
    obtain ⟨w, hw, h⟩ := bind_eq_ok.mp h
    obtain rfl := Except.ok.inj (hk.symm.trans (atPath_eq_ok.mp hkey))
    rw [isNull_of_normalize hw, show v.isNull = false from hnull] at h
    simp only [Bool.false_eq_true, if_false, throw_eq_error, ite_error_eq_ok] at h
    obtain ⟨hnew, h⟩ := h
    rw [insertBack_new w hnew] at h
    have hcalm : Calms t chrono (some k) v w := ih (k, v) List.mem_cons_self _ w hw
    obtain ⟨hle, hstable⟩ := hcalm
    obtain ⟨hle', hstable'⟩ := ihmembers (fun f hf => htrim f (List.mem_cons_of_mem _ hf))
      (fun f hf => ih f (List.mem_cons_of_mem _ hf)) h
    rw [totalMembers_append, totalMembers, totalMembers] at hle' hstable'
    rw [totalMembers]
    refine ⟨by omega, fun heq => List.forall_mem_cons.mpr ⟨?_, ?_⟩⟩
    · exact hstable (by omega)
    · exact hstable' (by omega)

theorem calms_of_normalize (ht : t.Lawful) (hc : ChronoReads chrono) (v : Json) :
    ∀ parentKey path w, v.DistinctKeys → Trimmed t v → TimesAt t (Written chrono) parentKey v →
      normalizeValueForInput t chrono v parentKey path = .ok w → Calms t chrono parentKey v w := by
  induction v using Json.ind with
  | null =>
    rintro parentKey path w - - - ⟨⟩
    exact ⟨le_rfl, fun _ => ⟨nofun, .null trivial⟩⟩
  | bool b =>
    rintro parentKey path w - - - ⟨⟩
    exact ⟨le_rfl, fun _ => ⟨nofun, .bool b trivial⟩⟩
  | number n =>
    rintro parentKey path w - - - ⟨⟩
    exact ⟨le_rfl, fun _ => ⟨nofun, .number n trivial⟩⟩
  | string s =>
    intro parentKey path w _ htrim hwritten h
    obtain ⟨r, hr, rfl⟩ := normalizeString_eq_ok.mp h
    obtain rfl : s = r := Except.ok.inj (htrim.here.symm.trans hr)
    rw [Calms, timesAt_string]
    by_cases hkey : parentKey.any isTimestampKey = true
    · simp only [totalUnrest, hkey, if_true, forall_const]
      by_cases hstable : StableText chrono s
      · have hnext : nextText chrono s = s := by
          rw [nextText]
          cases hy : normalizeTimestamp chrono s with
          | none => rfl
          | some y => exact hstable y hy
        rw [hnext]
        exact ⟨le_rfl, fun _ => hstable⟩
      · obtain ⟨y, hy, hlt⟩ := unrest_lt hc (timesAt_string.mp hwritten hkey) hstable
        rw [nextText, hy, Option.getD_some]
        exact ⟨hlt.le, fun heq => absurd heq hlt.ne⟩
    · simp only [if_neg hkey, le_refl, true_and]
      exact fun _ hkey' => absurd hkey' hkey
  | array items ih =>
    intro parentKey path w hd htrim hwritten h
    simp only [Json.DistinctKeys, Trimmed, Json.everywhere_array, true_and] at hd htrim
    obtain ⟨out, hout, h⟩ := bind_eq_ok.mp h
    obtain ⟨hle, hstable⟩ := calms_items (fun v hv p w => ih v hv none p w (hd v hv) (htrim v hv)
      (timesAt_array.mp hwritten v hv)) hout
    rw [Calms, timesAt_array]
    split_ifs at h
    · obtain ⟨set, hset, h⟩ := bind_eq_ok.mp h
      obtain rfl := Except.ok.inj h
      have hdistinct : ∀ w ∈ out, w.DistinctKeys := fun w hw =>
        (normalizeItems_tidy (fun j _ => normalizeValueForInput_tidy ht j) hout w hw).distinctKeys
      obtain ⟨-, rfl⟩ := (normalizeAsSet_eq_ok hdistinct).mp hset
      have hset := totalItems_canonicalSet_le chrono out
      simp only [totalUnrest]
      exact ⟨hset.trans hle, fun heq => hstable (le_antisymm hle (heq ▸ hset))⟩
    · obtain rfl := Except.ok.inj h
      exact ⟨hle, hstable⟩
  | object members ih =>
    intro parentKey path w hd htrim hwritten h
    simp only [Json.DistinctKeys, Trimmed, Json.everywhere_object] at hd htrim
    obtain ⟨res, hres, h⟩ := bind_eq_ok.mp h
    obtain rfl := Except.ok.inj h
    have hself {e : String × Json} (he : e ∈ members) : normalizedKey t e.1 = some e.1 :=
      normalizedKey_eq_some.mpr (htrim.1.2 e he).1
    obtain ⟨hle, hstable⟩ := calms_members htrim.1.2 (fun e he p w => ih e he (some e.1) p w
      (hd.2 e he) (htrim.2 e he) (hself he ▸ timesAt_object.mp hwritten e he)) hres
    rw [totalMembers, Nat.zero_add] at hle hstable
    rw [Calms, timesAt_object]
    exact ⟨hle, fun heq e he => hself he ▸ hstable heq e he⟩

/-- The second normalisation leaves a result as it is just if its timestamps stay. -/
theorem normalize_again_iff (ht : t.Lawful) (hc : ChronoReads chrono) {v w : Json}
    (h : normalizeForInput t chrono v = .ok w) :
    normalizeForInput t chrono w = .ok w ↔ TimesAt t (StableText chrono) none w := by
  have hd := (normalizeForInput_tidy ht h).distinctKeys
  have htrim := trimmed_of_normalize ht v none "body" w h
  constructor
  · intro hagain
    have hwritten := timesAt_normalize ht (fun _ r _ _ => written_getD chrono r) v none "body" w h
      (timesAt_true v none)
    exact (calms_of_normalize ht hc w none "body" w hd htrim hwritten hagain).2 rfl
  · intro hstable
    exact normalize_of_stable w none "body" hd htrim (setsAscending_of_normalize ht v none "body" w h)
      hstable

/-! ## The condition on the input -/

/-- No leap second that is read from a text under a timestamp key can change. -/
def LeapsSettled (t : Text) (chrono : String → Option UtcTime) (v : Json) : Prop :=
  Times t (fun s => ∀ r ts, normalizeStringScalar t s = .ok r → chrono r = some ts → ts.Settled) v

/-- Counts, and the byte lengths of what texts are normalised to, are below 2^32. -/
def InputFits (t : Text) (chrono : String → Option UtcTime) (v : Json) : Prop :=
  Json.Everywhere (fun
    | .string s => ∀ r, normalizeStringScalar t s = .ok r →
        r.utf8ByteSize < 2 ^ 32 ∧ (nextText chrono r).utf8ByteSize < 2 ^ 32
    | .array items => items.length < 2 ^ 32
    | .object members => members.length < 2 ^ 32 ∧
        ∀ e ∈ members, ∀ key, normalizeKeyScalar t e.1 = .ok key → key.utf8ByteSize < 2 ^ 32
    | _ => True) v

theorem length_normalizeItems {arr out : List Json} {path : String} {idx : Nat}
    (h : normalizeItems t chrono path idx arr = .ok out) : out.length = arr.length := by
  induction arr generalizing idx out with
  | nil =>
    obtain rfl := Except.ok.inj h
    rfl
  | cons v arr ih =>
    obtain ⟨w, -, h⟩ := bind_eq_ok.mp h
    obtain ⟨out, hout, h⟩ := bind_eq_ok.mp h
    obtain rfl := Except.ok.inj h
    rw [List.length_cons, List.length_cons, ih hout]

theorem length_canonicalSet_le (items : List Json) : (canonicalSet items).length ≤ items.length := by
  rw [canonicalSet, List.length_map]
  refine (dedupPairs_sublist _).length_le.trans (le_of_eq ?_)
  rw [List.length_mergeSort, List.length_map]

theorem length_normalizeMembers_le {map out res : List (String × Json)} {path : String}
    (h : normalizeMembers t chrono path out map = .ok res) :
    res.length ≤ out.length + map.length := by
  induction map generalizing out with
  | nil =>
    obtain rfl := Except.ok.inj h
    exact le_rfl
  | cons f map ih =>
    obtain ⟨key, -, h⟩ := bind_eq_ok.mp h
    obtain ⟨value, -, h⟩ := bind_eq_ok.mp h
    rw [List.length_cons]
    split_ifs at h with hnull hdup
    · have := ih h
      omega
    · have := ih h
      rw [insertBack_new value hdup, List.length_append, List.length_singleton] at this
      omega

theorem fits_of_normalize (ht : t.Lawful) (j : Json) : ∀ parentKey path w, InputFits t chrono j →
    normalizeValueForInput t chrono j parentKey path = .ok w → JsonFits w := by
  induction j using Json.ind with
  | null =>
    rintro _ _ _ - ⟨⟩
    exact .null trivial
  | bool b =>
    rintro _ _ _ - ⟨⟩
    exact .bool b trivial
  | number n =>
    rintro _ _ _ - ⟨⟩
    exact .number n trivial
  | string s =>
    intro parentKey path w hfits h
    obtain ⟨r, hr, rfl⟩ := normalizeString_eq_ok.mp h
    obtain ⟨hplain, hnext⟩ := hfits.here r hr
    refine .string _ ?_
    split_ifs
    · exact hnext
    · exact hplain
  | array arr ih =>
    intro parentKey path w hfits h
    obtain ⟨hlen, hfits⟩ := Json.everywhere_array.mp hfits
    obtain ⟨out, hout, h⟩ := bind_eq_ok.mp h
    have hitems : ∀ w ∈ out, JsonFits w := by
      intro w hw
      obtain ⟨v, hv, p, hvw⟩ := (mem_normalizeItems hout).2 w hw
      exact ih v hv none p w (hfits v hv) hvw
    have hlength := length_normalizeItems hout
    split_ifs at h
    · obtain ⟨set, hset, h⟩ := bind_eq_ok.mp h
      obtain rfl := Except.ok.inj h
      have hd : ∀ w ∈ out, w.DistinctKeys := fun w hw =>
        (normalizeItems_tidy (fun j _ => normalizeValueForInput_tidy ht j) hout w hw).distinctKeys
      obtain ⟨-, rfl⟩ := (normalizeAsSet_eq_ok hd).mp hset
      have hset := length_canonicalSet_le out
      exact .array _ (lt_of_le_of_lt (hlength ▸ hset) hlen) fun w hw =>
        hitems w (mem_of_mem_canonicalSet hw)
    · obtain rfl := Except.ok.inj h
      exact .array out (lt_of_eq_of_lt hlength hlen) hitems
  | object map ih =>
    intro parentKey path w hfits h
    obtain ⟨⟨hlen, hkeys⟩, hfits⟩ := Json.everywhere_object.mp hfits
    obtain ⟨res, hres, h⟩ := bind_eq_ok.mp h
    obtain rfl := Except.ok.inj h
    have hlength := length_normalizeMembers_le hres
    rw [List.length_nil, Nat.zero_add] at hlength
    refine .object res ⟨lt_of_le_of_lt hlength hlen, fun e he => ?_⟩ fun e he => ?_
    · rcases mem_normalizeMembers hres he with he | ⟨f, hf, p, hkey, -, -⟩
      · cases he
      · exact hkeys f hf e.1 hkey
    · rcases mem_normalizeMembers hres he with he | ⟨f, hf, p, -, -, hvalue⟩
      · cases he
      · exact ih f hf (some e.1) p e.2 (hfits f hf) hvalue

/-- Values that differ in the order of members only have the same texts in the same places. -/
theorem Eqv.timesAt {P : String → Prop} {a b : Json} (h : Eqv a b) :
    ∀ parentKey, Trimmed t b → TimesAt t P parentKey a → TimesAt t P parentKey b := by
  induction h with
  | null => exact fun _ _ h => h
  | bool b => exact fun _ _ h => h
  | number n => exact fun _ _ h => h
  | string s => exact fun _ _ h => h
  | array xs ys hlen _ ih =>
    intro parentKey htrim hP
    simp only [Trimmed, Json.everywhere_array, true_and] at htrim
    rw [timesAt_array] at hP ⊢
    intro v hv
    obtain ⟨i, hi, rfl⟩ := List.getElem_of_mem hv
    have hx : i < xs.length := hlen ▸ hi
    exact ih i _ _ (List.getElem?_eq_getElem hx) (List.getElem?_eq_getElem hi) none (htrim _ hv)
      (hP _ (List.getElem_mem hx))
  | object ms ns hkeys _ ih =>
    intro parentKey htrim hP
    simp only [Trimmed, Json.everywhere_object] at htrim
    rw [timesAt_object] at hP ⊢
    intro e he
    have hpresent : present ns e.1 = some e.2 := by
      rw [present, lookup_of_mem htrim.1.1 he, Option.filter_some, (htrim.1.2 e he).2]
      rfl
    obtain ⟨u, hu⟩ : ∃ u, present ms e.1 = some u := by
      rw [← Option.isSome_iff_exists, hkeys, hpresent]
      rfl
    exact ih e.1 u e.2 hu hpresent _ (htrim.2 e he) (hP (e.1, u) (mem_of_present hu))

/-- Texts with `P` came from texts with `Q`. -/
theorem timesAt_of_normalize (ht : t.Lawful) {P Q : String → Prop}
    (hPQ : ∀ s r, normalizeStringScalar t s = .ok r → P (nextText chrono r) → Q s) (j : Json) :
    ∀ parentKey path w, InputFits t chrono j →
      normalizeValueForInput t chrono j parentKey path = .ok w →
      TimesAt t P parentKey w → TimesAt t Q parentKey j := by
  induction j using Json.ind with
  | null =>
    rintro _ _ _ - ⟨⟩ -
    exact ⟨nofun, .null trivial⟩
  | bool b =>
    rintro _ _ _ - ⟨⟩ -
    exact ⟨nofun, .bool b trivial⟩
  | number n =>
    rintro _ _ _ - ⟨⟩ -
    exact ⟨nofun, .number n trivial⟩
  | string s =>
    intro parentKey path w _ h hP
    obtain ⟨r, hr, rfl⟩ := normalizeString_eq_ok.mp h
    rw [timesAt_string] at hP ⊢
    intro hkey
    rw [if_pos hkey] at hP
    exact hPQ s r hr (hP hkey)
  | array arr ih =>
    intro parentKey path w hfits h hP
    have hfits := (Json.everywhere_array.mp hfits).2
    obtain ⟨out, hout, h⟩ := bind_eq_ok.mp h
    have hitems : (∀ w ∈ out, TimesAt t P none w) → TimesAt t Q parentKey (.array arr) := by
      intro hall
      refine timesAt_array.mpr fun v hv => ?_
      obtain ⟨w, hw, p, hvw⟩ := (mem_normalizeItems hout).1 v hv
      exact ih v hv none p w (hfits v hv) hvw (hall w hw)
    split_ifs at h
    · obtain ⟨set, hset, h⟩ := bind_eq_ok.mp h
      obtain rfl := Except.ok.inj h
      have hd : ∀ w ∈ out, w.DistinctKeys := fun w hw =>
        (normalizeItems_tidy (fun j _ => normalizeValueForInput_tidy ht j) hout w hw).distinctKeys
      have hfrom : ∀ w ∈ out, JsonFits w ∧ Trimmed t w := by
        intro w hw
        obtain ⟨v, hv, p, hvw⟩ := (mem_normalizeItems hout).2 w hw
        exact ⟨fits_of_normalize ht v none p w (hfits v hv) hvw,
          trimmed_of_normalize ht v none p w hvw⟩
      obtain ⟨hrho, rfl⟩ := (normalizeAsSet_eq_ok hd).mp hset
      rw [timesAt_array] at hP
      refine hitems fun w hw => ?_
      -- the item that stands for `w` has its bytes, so it is `w` up to the order of members
      obtain ⟨c, hcset, hbytes⟩ := List.mem_map.mp
        (mem_bytes_canonicalSet.mpr (List.mem_map_of_mem hw : bytesOf w ∈ out.map bytesOf))
      have hc := mem_of_mem_canonicalSet hcset
      have heqv : Eqv c w := (encoding_eq_iff (hd c hc) (hd w hw) (hfrom c hc).1 (hfrom w hw).1
        (hrho c hc) (hrho w hw)).mp hbytes
      exact heqv.timesAt none (hfrom w hw).2 (hP c hcset)
    · obtain rfl := Except.ok.inj h
      exact hitems (timesAt_array.mp hP)
  | object map ih =>
    intro parentKey path w hfits h hP
    have hfits := (Json.everywhere_object.mp hfits).2
    obtain ⟨res, hres, h⟩ := bind_eq_ok.mp h
    obtain rfl := Except.ok.inj h
    rw [timesAt_object] at hP ⊢
    intro f hf
    obtain ⟨key, value, p, hkey, hvalue, hnull | hmem⟩ := (mem_of_normalizeMembers hres).2 f hf
    · rw [isNull_of_normalize hvalue, Json.isNull_iff] at hnull
      rw [hnull]
      exact ⟨nofun, .null trivial⟩
    · have hself := normalizedKey_eq_some.mpr (normalizeKeyScalar_again ht hkey)
      rw [normalizedKey_eq_some.mpr hkey]
      exact ih f hf (some key) p value (hfits f hf) hvalue (hself ▸ hP (key, value) hmem)

theorem stableText_nextText_iff (hc : ChronoReads chrono) (r : String) :
    StableText chrono (nextText chrono r) ↔ ∀ ts, chrono r = some ts → ts.Settled := by
  rw [nextText, normalizeTimestamp_eq]
  cases h : chrono r with
  | none =>
    refine ⟨fun _ => nofun, fun _ y hy => ?_⟩
    rw [Option.map_none, Option.getD_none, normalizeTimestamp_eq, h] at hy
    cases hy
  | some ts =>
    rw [Option.map_some, Option.getD_some, stableText_printed_iff hc h]
    simp

/-- Leap seconds that can change are all that a second normalisation changes. -/
theorem normalizeForInput_idempotent_iff (t : Text) (ht : t.Lawful)
    (chrono : String → Option UtcTime) (hc : ChronoReads chrono) (v w : Json)
    (h : normalizeForInput t chrono v = .ok w) :
    (LeapsSettled t chrono v → normalizeForInput t chrono w = .ok w) ∧
      (InputFits t chrono v → normalizeForInput t chrono w = .ok w → LeapsSettled t chrono v) := by
  rw [normalize_again_iff ht hc h]
  constructor
  · intro hsettled
    refine timesAt_normalize ht (fun s r hs hr => ?_) v none "body" w h ⟨nofun, hsettled⟩
    exact (stableText_nextText_iff hc r).mpr fun ts hts => hs r ts hr hts
  · intro hfits hstable
    refine (timesAt_of_normalize ht (fun s r hr hnext => ?_) v none "body" w hfits h hstable).2
    intro r' ts hr' hts
    obtain rfl := Except.ok.inj (hr.symm.trans hr')
    exact (stableText_nextText_iff hc r).mp hnext ts hts

/-! ## One leap second -/

/-- The leap second at the end of 2016. -/
def leapSecond (frac : Nat) : UtcTime := ⟨2016, 12, 31, 23, 59, 59, 1000000000 + frac⟩

def leapText : String := "2016-12-31T23:59:60"

/-- `chrono` on the texts of that second; it is not asked for others here. -/
def leapChrono (s : String) : Option UtcTime :=
  if leapText.toList.isPrefixOf s.toList then
    match s.toList.drop 19 with
    | ['Z'] => some (leapSecond 0)
    | '.' :: rest =>
      if rest.getLast? = some 'Z' ∧ rest.dropLast ≠ [] ∧ rest.dropLast.all Char.isDigit then
        some (leapSecond (fracNanos rest.dropLast))
      else none
    | _ => none
  else none

theorem fracNanos_lt {frac : List Char} (h : frac.all Char.isDigit) : fracNanos frac < 1000000000 := by
  have hdigits : ((frac ++ List.replicate 9 '0').take 9).all Char.isDigit := by
    rw [List.all_eq_true]
    intro c hc
    rcases List.mem_append.mp (List.mem_of_mem_take hc) with hc | hc
    · exact List.all_eq_true.mp h c hc
    · rw [List.eq_of_mem_replicate hc]
      rfl
  have hlength : ((frac ++ List.replicate 9 '0').take 9).length = 9 := by simp
  have hlt := Numeral.ofDigitChars_lt hdigits
  rwa [hlength] at hlt

theorem leapChrono_eq_some {s : String} {ts : UtcTime} (h : leapChrono s = some ts) :
    ∃ frac, frac < 1000000000 ∧ ts = leapSecond frac := by
  unfold leapChrono at h
  split_ifs at h
  split at h
  · exact ⟨0, by decide, (Option.some.inj h).symm⟩
  · split_ifs at h with hrest
    exact ⟨_, fracNanos_lt hrest.2.2, (Option.some.inj h).symm⟩
  · cases h

theorem base_leapSecond {frac : Nat} (h : frac < 1000000000) : (leapSecond frac).base = leapText := by
  have hnanos : (1000000000 + frac) / 1000000000 = 1 := by omega
  simp only [UtcTime.base, leapSecond, hnanos]
  decide +kernel

theorem chronoReads_leapChrono : ChronoReads leapChrono where
  nanos_lt s ts h := by
    obtain ⟨frac, hfrac, rfl⟩ := leapChrono_eq_some h
    show 1000000000 + frac < 2000000000
    omega
  whole s ts h _ := by
    obtain ⟨frac, hfrac, rfl⟩ := leapChrono_eq_some h
    have hnanos : (leapSecond frac).nanos / 1000000000 = 1 := by
      show (1000000000 + frac) / 1000000000 = 1
      omega
    have hread : leapChrono (leapText ++ "Z") = some (leapSecond 0) := by decide +kernel
    rw [base_leapSecond hfrac, hnanos, hread]
    rfl
  fraction s ts h _ digits hne hdigits := by
    obtain ⟨frac, hfrac, rfl⟩ := leapChrono_eq_some h
    have hnanos : (leapSecond frac).nanos / 1000000000 = 1 := by
      show (1000000000 + frac) / 1000000000 = 1
      omega
    have htext : (leapText ++ "." ++ String.ofList digits ++ "Z").toList =
        leapText.toList ++ '.' :: (digits ++ ['Z']) := by simp
    have hprefix : leapText.toList.isPrefixOf (leapText.toList ++ '.' :: (digits ++ ['Z'])) = true :=
      List.isPrefixOf_iff_prefix.mpr (List.prefix_append _ _)
    have hdrop : (leapText.toList ++ '.' :: (digits ++ ['Z'])).drop 19 = '.' :: (digits ++ ['Z']) :=
      List.drop_left' (by decide +kernel)
    rw [base_leapSecond hfrac, hnanos, leapChrono, htext, if_pos hprefix, hdrop]
    simp [hne, hdigits, leapSecond]
  signed s ts h hyear := by
    obtain ⟨frac, hfrac, rfl⟩ := leapChrono_eq_some h
    exact absurd (by decide : (0 : Int) ≤ 2016 ∧ (2016 : Int) ≤ 9999) hyear

/-- `{"created_at": s}`. -/
def createdAt (s : String) : Json := .object [("created_at", .string s)]

theorem normalize_leap : normalizeForInput asciiText leapChrono (createdAt "2016-12-31T23:59:60Z") =
    .ok (createdAt "2016-12-31T23:59:60.1Z") := by
  with_unfolding_all rfl

theorem normalizeForInput_idempotent_iff_leap :
    (LeapsSettled asciiText leapChrono (createdAt "2016-12-31T23:59:60Z") →
        normalizeForInput asciiText leapChrono (createdAt "2016-12-31T23:59:60.1Z") =
          .ok (createdAt "2016-12-31T23:59:60.1Z")) ∧
      (InputFits asciiText leapChrono (createdAt "2016-12-31T23:59:60Z") →
        normalizeForInput asciiText leapChrono (createdAt "2016-12-31T23:59:60.1Z") =
          .ok (createdAt "2016-12-31T23:59:60.1Z") →
        LeapsSettled asciiText leapChrono (createdAt "2016-12-31T23:59:60Z")) :=
  normalizeForInput_idempotent_iff asciiText asciiText_lawful leapChrono chronoReads_leapChrono _ _
    normalize_leap

/-- The fraction of the leap second grows by a digit each time. -/
theorem normalize_leap_again :
    ChronoReads leapChrono ∧
      normalizeForInput asciiText leapChrono (createdAt "2016-12-31T23:59:60Z") =
        .ok (createdAt "2016-12-31T23:59:60.1Z") ∧
      normalizeForInput asciiText leapChrono (createdAt "2016-12-31T23:59:60.1Z") =
        .ok (createdAt "2016-12-31T23:59:60.11Z") ∧
      normalizeForInput asciiText leapChrono (createdAt "2016-12-31T23:59:60.1Z") ≠
        .ok (createdAt "2016-12-31T23:59:60.1Z") := by
  have hagain : normalizeForInput asciiText leapChrono (createdAt "2016-12-31T23:59:60.1Z") =
      .ok (createdAt "2016-12-31T23:59:60.11Z") := by
    with_unfolding_all rfl
  refine ⟨chronoReads_leapChrono, normalize_leap, hagain, fun h => ?_⟩
  rw [hagain] at h
  simp [createdAt] at h

end Ubl.Nrf
