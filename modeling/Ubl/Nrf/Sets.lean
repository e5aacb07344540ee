import Ubl.Lib.ExceptRel
import Ubl.Nrf.Normalize

/-!
# `nrf.rs`: set-like arrays are sets

An array under a set-like key is sorted by the canonical bytes of its items, and of items with
equal bytes one stays.  So the bytes of the array depend only on which bytes its items have, and
inputs that differ in the order and the multiplicity of such items normalise to equal bytes
(`normalizeForInput_sets`).
-/

namespace Ubl.Nrf

open AssocMap ExceptLemmas ExceptRel

/-! ## Sorting by canonical bytes -/

/-- The canonical bytes of a value that keeps the ρ rules. -/
def bytesOf (v : Json) : List UInt8 := MAGIC ++ encodeValue (nrfOf v)

/-- The items of an array as a set: in the order of their bytes, none twice. -/
def canonicalSet (items : List Json) : List Json :=
  (dedupPairs ((items.map fun v => (bytesOf v, v)).mergeSort fun a b => decide (a.1 ≤ b.1))).map
    Prod.snd

theorem mem_keys_dedupPairs {pairs : List (List UInt8 × Json)} {b : List UInt8} :
    b ∈ keys (dedupPairs pairs) ↔ b ∈ keys pairs := by
  induction pairs with
  | nil => rfl
  | cons p pairs ih =>
    rw [dedupPairs, keys_cons, List.mem_cons, ← ih]
    split
    · next h => simp [h]
    · next q rest h =>
      rw [h]
      split_ifs with heq <;> simp [heq]

theorem ascending_dedupPairs {pairs : List (List UInt8 × Json)}
    (h : pairs.Pairwise fun a b => a.1 ≤ b.1) : Ascending (dedupPairs pairs) := by
  induction pairs with
  | nil => exact List.Pairwise.nil
  | cons p pairs ih =>
    obtain ⟨hp, h⟩ := List.pairwise_cons.mp h
    have ih := ih h
    have hle : ∀ r ∈ dedupPairs pairs, p.1 ≤ r.1 := fun r hr => hp r (mem_of_mem_dedupPairs hr)
    rw [dedupPairs]
    split
    · exact List.pairwise_singleton _ _
    · next q rest hq =>
      rw [hq] at ih hle
      obtain ⟨hrest, hasc⟩ := List.pairwise_cons.mp ih
      split_ifs with heq
      · exact List.pairwise_cons.mpr ⟨fun r hr => heq ▸ hrest r hr, hasc⟩
      · have hlt : p.1 < q.1 := lt_of_le_of_ne (hle q List.mem_cons_self) heq
        refine List.pairwise_cons.mpr ⟨fun r hr => ?_, ih⟩
        rcases List.mem_cons.mp hr with rfl | hr
        · exact hlt
        · exact lt_trans hlt (hrest r hr)

/-- Nothing is dropped where all bytes differ. -/
theorem dedupPairs_of_ascending {pairs : List (List UInt8 × Json)} (h : Ascending pairs) :
    dedupPairs pairs = pairs := by
  induction pairs with
  | nil => rfl
  | cons p pairs ih =>
    obtain ⟨hp, h⟩ := List.pairwise_cons.mp h
    rw [dedupPairs, ih h]
    cases pairs with
    | nil => rfl
    | cons q pairs => exact if_neg (ne_of_lt (hp q List.mem_cons_self))

section

variable {items items' : List Json}

theorem sorted_pairs (items : List Json) :
    ((items.map fun v => (bytesOf v, v)).mergeSort fun a b => decide (a.1 ≤ b.1)).Pairwise
      fun a b => a.1 ≤ b.1 := by
  have htrans (a b c : List UInt8 × Json) (hab : decide (a.1 ≤ b.1) = true)
      (hbc : decide (b.1 ≤ c.1) = true) : decide (a.1 ≤ c.1) = true :=
    decide_eq_true (le_trans (of_decide_eq_true hab) (of_decide_eq_true hbc))
  have htotal (a b : List UInt8 × Json) : (decide (a.1 ≤ b.1) || decide (b.1 ≤ a.1)) = true := by
    simpa using le_total a.1 b.1
  have hsorted := List.pairwise_mergeSort htrans htotal (items.map fun v => (bytesOf v, v))
  exact hsorted.imp of_decide_eq_true

/-- Sorting and dropping pairs leaves each item with its own bytes. -/
theorem map_bytesOf_canonicalSet (items : List Json) :
    (canonicalSet items).map bytesOf =
      keys (dedupPairs ((items.map fun v => (bytesOf v, v)).mergeSort
        fun a b => decide (a.1 ≤ b.1))) := by
  rw [canonicalSet, List.map_map]
  refine List.map_congr_left fun p hp => ?_
  have hmem := List.mem_mergeSort.mp (mem_of_mem_dedupPairs hp)
  obtain ⟨v, -, rfl⟩ := List.mem_map.mp hmem
  rfl

theorem pairwise_canonicalSet (items : List Json) :
    ((canonicalSet items).map bytesOf).Pairwise (· < ·) := by
  rw [map_bytesOf_canonicalSet, keys, List.pairwise_map]
  exact ascending_dedupPairs (sorted_pairs items)

theorem mem_bytes_canonicalSet {b : List UInt8} :
    b ∈ (canonicalSet items).map bytesOf ↔ b ∈ items.map bytesOf := by
  rw [map_bytesOf_canonicalSet, mem_keys_dedupPairs, keys,
    ((List.mergeSort_perm _ _).map Prod.fst).mem_iff, List.map_map]
  rfl

/-- The bytes of the items decide the bytes of the set. -/
theorem canonicalSet_congr (h : ∀ b, b ∈ items.map bytesOf ↔ b ∈ items'.map bytesOf) :
    (canonicalSet items).map bytesOf = (canonicalSet items').map bytesOf := by
  have hnodup (items : List Json) : ((canonicalSet items).map bytesOf).Nodup :=
    (pairwise_canonicalSet items).imp ne_of_lt
  refine List.Perm.eq_of_pairwise (fun a b _ _ hab hba => absurd hab (lt_asymm hba))
    (pairwise_canonicalSet items) (pairwise_canonicalSet items') ?_
  refine (List.perm_ext_iff_of_nodup (hnodup items) (hnodup items')).mpr fun b => ?_
  rw [mem_bytes_canonicalSet, mem_bytes_canonicalSet, h b]

theorem canonicalSet_of_pairwise (h : (items.map bytesOf).Pairwise (· < ·)) :
    canonicalSet items = items := by
  have hasc : Ascending (items.map fun v => (bytesOf v, v)) :=
    List.pairwise_map.mpr (List.pairwise_map.mp h)
  rw [canonicalSet, List.mergeSort_of_pairwise (hasc.imp fun hab => decide_eq_true hab.le),
    dedupPairs_of_ascending hasc, List.map_map]
  exact List.map_id items

end

theorem withNrfBytes_eq_ok {t : Text} {items : List Json} (hd : ∀ v ∈ items, v.DistinctKeys)
    (path : String) (idx : Nat) (pairs : List (List UInt8 × Json)) :
    withNrfBytes t path idx items = .ok pairs ↔
      (∀ v ∈ items, Rho t v) ∧ pairs = items.map fun v => (bytesOf v, v) := by
  induction items generalizing idx pairs with
  | nil => simp [withNrfBytes, eq_comm]
  | cons v items ih =>
    have ih := ih (fun u hu => hd u (List.mem_cons_of_mem _ hu)) (idx + 1)
    simp only [withNrfBytes, bind_eq_ok, pure_eq_ok, Except.ok.injEq, ih, List.forall_mem_cons,
      jsonToNrfWithPath_eq_ok t v (hd v List.mem_cons_self), List.map_cons]
    constructor
    · rintro ⟨_, ⟨hv, rfl⟩, _, ⟨hitems, rfl⟩, rfl⟩
      exact ⟨⟨hv, hitems⟩, rfl⟩
    · rintro ⟨⟨hv, hitems⟩, rfl⟩
      exact ⟨_, ⟨hv, rfl⟩, _, ⟨hitems, rfl⟩, rfl⟩

theorem normalizeAsSet_eq_ok {t : Text} {items : List Json} (hd : ∀ v ∈ items, v.DistinctKeys)
    {path : String} {set : List Json} :
    normalizeAsSetWithPath t items path = .ok set ↔
      (∀ v ∈ items, Rho t v) ∧ set = canonicalSet items := by
  simp only [normalizeAsSetWithPath, bind_eq_ok, withNrfBytes_eq_ok hd, pure_eq_ok,
    Except.ok.injEq]
  constructor
  · rintro ⟨_, ⟨hrho, rfl⟩, rfl⟩
    exact ⟨hrho, rfl⟩
  · rintro ⟨hrho, rfl⟩
    exact ⟨_, ⟨hrho, rfl⟩, rfl⟩

/-! ## Values with equal bytes -/

/-- The canonical bytes of the two are the same, or the error is. -/
def SameBytes (t : Text) (v w : Json) : Prop :=
  ∀ path, Agree Eq (fun a b => encodeValue a = encodeValue b) (jsonToNrfWithPath t v path)
    (jsonToNrfWithPath t w path)

/-- Entries of two maps under one key with equal bytes. -/
def SameEntry (e f : String × NrfValue) : Prop := e.1 = f.1 ∧ encodeValue e.2 = encodeValue f.2

/-- Members of two objects under one key with equal bytes. -/
def SameMember (t : Text) (e f : String × Json) : Prop :=
  e.1 = f.1 ∧ e.2.isNull = f.2.isNull ∧ SameBytes t e.2 f.2

variable {t : Text}

theorem SameBytes.toNrf1Bytes_eq {v w : Json} (h : SameBytes t v w) :
    toNrf1Bytes t v = toNrf1Bytes t w := by
  have h := h "body"
  unfold toNrf1Bytes jsonToNrf
  cases hv : jsonToNrfWithPath t v "body" with
  | error e =>
    rw [hv] at h
    cases hw : jsonToNrfWithPath t w "body" with
    | error e' =>
      rw [hw] at h
      cases h with
      | error h => rw [h]
    | ok b =>
      rw [hw] at h
      cases h
  | ok a =>
    obtain ⟨b, hb, hab⟩ := h.exists_ok hv
    simp only [hb, encodeToVec, hab]

theorem encodeItems_congr {xs ys : List NrfValue}
    (h : List.Forall₂ (fun a b => encodeValue a = encodeValue b) xs ys) :
    encodeValue (.array xs) = encodeValue (.array ys) := by
  have hitems : encodeItems xs = encodeItems ys := by
    induction h with
    | nil => rfl
    | cons h _ ih => rw [encodeItems, encodeItems, h, ih]
  rw [encodeValue, encodeValue, h.length_eq, hitems]

theorem encodeEntries_congr {xs ys : List (String × NrfValue)} (h : List.Forall₂ SameEntry xs ys) :
    encodeValue (.map xs) = encodeValue (.map ys) := by
  have hentries : encodeEntries xs = encodeEntries ys := by
    induction h with
    | nil => rfl
    | @cons e f _ _ h _ ih =>
      obtain ⟨k, v⟩ := e
      obtain ⟨k', v'⟩ := f
      obtain ⟨rfl, hv⟩ := h
      rw [encodeEntries, encodeEntries, hv, ih]
  rw [encodeValue, encodeValue, h.length_eq, hentries]

theorem agree_itemsToNrf {xs ys : List Json} (h : List.Forall₂ (SameBytes t) xs ys) (path : String)
    (idx : Nat) : Agree Eq (List.Forall₂ fun a b => encodeValue a = encodeValue b)
      (itemsToNrf t path idx xs) (itemsToNrf t path idx ys) := by
  induction h generalizing idx with
  | nil => exact .ok .nil
  | cons h _ ih =>
    refine (h _).bind fun a b hab => (ih (idx + 1)).bind fun as bs habs => ?_
    exact .ok (.cons hab habs)

theorem sameBytes_array {xs ys : List Json} (h : List.Forall₂ (SameBytes t) xs ys) :
    SameBytes t (.array xs) (.array ys) := fun path =>
  (agree_itemsToNrf h path 0).bind fun _ _ hab => .ok (encodeItems_congr hab)

theorem sameEntry_sortedInsert {bt bt' : List (String × NrfValue)}
    (h : List.Forall₂ SameEntry bt bt') (k : String) {a b : NrfValue}
    (hab : encodeValue a = encodeValue b) :
    List.Forall₂ SameEntry (sortedInsert k a bt) (sortedInsert k b bt') := by
  induction h with
  | nil => exact .cons ⟨rfl, hab⟩ .nil
  | @cons e f _ _ h hrest ih =>
    rw [sortedInsert, sortedInsert, ← h.1]
    split_ifs
    · exact .cons ⟨rfl, hab⟩ (.cons h hrest)
    · exact .cons ⟨rfl, hab⟩ hrest
    · exact .cons h ih

theorem keys_eq_of_forall₂ {α β : Type} {R : String × α → String × β → Prop}
    {xs : List (String × α)} {ys : List (String × β)} (h : List.Forall₂ R xs ys)
    (hR : ∀ e f, R e f → e.1 = f.1) : keys xs = keys ys := by
  induction h with
  | nil => rfl
  | cons h _ ih => rw [keys_cons, keys_cons, hR _ _ h, ih]

theorem agree_membersToNrf {ms ns : List (String × Json)} (h : List.Forall₂ (SameMember t) ms ns)
    (path : String) {bt bt' : List (String × NrfValue)} (hbt : List.Forall₂ SameEntry bt bt') :
    Agree Eq (List.Forall₂ SameEntry) (membersToNrf t path bt ms) (membersToNrf t path bt' ns) := by
  induction h generalizing bt bt' with
  | nil => exact .ok hbt
  | @cons e f _ _ h _ ih =>
    obtain ⟨k, v⟩ := e
    obtain ⟨k', w⟩ := f
    obtain ⟨rfl, hnull, hbytes⟩ := h
    have hkeys : keys bt = keys bt' := keys_eq_of_forall₂ hbt fun _ _ h => h.1
    simp only [membersToNrf, throw_eq_error, bind_error]
    rw [hkeys, show w.isNull = v.isNull from hnull.symm]
    refine .ite (.error rfl) (.ite (.error rfl) (.ite (.error rfl) (.ite (ih hbt) ?_)))
    refine (hbytes _).bind fun a b hab => ?_
    exact .ite (.error rfl) (ih (sameEntry_sortedInsert hbt k hab))

theorem sameBytes_object {ms ns : List (String × Json)} (h : List.Forall₂ (SameMember t) ms ns) :
    SameBytes t (.object ms) (.object ns) := fun path =>
  (agree_membersToNrf h path .nil).bind fun _ _ hab => .ok (encodeEntries_congr hab)

theorem SameBytes.refl (v : Json) : SameBytes t v v := by
  intro path
  cases jsonToNrfWithPath t v path with
  | error e => exact .error rfl
  | ok a => exact .ok rfl

/-- For values that keep the ρ rules there are only the bytes to compare. -/
theorem sameBytes_iff {v w : Json} (hv : v.DistinctKeys) (hw : w.DistinctKeys) (hrv : Rho t v) :
    SameBytes t v w ↔ Rho t w ∧ bytesOf v = bytesOf w := by
  constructor
  · intro h
    obtain ⟨b, hb, hab⟩ :=
      (h "").exists_ok ((jsonToNrfWithPath_eq_ok t v hv "" (nrfOf v)).mpr ⟨hrv, rfl⟩)
    obtain ⟨hrw, rfl⟩ := (jsonToNrfWithPath_eq_ok t w hw "" b).mp hb
    exact ⟨hrw, congrArg (MAGIC ++ ·) hab⟩
  · rintro ⟨hrw, hbytes⟩ path
    rw [(jsonToNrfWithPath_eq_ok t v hv path (nrfOf v)).mpr ⟨hrv, rfl⟩,
      (jsonToNrfWithPath_eq_ok t w hw path (nrfOf w)).mpr ⟨hrw, rfl⟩]
    exact .ok (List.append_cancel_left hbytes)

/-! ## Inputs that differ in their sets -/

/-- The key that the member under `k` is normalised with, if there is one. -/
def normalizedKey (t : Text) (k : String) : Option String := (normalizeKeyScalar t k).toOption

/-- The two values differ only in the order and the multiplicity of the items of arrays under
set-like keys, at any depth.  `parentKey` is the key they stand under. -/
inductive SameSets (t : Text) : Option String → Json → Json → Prop where
  | null (parentKey : Option String) : SameSets t parentKey .null .null
  | bool (parentKey : Option String) (b : Bool) : SameSets t parentKey (.bool b) (.bool b)
  | number (parentKey : Option String) (n : Number) :
      SameSets t parentKey (.number n) (.number n)
  | string (parentKey : Option String) (s : String) :
      SameSets t parentKey (.string s) (.string s)
  | array (parentKey : Option String) (xs ys : List Json) (hlen : xs.length = ys.length)
      (h : ∀ (i : Nat) u v, xs[i]? = some u → ys[i]? = some v → SameSets t none u v) :
      SameSets t parentKey (.array xs) (.array ys)
  | set (key : String) (hkey : isSetLikeKey key = true) (xs ys : List Json) (f g : Json → Json)
      (hf : ∀ u ∈ xs, f u ∈ ys) (hxs : ∀ u ∈ xs, SameSets t none u (f u))
      (hg : ∀ v ∈ ys, g v ∈ xs) (hys : ∀ v ∈ ys, SameSets t none (g v) v) :
      SameSets t (some key) (.array xs) (.array ys)
  | object (parentKey : Option String) (ms ns : List (String × Json)) (hkeys : keys ms = keys ns)
      (h : ∀ (i : Nat) k u k' v, ms[i]? = some (k, u) → ns[i]? = some (k', v) →
        SameSets t (normalizedKey t k) u v) :
      SameSets t parentKey (.object ms) (.object ns)

/-- What normalising them comes to. -/
def SameForm (t : Text) (v w : Json) : Prop := v.isNull = w.isNull ∧ SameBytes t v w

/-- Every item of one list has its like in the other. -/
def Cover (t : Text) (xs ys : List Json) : Prop :=
  (∀ u ∈ xs, ∃ v ∈ ys, SameBytes t u v) ∧ ∀ v ∈ ys, ∃ u ∈ xs, SameBytes t u v

theorem forall₂_of_getElem? {α β : Type} {R : α → β → Prop} {xs : List α} {ys : List β}
    (hlen : xs.length = ys.length)
    (h : ∀ (i : Nat) a b, xs[i]? = some a → ys[i]? = some b → R a b) : List.Forall₂ R xs ys := by
  rw [List.forall₂_iff_get]
  exact ⟨hlen, fun i hi hi' =>
    h i _ _ (List.getElem?_eq_getElem hi) (List.getElem?_eq_getElem hi')⟩

theorem cover_of_forall₂ {xs ys : List Json} (h : List.Forall₂ (SameBytes t) xs ys) :
    Cover t xs ys := by
  induction h with
  | nil => exact ⟨nofun, nofun⟩
  | cons h _ ih =>
    refine ⟨fun u hu => ?_, fun v hv => ?_⟩
    · rcases List.mem_cons.mp hu with rfl | hu
      · exact ⟨_, List.mem_cons_self, h⟩
      · obtain ⟨v, hv, huv⟩ := ih.1 u hu
        exact ⟨v, List.mem_cons_of_mem _ hv, huv⟩
    · rcases List.mem_cons.mp hv with rfl | hv
      · exact ⟨_, List.mem_cons_self, h⟩
      · obtain ⟨u, hu, huv⟩ := ih.2 v hv
        exact ⟨u, List.mem_cons_of_mem _ hu, huv⟩

theorem mem_of_mem_canonicalSet {items : List Json} {v : Json} (h : v ∈ canonicalSet items) :
    v ∈ items := by
  obtain ⟨p, hp, rfl⟩ := List.mem_map.mp h
  obtain ⟨u, hu, rfl⟩ := List.mem_map.mp (List.mem_mergeSort.mp (mem_of_mem_dedupPairs hp))
  exact hu

/-- As sets the two lists come to the same bytes. -/
theorem Cover.agree {xs ys : List Json} (h : Cover t xs ys) (hx : ∀ v ∈ xs, v.DistinctKeys)
    (hy : ∀ v ∈ ys, v.DistinctKeys) (p p' : String) :
    Agree (fun _ _ => True) (fun s s' => SameBytes t (.array s) (.array s'))
      (normalizeAsSetWithPath t xs p) (normalizeAsSetWithPath t ys p') := by
  have hrho : (∀ v ∈ xs, Rho t v) ↔ ∀ v ∈ ys, Rho t v := by
    constructor
    · intro hrx v hv
      obtain ⟨u, hu, huv⟩ := h.2 v hv
      exact ((sameBytes_iff (hx u hu) (hy v hv) (hrx u hu)).mp huv).1
    · intro hry u hu
      obtain ⟨v, hv, huv⟩ := h.1 u hu
      obtain ⟨a, ha, -⟩ := (huv "").swap.exists_ok
        ((jsonToNrfWithPath_eq_ok t v (hy v hv) "" (nrfOf v)).mpr ⟨hry v hv, rfl⟩)
      exact ((jsonToNrfWithPath_eq_ok t u (hx u hu) "" a).mp ha).1
  refine agree_of_ok (fun set hset => ?_) fun set' hset' => ?_
  · obtain ⟨hrx, rfl⟩ := (normalizeAsSet_eq_ok hx).mp hset
    refine ⟨canonicalSet ys, (normalizeAsSet_eq_ok hy).mpr ⟨hrho.mp hrx, rfl⟩, sameBytes_array ?_⟩
    have hbytes {u v : Json} (hu : u ∈ xs) (hv : v ∈ ys) :=
      sameBytes_iff (hx u hu) (hy v hv) (hrx u hu)
    have hmap : (canonicalSet xs).map bytesOf = (canonicalSet ys).map bytesOf := by
      refine canonicalSet_congr fun b => ?_
      rw [List.mem_map, List.mem_map]
      constructor
      · rintro ⟨u, hu, rfl⟩
        obtain ⟨v, hv, huv⟩ := h.1 u hu
        exact ⟨v, hv, ((hbytes hu hv).mp huv).2.symm⟩
      · rintro ⟨v, hv, rfl⟩
        obtain ⟨u, hu, huv⟩ := h.2 v hv
        exact ⟨u, hu, ((hbytes hu hv).mp huv).2⟩
    refine forall₂_of_getElem? (by simpa using congrArg List.length hmap) fun i u v hu hv => ?_
    have hi := congrArg (·[i]?) hmap
    simp only [List.getElem?_map, hu, hv, Option.map_some, Option.some.injEq] at hi
    have hux := mem_of_mem_canonicalSet (List.mem_of_getElem? hu)
    have hvy := mem_of_mem_canonicalSet (List.mem_of_getElem? hv)
    exact (hbytes hux hvy).mpr ⟨hrho.mp hrx v hvy, hi⟩
  · obtain ⟨hry, rfl⟩ := (normalizeAsSet_eq_ok hy).mp hset'
    exact ⟨canonicalSet xs, (normalizeAsSet_eq_ok hx).mpr ⟨hrho.mpr hry, rfl⟩⟩

section

variable {chrono : String → Option UtcTime}

/-- Wherever the two stand, they are both rejected or normalise to one form. -/
def NormalizeAlike (t : Text) (chrono : String → Option UtcTime) (parentKey : Option String)
    (v w : Json) : Prop :=
  ∀ p p', Agree (fun _ _ => True) (SameForm t) (normalizeValueForInput t chrono v parentKey p)
    (normalizeValueForInput t chrono w parentKey p')

theorem agree_normalizeItems {xs ys : List Json}
    (h : List.Forall₂ (NormalizeAlike t chrono none) xs ys) (p p' : String) (idx idx' : Nat) :
    Agree (fun _ _ => True) (List.Forall₂ (SameBytes t)) (normalizeItems t chrono p idx xs)
      (normalizeItems t chrono p' idx' ys) := by
  induction h generalizing idx idx' with
  | nil => exact .ok .nil
  | cons h _ ih =>
    refine (h _ _).bind fun a b hab => (ih _ _).bind fun as bs habs => ?_
    exact .ok (.cons hab.2 habs)

theorem mem_normalizeItems {arr out : List Json} {path : String} {idx : Nat}
    (h : normalizeItems t chrono path idx arr = .ok out) :
    (∀ v ∈ arr, ∃ w ∈ out, ∃ p, normalizeValueForInput t chrono v none p = .ok w) ∧
      ∀ w ∈ out, ∃ v ∈ arr, ∃ p, normalizeValueForInput t chrono v none p = .ok w := by
  induction arr generalizing idx out with
  | nil =>
    obtain rfl := Except.ok.inj h
    exact ⟨nofun, nofun⟩
  | cons v arr ih =>
    obtain ⟨w, hw, h⟩ := bind_eq_ok.mp h
    obtain ⟨out, hout, h⟩ := bind_eq_ok.mp h
    obtain rfl := Except.ok.inj h
    obtain ⟨ih, ih'⟩ := ih hout
    constructor
    · intro u hu
      rcases List.mem_cons.mp hu with rfl | hu
      · exact ⟨w, List.mem_cons_self, _, hw⟩
      · obtain ⟨x, hx, hux⟩ := ih u hu
        exact ⟨x, List.mem_cons_of_mem _ hx, hux⟩
    · intro x hx
      rcases List.mem_cons.mp hx with rfl | hx
      · exact ⟨v, List.mem_cons_self, _, hw⟩
      · obtain ⟨u, hu, hux⟩ := ih' x hx
        exact ⟨u, List.mem_cons_of_mem _ hu, hux⟩

theorem exists_normalizeItems {arr : List Json}
    (h : ∀ v ∈ arr, ∀ p, ∃ w, normalizeValueForInput t chrono v none p = .ok w) (path : String)
    (idx : Nat) : ∃ out, normalizeItems t chrono path idx arr = .ok out := by
  induction arr generalizing idx with
  | nil => exact ⟨[], rfl⟩
  | cons v arr ih =>
    obtain ⟨w, hw⟩ := h v List.mem_cons_self (pathForIndex path idx)
    obtain ⟨out, hout⟩ := ih (fun u hu => h u (List.mem_cons_of_mem _ hu)) (idx + 1)
    exact ⟨w :: out, by rw [normalizeItems, hw, bind_ok, hout]; rfl⟩

/-- Items that cover each other are accepted together, and what comes out covers each other. -/
theorem agree_normalizeItems_of_cover {xs ys : List Json}
    (h : ∀ u ∈ xs, ∃ v ∈ ys, NormalizeAlike t chrono none u v)
    (h' : ∀ v ∈ ys, ∃ u ∈ xs, NormalizeAlike t chrono none u v) (p p' : String) :
    Agree (fun _ _ => True) (Cover t) (normalizeItems t chrono p 0 xs)
      (normalizeItems t chrono p' 0 ys) := by
  refine agree_of_ok (fun out hout => ?_) fun out' hout' => ?_
  · obtain ⟨hto, hof⟩ := mem_normalizeItems hout
    have hys : ∀ v ∈ ys, ∀ q, ∃ b, normalizeValueForInput t chrono v none q = .ok b := by
      intro v hv q
      obtain ⟨u, hu, huv⟩ := h' v hv
      obtain ⟨a, -, q', ha⟩ := hto u hu
      obtain ⟨b, hb, -⟩ := (huv q' q).exists_ok ha
      exact ⟨b, hb⟩
    obtain ⟨out', hout'⟩ := exists_normalizeItems hys p' 0
    obtain ⟨hto', hof'⟩ := mem_normalizeItems hout'
    have hlike {u v a b : Json} {q q' : String} (huv : NormalizeAlike t chrono none u v)
        (ha : normalizeValueForInput t chrono u none q = .ok a)
        (hb : normalizeValueForInput t chrono v none q' = .ok b) : SameBytes t a b := by
      obtain ⟨c, hc, hac⟩ := (huv q q').exists_ok ha
      obtain rfl := Except.ok.inj (hc.symm.trans hb)
      exact hac.2
    refine ⟨out', hout', fun a ha => ?_, fun b hb => ?_⟩
    · obtain ⟨u, hu, q, hua⟩ := hof a ha
      obtain ⟨v, hv, huv⟩ := h u hu
      obtain ⟨b, hb, q', hvb⟩ := hto' v hv
      exact ⟨b, hb, hlike huv hua hvb⟩
    · obtain ⟨v, hv, q', hvb⟩ := hof' b hb
      obtain ⟨u, hu, huv⟩ := h' v hv
      obtain ⟨a, ha, q, hua⟩ := hto u hu
      exact ⟨a, ha, hlike huv hua hvb⟩
  · obtain ⟨hto', -⟩ := mem_normalizeItems hout'
    refine exists_normalizeItems (fun u hu q => ?_) p 0
    obtain ⟨v, hv, huv⟩ := h u hu
    obtain ⟨b, -, q', hb⟩ := hto' v hv
    obtain ⟨a, ha, -⟩ := (huv q q').swap.exists_ok hb
    exact ⟨a, ha⟩

/-- The second half of the array case, for items that have been normalised. -/
theorem agree_array (ht : t.Lawful) {xs ys out out' : List Json} {p p' : String}
    (hout : normalizeItems t chrono p 0 xs = .ok out)
    (hout' : normalizeItems t chrono p' 0 ys = .ok out') (h : Cover t out out') :
    Agree (fun _ _ => True) (SameForm t)
      (normalizeAsSetWithPath t out p >>= fun set => .ok (.array set))
      (normalizeAsSetWithPath t out' p' >>= fun set => .ok (.array set)) := by
  have hdistinct {xs out : List Json} {p : String}
      (hout : normalizeItems t chrono p 0 xs = .ok out) : ∀ v ∈ out, v.DistinctKeys :=
    fun v hv => (normalizeItems_tidy (fun j _ => normalizeValueForInput_tidy ht j) hout v hv).distinctKeys
  exact (h.agree (hdistinct hout) (hdistinct hout') p p').bind fun _ _ hs => .ok ⟨rfl, hs⟩

theorem agree_normalizeMembers {ms ns : List (String × Json)}
    (h : List.Forall₂ (fun e f => e.1 = f.1 ∧
      NormalizeAlike t chrono (normalizedKey t e.1) e.2 f.2) ms ns) (p p' : String)
    {out out' : List (String × Json)} (hout : List.Forall₂ (SameMember t) out out') :
    Agree (fun _ _ => True) (List.Forall₂ (SameMember t)) (normalizeMembers t chrono p out ms)
      (normalizeMembers t chrono p' out' ns) := by
  induction h generalizing out out' with
  | nil => exact .ok hout
  | @cons e f _ _ h _ ih =>
    obtain ⟨k, v⟩ := e
    obtain ⟨k', w⟩ := f
    obtain ⟨rfl, hvw⟩ := h
    simp only [normalizeMembers]
    cases hkey : normalizeKeyScalar t k with
    | error rule => exact .error trivial
    | ok key =>
      rw [normalizedKey, hkey] at hvw
      simp only [atPath, bind_ok]
      refine (hvw _ _).bind fun a b hab => ?_
      have hkeys : keys out = keys out' := keys_eq_of_forall₂ hout fun _ _ h => h.1
      rw [hab.1, hkeys]
      refine .ite (ih hout) ?_
      by_cases hmem : key ∈ keys out'
      · rw [if_pos hmem, if_pos hmem]
        exact .error trivial
      · rw [if_neg hmem, if_neg hmem, insertBack_new a (hkeys ▸ hmem), insertBack_new b hmem]
        exact ih (List.rel_append hout (.cons ⟨rfl, hab⟩ .nil))

theorem SameSets.normalizeAlike (ht : t.Lawful) {parentKey : Option String} {v w : Json}
    (h : SameSets t parentKey v w) : NormalizeAlike t chrono parentKey v w := by
  induction h with
  | null => exact fun _ _ => .ok ⟨rfl, .refl _⟩
  | bool => exact fun _ _ => .ok ⟨rfl, .refl _⟩
  | number => exact fun _ _ => .ok ⟨rfl, .refl _⟩
  | string parentKey s =>
    intro p p'
    simp only [normalizeValueForInput]
    cases normalizeStringScalar t s with
    | error rule => exact .error trivial
    | ok r =>
      simp only [atPath, bind_ok]
      refine .ite ?_ (.ok ⟨rfl, .refl _⟩)
      cases normalizeTimestamp chrono r with
      | none => exact .ok ⟨rfl, .refl _⟩
      | some ts => exact .ok ⟨rfl, .refl _⟩
  | array parentKey xs ys hlen _ ih =>
    intro p p'
    have hitems := agree_normalizeItems (forall₂_of_getElem? hlen ih) p p' 0 0
    simp only [normalizeValueForInput]
    refine hitems.with_eq.bind ?_
    rintro out out' ⟨hout, hout', h⟩
    exact .ite (agree_array ht hout hout' (cover_of_forall₂ h)) (.ok ⟨rfl, sameBytes_array h⟩)
  | set key hkey xs ys f g hf _ hg _ ihf ihg =>
    intro p p'
    have hitems := agree_normalizeItems_of_cover (fun u hu => ⟨f u, hf u hu, ihf u hu⟩)
      (fun v hv => ⟨g v, hg v hv, ihg v hv⟩) p p'
    simp only [normalizeValueForInput, Option.any_some, hkey, if_true]
    refine hitems.with_eq.bind ?_
    rintro out out' ⟨hout, hout', h⟩
    exact agree_array ht hout hout' h
  | object parentKey ms ns hkeys _ ih =>
    intro p p'
    have hlen : ms.length = ns.length := by simpa [keys] using congrArg List.length hkeys
    have hmembers : List.Forall₂ (fun e f => e.1 = f.1 ∧
        NormalizeAlike t chrono (normalizedKey t e.1) e.2 f.2) ms ns := by
      refine forall₂_of_getElem? hlen fun i e f he hf => ⟨?_, ih i e.1 e.2 f.1 f.2 he hf⟩
      have hi := congrArg (·[i]?) hkeys
      simpa [keys, he, hf] using hi
    simp only [normalizeValueForInput]
    exact (agree_normalizeMembers hmembers p p' .nil).bind fun _ _ h =>
      .ok ⟨rfl, sameBytes_object h⟩

/-! ## The sets in a result -/

/-- Every item has canonical bytes, and they ascend strictly. -/
def AscendingSet (t : Text) (items : List Json) : Prop :=
  ∃ bytes : List (List UInt8), List.Forall₂ (fun v b => toNrf1Bytes t v = .ok b) items bytes ∧
    bytes.Pairwise (· < ·)

/-- So does every array under a set-like key, at any depth. -/
def SetsAscending (t : Text) (v : Json) : Prop :=
  Json.Everywhere (fun
    | .object members => ∀ key items, (key, .array items) ∈ members → isSetLikeKey key = true →
        AscendingSet t items
    | _ => True) v

theorem ascendingSet_iff {items : List Json} (hd : ∀ v ∈ items, v.DistinctKeys) :
    AscendingSet t items ↔ (∀ v ∈ items, Rho t v) ∧ (items.map bytesOf).Pairwise (· < ·) := by
  constructor
  · rintro ⟨bytes, hbytes, hpairwise⟩
    have h : (∀ v ∈ items, Rho t v) ∧ bytes = items.map bytesOf := by
      induction hbytes with
      | nil => exact ⟨nofun, rfl⟩
      | @cons v b items bytes hv _ ih =>
        obtain ⟨hrho, rfl⟩ := (toNrf1Bytes_eq_ok (hd v List.mem_cons_self)).mp hv
        obtain ⟨hall, rfl⟩ := ih (fun u hu => hd u (List.mem_cons_of_mem _ hu))
          (List.pairwise_cons.mp hpairwise).2
        exact ⟨List.forall_mem_cons.mpr ⟨hrho, hall⟩, rfl⟩
    exact ⟨h.1, h.2 ▸ hpairwise⟩
  · rintro ⟨hrho, hpairwise⟩
    refine ⟨items.map bytesOf, ?_, hpairwise⟩
    rw [List.forall₂_map_right_iff, List.forall₂_same]
    exact fun v hv => (toNrf1Bytes_eq_ok (hd v hv)).mpr ⟨hrho v hv, rfl⟩

/-- A member of a normalised object was there before, or a member that is not null was
normalised to it. -/
theorem mem_normalizeMembers {map out res : List (String × Json)} {path : String}
    (h : normalizeMembers t chrono path out map = .ok res) {e : String × Json} (he : e ∈ res) :
    e ∈ out ∨ ∃ f ∈ map, ∃ p, normalizeKeyScalar t f.1 = .ok e.1 ∧ e.2.isNull = false ∧
      normalizeValueForInput t chrono f.2 (some e.1) p = .ok e.2 := by
  induction map generalizing out with
  | nil =>
    obtain rfl := Except.ok.inj h
    exact .inl he
  | cons f map ih =>
    obtain ⟨k, v⟩ := f
    obtain ⟨key, hkey, h⟩ := bind_eq_ok.mp h
    obtain ⟨value, hvalue, h⟩ := bind_eq_ok.mp h
    have later {out' : List (String × Json)} (h : normalizeMembers t chrono path out' map = .ok res)
        (hout' : e ∈ out' → e ∈ out ∨ e = (key, value) ∧ value.isNull = false) :
        e ∈ out ∨ ∃ f ∈ (k, v) :: map, ∃ p, normalizeKeyScalar t f.1 = .ok e.1 ∧
          e.2.isNull = false ∧ normalizeValueForInput t chrono f.2 (some e.1) p = .ok e.2 := by
      rcases ih h with he | ⟨f, hf, h⟩
      · refine (hout' he).imp id fun ⟨heq, hnull⟩ => ?_
        subst heq
        exact ⟨(k, v), List.mem_cons_self, _, atPath_eq_ok.mp hkey, hnull, hvalue⟩
      · exact .inr ⟨f, List.mem_cons_of_mem _ hf, h⟩
    split_ifs at h with hnull hdup
    · exact later h .inl
    · refine later h fun he => ?_
      rw [insertBack_new value hdup, List.mem_append, List.mem_singleton] at he
      exact he.imp id fun heq => ⟨heq, Bool.not_eq_true _ ▸ hnull⟩

theorem setsAscending_of_normalize (ht : t.Lawful) (j : Json) :
    ∀ parentKey path v, normalizeValueForInput t chrono j parentKey path = .ok v →
      SetsAscending t v ∧ (parentKey.any isSetLikeKey = true →
        ∀ items, v = .array items → AscendingSet t items) := by
  induction j using Json.ind with
  | null =>
    rintro _ _ _ ⟨⟩
    exact ⟨.null trivial, nofun⟩
  | bool b =>
    rintro _ _ _ ⟨⟩
    exact ⟨.bool b trivial, nofun⟩
  | number n =>
    rintro _ _ _ ⟨⟩
    exact ⟨.number n trivial, nofun⟩
  | string s =>
    intro parentKey path v h
    obtain ⟨r, hr, h⟩ := bind_eq_ok.mp h
    have hstring : ∃ s', v = .string s' := by
      split_ifs at h
      · split at h <;> exact ⟨_, (Except.ok.inj h).symm⟩
      · exact ⟨_, (Except.ok.inj h).symm⟩
    obtain ⟨s', rfl⟩ := hstring
    exact ⟨.string s' trivial, nofun⟩
  | array arr ih =>
    intro parentKey path v h
    obtain ⟨out, hout, h⟩ := bind_eq_ok.mp h
    have hitems : ∀ w ∈ out, SetsAscending t w := by
      intro w hw
      obtain ⟨u, hu, p, hup⟩ := (mem_normalizeItems hout).2 w hw
      exact (ih u hu none p w hup).1
    split_ifs at h with hkey
    · obtain ⟨set, hset, h⟩ := bind_eq_ok.mp h
      obtain rfl := Except.ok.inj h
      have hd : ∀ w ∈ out, w.DistinctKeys := fun w hw =>
        (normalizeItems_tidy (fun j _ => normalizeValueForInput_tidy ht j) hout w hw).distinctKeys
      obtain ⟨hrho, rfl⟩ := (normalizeAsSet_eq_ok hd).mp hset
      have hmem {w : Json} (hw : w ∈ canonicalSet out) := mem_of_mem_canonicalSet hw
      refine ⟨.array _ trivial fun w hw => hitems w (hmem hw), fun _ items heq => ?_⟩
      obtain rfl := Json.array.inj heq
      exact (ascendingSet_iff fun w hw => hd w (hmem hw)).mpr
        ⟨fun w hw => hrho w (hmem hw), pairwise_canonicalSet out⟩
    · obtain rfl := Except.ok.inj h
      exact ⟨.array out trivial hitems, fun hkey' => absurd hkey' hkey⟩
  | object map ih =>
    intro parentKey path v h
    obtain ⟨out, hout, h⟩ := bind_eq_ok.mp h
    obtain rfl := Except.ok.inj h
    have hmember {e : String × Json} (he : e ∈ out) : SetsAscending t e.2 ∧
        (isSetLikeKey e.1 = true → ∀ items, e.2 = .array items → AscendingSet t items) := by
      rcases mem_normalizeMembers hout he with he | ⟨f, hf, p, -, -, hvalue⟩
      · cases he
      · exact ih f hf (some e.1) p e.2 hvalue
    refine ⟨.object out (fun key items he hkey => ?_) fun e he => (hmember he).1, nofun⟩
    exact (hmember he).2 hkey items rfl

/-- Set-like arrays are sets: neither acceptance nor the canonical bytes depend on the order and
the multiplicity of their items, and in a result their items stand in the order of their bytes. -/
theorem normalizeForInput_sets (t : Text) (ht : t.Lawful) (chrono : String → Option UtcTime)
    (v w : Json) (h : SameSets t none v w) :
    ((∃ v', normalizeForInput t chrono v = .ok v') ↔ ∃ w', normalizeForInput t chrono w = .ok w') ∧
      ∀ v' w', normalizeForInput t chrono v = .ok v' → normalizeForInput t chrono w = .ok w' →
        toNrf1Bytes t v' = toNrf1Bytes t w' ∧ SetsAscending t v' ∧ SetsAscending t w' := by
  have hagree : Agree (fun _ _ => True) (SameForm t) (normalizeForInput t chrono v)
      (normalizeForInput t chrono w) := h.normalizeAlike ht "body" "body"
  refine ⟨⟨fun ⟨v', hv'⟩ => ?_, fun ⟨w', hw'⟩ => ?_⟩, fun v' w' hv' hw' => ⟨?_, ?_, ?_⟩⟩
  · obtain ⟨w', hw', -⟩ := hagree.exists_ok hv'
    exact ⟨w', hw'⟩
  · obtain ⟨v', hv', -⟩ := hagree.swap.exists_ok hw'
    exact ⟨v', hv'⟩
  · obtain ⟨x, hx, hvx⟩ := hagree.exists_ok hv'
    obtain rfl := Except.ok.inj (hx.symm.trans hw')
    exact hvx.2.toNrf1Bytes_eq
  · exact (setsAscending_of_normalize ht v none "body" v' hv').1
  · exact (setsAscending_of_normalize ht w none "body" w' hw').1

end

/-- `{"audience": ["b", "a", "a"]}`. -/
def listed : Json := .object [("audience", .array [.string "b", .string "a", .string "a"])]

/-- `{"audience": ["a", "b"]}`. -/
def listedOnce : Json := .object [("audience", .array [.string "a", .string "b"])]

theorem sameSets_listed : SameSets asciiText none listed listedOnce := by
  have hkey : normalizedKey asciiText "audience" = some "audience" := by
    with_unfolding_all rfl
  refine .object none _ _ rfl fun i k u k' v hu hv => ?_
  obtain ⟨rfl, rfl⟩ := Prod.mk.inj (List.mem_singleton.mp (List.mem_of_getElem? hu))
  obtain ⟨rfl, rfl⟩ := Prod.mk.inj (List.mem_singleton.mp (List.mem_of_getElem? hv))
  rw [hkey]
  -- every item is its own like in the other array
  refine .set "audience" rfl _ _ id id (by simp) (fun x hx => ?_) (by simp) fun x hx => ?_
  all_goals
    obtain ⟨s, rfl⟩ : ∃ s, x = .string s := by simp at hx; grind
    exact .string none s

theorem normalizeForInput_sets_listed :
    ((∃ v', normalizeForInput asciiText (fun _ => none) listed = .ok v') ↔
        ∃ w', normalizeForInput asciiText (fun _ => none) listedOnce = .ok w') ∧
      ∀ v' w', normalizeForInput asciiText (fun _ => none) listed = .ok v' →
        normalizeForInput asciiText (fun _ => none) listedOnce = .ok w' →
        toNrf1Bytes asciiText v' = toNrf1Bytes asciiText w' ∧
          SetsAscending asciiText v' ∧ SetsAscending asciiText w' :=
  normalizeForInput_sets asciiText asciiText_lawful (fun _ => none) listed listedOnce
    sameSets_listed

end Ubl.Nrf
