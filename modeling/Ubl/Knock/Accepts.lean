import Ubl.Knock.Stage

/-!
# What KNOCK accepts can be encoded

Normalisation leaves clean text and distinct keys, the import of doubles keeps both, and
the numeric check leaves no number outside `i64`, inside `@num` atoms as well.  Together
these are the rules of the NRF converter, so an accepted value has canonical bytes; the
structural checks bound its depth and its arrays.

    knockWithOptions env bytes u mode = .ok v →
      (∃ b, toNrf1Bytes env.text v = .ok b) ∧ depth v ≤ MAX_DEPTH ∧ ArraysBounded v
-/

namespace Ubl.Knock

open AssocMap Nrf ExceptLemmas

/-! ## Depth and arrays -/

mutual

/-- The number of containers around the deepest value inside. -/
def depth : Json → Nat
  | .array items => depthItems items
  | .object members => depthMembers members
  | _ => 0

def depthItems : List Json → Nat
  | [] => 0
  | v :: items => max (depth v + 1) (depthItems items)

def depthMembers : List (String × Json) → Nat
  | [] => 0
  | (_, v) :: members => max (depth v + 1) (depthMembers members)

end

/-- No array, at any depth, is longer than `MAX_ARRAY_LEN`. -/
def ArraysBounded (j : Json) : Prop :=
  Json.Everywhere (fun
    | .array items => items.length ≤ MAX_ARRAY_LEN
    | _ => True) j

section Walk

variable {ε : Type} {node : Nat → Json → Except ε Unit}

theorem walkItems_eq_ok {d : Nat} {items : List Json} :
    walkItems node d items = .ok () ↔ ∀ v ∈ items, walk node d v = .ok () := by
  induction items with
  | nil => simp [walkItems]
  | cons v items ih =>
    simp only [walkItems, bind_eq_ok, ih, List.forall_mem_cons]
    exact ⟨fun ⟨(), h⟩ => h, fun h => ⟨(), h⟩⟩

theorem walkMembers_eq_ok {d : Nat} {members : List (String × Json)} :
    walkMembers node d members = .ok () ↔ ∀ e ∈ members, walk node d e.2 = .ok () := by
  induction members with
  | nil => simp [walkMembers]
  | cons e members ih =>
    simp only [walkMembers, bind_eq_ok, ih, List.forall_mem_cons]
    exact ⟨fun ⟨(), h⟩ => h, fun h => ⟨(), h⟩⟩

theorem walk_array_eq_ok {d : Nat} {items : List Json} :
    walk node d (.array items) = .ok () ↔
      node d (.array items) = .ok () ∧ ∀ v ∈ items, walk node (d + 1) v = .ok () := by
  simp only [walk, bind_eq_ok, walkItems_eq_ok]
  exact ⟨fun ⟨(), h⟩ => h, fun h => ⟨(), h⟩⟩

theorem walk_object_eq_ok {d : Nat} {members : List (String × Json)} :
    walk node d (.object members) = .ok () ↔
      node d (.object members) = .ok () ∧ ∀ e ∈ members, walk node (d + 1) e.2 = .ok () := by
  simp only [walk, bind_eq_ok, walkMembers_eq_ok]
  exact ⟨fun ⟨(), h⟩ => h, fun h => ⟨(), h⟩⟩

end Walk

theorem depthItems_le {items : List Json} {n : Nat} :
    depthItems items ≤ n ↔ ∀ v ∈ items, depth v + 1 ≤ n := by
  induction items with
  | nil => simp [depthItems]
  | cons v items ih => rw [depthItems, max_le_iff, ih, List.forall_mem_cons]

theorem depthMembers_le {members : List (String × Json)} {n : Nat} :
    depthMembers members ≤ n ↔ ∀ e ∈ members, depth e.2 + 1 ≤ n := by
  induction members with
  | nil => simp [depthMembers]
  | cons e members ih => rw [depthMembers, max_le_iff, ih, List.forall_mem_cons]

theorem checkDepth_eq_ok (j : Json) :
    ∀ d, checkDepth j d = .ok () ↔ d ≤ MAX_DEPTH ∧ depth j ≤ MAX_DEPTH - d := by
  have node (d : Nat) : (if d > MAX_DEPTH then .error .depthExceeded else .ok () :
      Except KnockError Unit) = .ok () ↔ d ≤ MAX_DEPTH := by
    rw [ite_error_eq_ok, gt_iff_lt, not_lt]
    simp
  induction j using Json.ind with
  | array items ih =>
    intro d
    unfold checkDepth at ih ⊢
    rw [walk_array_eq_ok, node, depth, depthItems_le]
    refine and_congr_right fun hd => forall₂_congr fun v hv => ?_
    rw [ih v hv]
    omega
  | object members ih =>
    intro d
    unfold checkDepth at ih ⊢
    rw [walk_object_eq_ok, node, depth, depthMembers_le]
    refine and_congr_right fun hd => forall₂_congr fun e he => ?_
    rw [ih e he]
    omega
  | _ =>
    intro d
    simp only [checkDepth, walk, depth, zero_le, and_true]
    exact node d

theorem checkArrays_eq_ok (j : Json) : checkArrays j = .ok () ↔ ArraysBounded j := by
  have walk_eq_ok : ∀ d, walk (fun _ value =>
      match value with
      | .array arr =>
        if arr.length > MAX_ARRAY_LEN then Except.error (KnockError.arrayTooLong arr.length)
        else .ok ()
      | _ => .ok ()) d j = .ok () ↔ ArraysBounded j := by
    induction j using Json.ind with
    | array items ih =>
      intro d
      rw [walk_array_eq_ok, ArraysBounded, Json.everywhere_array]
      simp only [ite_error_eq_ok, gt_iff_lt, not_lt, and_true]
      exact and_congr_right fun _ => forall₂_congr fun v hv => ih v hv (d + 1)
    | object members ih =>
      intro d
      rw [walk_object_eq_ok, ArraysBounded, Json.everywhere_object]
      exact and_congr (by simp) (forall₂_congr fun e he => ih e he (d + 1))
    | _ => intro d; simp [walk, ArraysBounded]
  exact walk_eq_ok 0

/-! ## Numbers -/

/-- Every number, at any depth, is an `i64`. -/
def NumbersI64 (j : Json) : Prop :=
  Json.Everywhere (fun
    | .number n => n.isI64
    | _ => True) j

theorem ensureAllowedKeys_eq_ok {map : List (String × Json)} {allowed : List String}
    {path tag : String} (h : ensureAllowedKeys map allowed path tag = .ok ()) :
    ∀ e ∈ map, e.1 ∈ allowed := by
  unfold ensureAllowedKeys at h
  split at h
  · cases h
  · next hnone =>
    intro e he
    simpa using List.find?_eq_none.mp hnone e.1 (mem_keys_of_mem he)

theorem asStr_eq_some {j : Json} {s : String} : j.asStr = some s ↔ j = .string s := by
  cases j <;> simp [Json.asStr]

theorem ensureBigintField_eq_ok {map : List (String × Json)} {field path s : String}
    (h : ensureBigintField map field path = .ok s) : map.lookup field = some (.string s) := by
  unfold ensureBigintField at h
  split at h
  · cases h
  · next s' hs' =>
    split_ifs at h
    obtain rfl := Except.ok.inj h
    obtain ⟨v, hv, hstr⟩ := Option.bind_eq_some_iff.mp hs'
    rw [hv, asStr_eq_some.mp hstr]

theorem ensureU32Field_eq_ok {map : List (String × Json)} {field path : String} {n : UInt32}
    (h : ensureU32Field map field path = .ok n) :
    ∃ m : UInt64, map.lookup field = some (.number (.posInt m)) ∧ m.toNat < 2 ^ 32 := by
  unfold ensureU32Field at h
  split at h
  · cases h
  · next m hm =>
    split_ifs at h with hlt
    obtain ⟨v, hv, hnum⟩ := Option.bind_eq_some_iff.mp hm
    refine ⟨m, ?_, hlt⟩
    cases v with
    | number k =>
      cases k with
      | posInt k =>
        obtain rfl := Option.some.inj hnum
        exact hv
      | _ => cases hnum
    | _ => cases hnum

theorem ensureOptionalUnit_eq_ok {map : List (String × Json)} {path : String}
    (h : ensureOptionalUnit map path = .ok ()) {v : Json} (hv : map.lookup "u" = some v) :
    NumbersI64 v := by
  unfold ensureOptionalUnit at h
  rw [hv] at h
  simp only at h
  split_ifs at h with hs
  cases v with
  | string s => exact .string s trivial
  | _ => cases hs

theorem numbersI64_string {map : List (String × Json)} {k s : String} {v : Json}
    (h : map.lookup k = some (.string s)) (hv : map.lookup k = some v) : NumbersI64 v := by
  obtain rfl := Option.some.inj (h.symm.trans hv)
  exact .string s trivial

theorem numbersI64_fields {map : List (String × Json)} {allowed : List String}
    (hd : Json.DistinctKeys (.object map)) (hkeys : ∀ e ∈ map, e.1 ∈ allowed)
    (h : ∀ k ∈ allowed, ∀ v, map.lookup k = some v → NumbersI64 v) :
    NumbersI64 (.object map) :=
  .object map trivial fun e he => h e.1 (hkeys e he) e.2 (lookup_of_mem hd.here he)

/-- Each member of a valid atom is text, a `u32` or an atom again. -/
theorem validateNumAtom_numbersI64 {map : List (String × Json)} {path : String}
    (hd : Json.DistinctKeys (.object map)) (h : validateNumAtom map path = .ok ()) :
    NumbersI64 (.object map) := by
  have tag_text {map : List (String × Json)} {s : String}
      (h : (map.lookup "@num").bind Json.asStr = some s) (v : Json)
      (hv : map.lookup "@num" = some v) : NumbersI64 v := by
    rw [hv, Option.bind_some, asStr_eq_some] at h
    exact h ▸ .string s trivial
  fun_induction validateNumAtom map path with
  | case1 => cases h
  | case2 map path htag =>
    obtain ⟨⟨⟩, hkeys, h⟩ := bind_eq_ok.mp h
    obtain ⟨n, hn, hu⟩ := bind_eq_ok.mp h
    refine numbersI64_fields hd (ensureAllowedKeys_eq_ok hkeys) ?_
    simp only [List.forall_mem_cons, List.not_mem_nil, false_imp_iff, implies_true, and_true]
    exact ⟨tag_text htag, fun v => numbersI64_string (ensureBigintField_eq_ok hn),
      fun v => ensureOptionalUnit_eq_ok hu⟩
  | case3 map path htag =>
    obtain ⟨⟨⟩, hkeys, h⟩ := bind_eq_ok.mp h
    obtain ⟨m, hm, h⟩ := bind_eq_ok.mp h
    obtain ⟨n, hn, hu⟩ := bind_eq_ok.mp h
    refine numbersI64_fields hd (ensureAllowedKeys_eq_ok hkeys) ?_
    simp only [List.forall_mem_cons, List.not_mem_nil, false_imp_iff, implies_true, and_true]
    refine ⟨tag_text htag, fun v => numbersI64_string (ensureBigintField_eq_ok hm), fun v hv => ?_,
      fun v => ensureOptionalUnit_eq_ok hu⟩
    obtain ⟨k, hk, hlt⟩ := ensureU32Field_eq_ok hn
    obtain rfl := Option.some.inj (hk.symm.trans hv)
    exact .number _ (decide_eq_true (by omega))
  | case4 map path htag =>
    obtain ⟨⟨⟩, hkeys, h⟩ := bind_eq_ok.mp h
    obtain ⟨p, hp, h⟩ := bind_eq_ok.mp h
    obtain ⟨q, hq, h⟩ := bind_eq_ok.mp h
    simp only [throw_eq_error, bind_error, ite_error_eq_ok] at h
    refine numbersI64_fields hd (ensureAllowedKeys_eq_ok hkeys) ?_
    simp only [List.forall_mem_cons, List.not_mem_nil, false_imp_iff, implies_true, and_true]
    exact ⟨tag_text htag, fun v => numbersI64_string (ensureBigintField_eq_ok hp),
      fun v => numbersI64_string (ensureBigintField_eq_ok hq),
      fun v => ensureOptionalUnit_eq_ok h.2⟩
  | case5 map path htag _ _ _ ihlo ihhi =>
    obtain ⟨⟨⟩, hkeys, h⟩ := bind_eq_ok.mp h
    have hinner {k : String} {inner : List (String × Json)}
        (hk : map.lookup k = some (.object inner)) : Json.DistinctKeys (.object inner) :=
      (Json.everywhere_object.mp hd).2 _ (mem_of_lookup hk)
    split at h
    · next lo hlo =>
      split at h
      · next hi hhi =>
        obtain ⟨⟨⟩, hvlo, h⟩ := bind_eq_ok.mp h
        obtain ⟨⟨⟩, hvhi, hu⟩ := bind_eq_ok.mp h
        refine numbersI64_fields hd (ensureAllowedKeys_eq_ok hkeys) ?_
        simp only [List.forall_mem_cons, List.not_mem_nil, false_imp_iff, implies_true, and_true]
        refine ⟨tag_text htag, fun v hv => ?_, fun v hv => ?_, fun v => ensureOptionalUnit_eq_ok hu⟩
        · obtain rfl := Option.some.inj (hlo.symm.trans hv)
          exact ihlo lo hlo (hinner hlo) hvlo
        · obtain rfl := Option.some.inj (hhi.symm.trans hv)
          exact ihhi hi hhi (hinner hhi) hvhi
      · cases h
    · cases h
  | case6 => cases h

section

variable {displayNumber : Number → String} {requireUnc1 : Bool}

theorem checkNumericItems_eq_ok {path : String} {idx : Nat} {arr : List Json}
    (h : checkNumericItems displayNumber requireUnc1 path idx arr = .ok ()) :
    ∀ v ∈ arr, ∃ p, checkNumericNodes displayNumber requireUnc1 v p = .ok () := by
  induction arr generalizing idx with
  | nil => simp
  | cons v arr ih =>
    obtain ⟨⟨⟩, hv, h⟩ := bind_eq_ok.mp h
    exact List.forall_mem_cons.mpr ⟨⟨_, hv⟩, ih h⟩

theorem checkNumericMembers_eq_ok {path : String} {map : List (String × Json)}
    (h : checkNumericMembers displayNumber requireUnc1 path map = .ok ()) :
    ∀ e ∈ map, ∃ p, checkNumericNodes displayNumber requireUnc1 e.2 p = .ok () := by
  induction map with
  | nil => simp
  | cons e map ih =>
    obtain ⟨⟨⟩, hv, h⟩ := bind_eq_ok.mp h
    exact List.forall_mem_cons.mpr ⟨⟨_, hv⟩, ih h⟩

theorem checkNumericNodes_numbersI64 (j : Json) (hd : j.DistinctKeys) :
    ∀ path, checkNumericNodes displayNumber requireUnc1 j path = .ok () → NumbersI64 j := by
  induction j using Json.ind with
  | null => exact fun _ _ => .null trivial
  | bool b => exact fun _ _ => .bool b trivial
  | string s => exact fun _ _ => .string s trivial
  | number n =>
    intro path h
    simp only [checkNumericNodes] at h
    split_ifs at h with hn
    exact .number n hn
  | array items ih =>
    intro path h
    refine .array items trivial fun v hv => ?_
    obtain ⟨p, hp⟩ := checkNumericItems_eq_ok h v hv
    exact ih v hv ((Json.everywhere_array.mp hd).2 v hv) p hp
  | object members ih =>
    intro path h
    rw [checkNumericNodes] at h
    split_ifs at h with hnum
    · exact validateNumAtom_numbersI64 hd h
    · refine .object members trivial fun e he => ?_
      obtain ⟨p, hp⟩ := checkNumericMembers_eq_ok h e he
      exact ih e he ((Json.everywhere_object.mp hd).2 e he) p hp

end

/-! ## Imported doubles -/

theorem tidy_members {t : Text} (ht : t.Lawful) {members : List (String × Json)}
    (hd : DistinctKeys members) (hk : ∀ e ∈ members, Printable e.1)
    (hv : ∀ e ∈ members, Tidy t e.2) : Tidy t (.object members) :=
  .object members ⟨hd, fun e he => (hk e he).clean ht⟩ hv

theorem tidy_string {t : Text} (ht : t.Lawful) {s : String} (h : Printable s) :
    Tidy t (.string s) :=
  .string s (h.clean ht)

theorem tidy_toValue_dec {t : Text} (ht : t.Lawful) (m : Int) (s : UInt32) :
    Tidy t (Unc1.toValue (.dec (toString m) s none)) := by
  refine tidy_members ht (by simp [DistinctKeys, Unc1.unitMember])
    (by simp [Unc1.unitMember, Printable]) ?_
  simp only [Unc1.unitMember, List.append_nil, List.forall_mem_cons, List.not_mem_nil,
    false_imp_iff, implies_true, and_true]
  exact ⟨tidy_string ht (by simp [Printable]), tidy_string ht (printable_int m),
    .number _ trivial⟩

theorem tidy_fromF64Bits {t : Text} (ht : t.Lawful) {bits : UInt64} {n : Unc1.Num}
    (h : Unc1.fromF64Bits bits = .ok n) : Tidy t (Unc1.toValue n) := by
  obtain ⟨lo, hi, s, rfl⟩ := Unc1.fromF64Bits_eq_ok h
  refine tidy_members ht (by simp [DistinctKeys, Unc1.unitMember])
    (by simp [Unc1.unitMember, Printable]) ?_
  simp only [Unc1.unitMember, List.append_nil, List.forall_mem_cons, List.not_mem_nil,
    false_imp_iff, implies_true, and_true]
  exact ⟨tidy_string ht (by simp [Printable]), tidy_toValue_dec ht lo s,
    tidy_toValue_dec ht hi s⟩

theorem normalizeF64Items_tidy {t : Text} {arr out : List Json}
    (ih : ∀ j ∈ arr, ∀ v, normalizeF64ToBnd j = .ok v → Tidy t v)
    (h : normalizeF64Items arr = .ok out) : ∀ v ∈ out, Tidy t v := by
  induction arr generalizing out with
  | nil =>
    obtain rfl := Except.ok.inj h
    simp
  | cons item arr iharr =>
    obtain ⟨v, hv, h⟩ := bind_eq_ok.mp h
    obtain ⟨rest, hrest, h⟩ := bind_eq_ok.mp h
    obtain rfl := Except.ok.inj h
    exact List.forall_mem_cons.mpr ⟨ih item List.mem_cons_self v hv,
      iharr (fun j hj => ih j (List.mem_cons_of_mem _ hj)) hrest⟩

/-- The keys stay as they are. -/
theorem normalizeF64Members_tidy {t : Text} {map out : List (String × Json)}
    (ih : ∀ e ∈ map, ∀ v, normalizeF64ToBnd e.2 = .ok v → Tidy t v)
    (h : normalizeF64Members map = .ok out) : keys out = keys map ∧ ∀ e ∈ out, Tidy t e.2 := by
  induction map generalizing out with
  | nil =>
    obtain rfl := Except.ok.inj h
    simp
  | cons e map ihmap =>
    obtain ⟨v, hv, h⟩ := bind_eq_ok.mp h
    obtain ⟨rest, hrest, h⟩ := bind_eq_ok.mp h
    obtain rfl := Except.ok.inj h
    obtain ⟨hkeys, htidy⟩ := ihmap (fun e he => ih e (List.mem_cons_of_mem _ he)) hrest
    refine ⟨by rw [keys_cons, keys_cons, hkeys], ?_⟩
    exact List.forall_mem_cons.mpr ⟨ih e List.mem_cons_self v hv, htidy⟩

theorem normalizeF64ToBnd_tidy {t : Text} (ht : t.Lawful) (j : Json) (hj : Tidy t j) :
    ∀ v, normalizeF64ToBnd j = .ok v → Tidy t v := by
  induction j using Json.ind with
  | null =>
    rintro _ ⟨⟩
    exact hj
  | bool b =>
    rintro _ ⟨⟩
    exact hj
  | string s =>
    rintro _ ⟨⟩
    exact hj
  | number n =>
    intro v h
    cases n with
    | float bits finite =>
      rw [normalizeF64ToBnd] at h
      split at h
      · cases h
      · next n hn =>
        obtain rfl := Except.ok.inj h
        exact tidy_fromF64Bits ht hn
    | _ =>
      obtain rfl := Except.ok.inj h
      exact hj
  | array arr ih =>
    intro v h
    obtain ⟨out, hout, h⟩ := bind_eq_ok.mp h
    obtain rfl := Except.ok.inj h
    exact .array out trivial (normalizeF64Items_tidy
      (fun j hj' => ih j hj' ((Json.everywhere_array.mp hj).2 j hj')) hout)
  | object map ih =>
    intro v h
    rw [normalizeF64ToBnd] at h
    split_ifs at h
    · obtain rfl := Except.ok.inj h
      exact hj
    · obtain ⟨out, hout, h⟩ := bind_eq_ok.mp h
      obtain rfl := Except.ok.inj h
      obtain ⟨hkeys, hvalues⟩ := normalizeF64Members_tidy
        (fun e he => ih e he ((Json.everywhere_object.mp hj).2 e he)) hout
      refine .object out ⟨?_, fun e he => ?_⟩ hvalues
      · have hd : DistinctKeys map := hj.here.1
        rwa [DistinctKeys, hkeys]
      · obtain ⟨w, hw⟩ := mem_keys.mp (hkeys ▸ mem_keys_of_mem he)
        exact hj.here.2 (e.1, w) hw

/-! ## The whole stage -/

theorem knockValue_tidy {env : KnockEnv} {bytes : List UInt8} {requireUnc1 : Bool}
    {mode : F64ImportMode} {v : Json} (ht : env.text.Lawful)
    (h : knockValue env bytes requireUnc1 mode = .ok v) :
    Tidy env.text v := by
  obtain ⟨⟨⟩, -, h⟩ := bind_eq_ok.mp h
  obtain ⟨parsed, -, h⟩ := bind_eq_ok.mp h
  obtain ⟨normalized, hnormalized, h⟩ := bind_eq_ok.mp h
  obtain ⟨value, hvalue, h⟩ := bind_eq_ok.mp h
  obtain ⟨⟨⟩, -, h⟩ := bind_eq_ok.mp h
  obtain rfl := Except.ok.inj h
  unfold normalizeBody at hnormalized
  split at hnormalized
  · cases hnormalized
  · next w hw =>
    obtain rfl := Except.ok.inj hnormalized
    have htidy := normalizeForInput_tidy ht hw
    cases mode with
    | bnd => exact normalizeF64ToBnd_tidy ht w htidy value hvalue
    | reject =>
      obtain rfl := Except.ok.inj hvalue
      exact htidy

theorem knockWithOptions_eq_ok {env : KnockEnv} {bytes : List UInt8} {requireUnc1 : Bool}
    {mode : F64ImportMode} {v : Json} (h : knockWithOptions env bytes requireUnc1 mode = .ok v) :
    knockValue env bytes requireUnc1 mode = .ok v ∧
      knockParsedWithOptions env v requireUnc1 = .ok () := by
  have hvalue : knockValue env bytes requireUnc1 mode = .ok v := by
    unfold knockWithOptions at h
    split at h
    · cases h
    · next value hvalue =>
      split at h
      · cases h
      · rw [hvalue, Except.ok.inj h]
  refine ⟨hvalue, ?_⟩
  obtain ⟨⟨⟩, -, hvalue⟩ := bind_eq_ok.mp hvalue
  obtain ⟨parsed, -, hvalue⟩ := bind_eq_ok.mp hvalue
  obtain ⟨normalized, -, hvalue⟩ := bind_eq_ok.mp hvalue
  obtain ⟨value, -, hvalue⟩ := bind_eq_ok.mp hvalue
  obtain ⟨⟨⟩, hparsed, hvalue⟩ := bind_eq_ok.mp hvalue
  rwa [Except.ok.inj hvalue] at hparsed

/-- The structural checks of an accepted value. -/
theorem knockParsedWithOptions_eq_ok {env : KnockEnv} {v : Json} {requireUnc1 : Bool}
    (h : knockParsedWithOptions env v requireUnc1 = .ok ()) :
    checkDepth v 0 = .ok () ∧ checkArrays v = .ok () ∧
      checkNumericNodes env.displayNumber requireUnc1 v "$" = .ok () := by
  unfold knockParsedWithOptions at h
  split at h
  · cases h
  · simp only [throw_eq_error, bind_error, ite_error_eq_ok] at h
    obtain ⟨-, -, h⟩ := h
    obtain ⟨⟨⟩, hdepth, h⟩ := bind_eq_ok.mp h
    obtain ⟨⟨⟩, harrays, h⟩ := bind_eq_ok.mp h
    obtain ⟨⟨⟩, hnumbers, -⟩ := bind_eq_ok.mp h
    exact ⟨hdepth, harrays, hnumbers⟩

/-- Tidy values with no number outside `i64` keep every ρ rule. -/
theorem rho_of_tidy {t : Text} {j : Json} (h : Tidy t j) (hn : NumbersI64 j) : Rho t j := by
  refine (h.and hn).mono fun j hj => ?_
  cases j with
  | number n => exact hj.2
  | string s => exact hj.1
  | object members => exact hj.1.2
  | _ => trivial

/-- What KNOCK lets through, the pipeline can encode. -/
theorem knockWithOptions_encodable (env : KnockEnv) (ht : env.text.Lawful) (bytes : List UInt8)
    (requireUnc1 : Bool) (mode : F64ImportMode) (v : Json)
    (h : knockWithOptions env bytes requireUnc1 mode = .ok v) :
    (∃ b, toNrf1Bytes env.text v = .ok b) ∧ depth v ≤ MAX_DEPTH ∧ ArraysBounded v := by
  obtain ⟨hvalue, hparsed⟩ := knockWithOptions_eq_ok h
  obtain ⟨hdepth, harrays, hnumbers⟩ := knockParsedWithOptions_eq_ok hparsed
  have htidy := knockValue_tidy ht hvalue
  have hd := Nrf.Tidy.distinctKeys htidy
  have hrho := rho_of_tidy htidy (checkNumericNodes_numbersI64 v hd "$" hnumbers)
  exact ⟨⟨_, (toNrf1Bytes_eq_ok hd).mpr ⟨hrho, rfl⟩⟩, ((checkDepth_eq_ok v 0).mp hdepth).2,
    (checkArrays_eq_ok v).mp harrays⟩

def sampleText : String :=
  "\x7b\"@type\":\"t\",\"@world\":\"w\",\"n\":[\x7b\"@num\":\"dec/1\",\"m\":\"5\",\"s\":2\x7d,null,1.5]\x7d"

/-- What `serde_json` makes of `sampleText`. -/
def sampleBody : Json :=
  .object [("@type", .string "t"), ("@world", .string "w"),
    ("n", .array [.object [("@num", .string "dec/1"), ("m", .string "5"),
      ("s", .number (.posInt 2))], .null, .number (.float 0x3FF8000000000000 (by decide))])]

/-- An environment for `sampleText` alone. -/
def sampleEnv : KnockEnv where
  text := asciiText
  chrono := fun _ => none
  fromSlice := fun bytes => if bytes = Utf8.utf8 sampleText then .ok sampleBody else .error "unread"
  displayNumber := fun _ => "1.5"

theorem knockWithOptions_encodable_sample :
    ∃ v, knockWithOptions sampleEnv (Utf8.utf8 sampleText) false .bnd = .ok v ∧
      (∃ b, toNrf1Bytes asciiText v = .ok b) ∧ depth v ≤ MAX_DEPTH ∧ ArraysBounded v := by
  have hok : (knockWithOptions sampleEnv (Utf8.utf8 sampleText) false .bnd).isOk = true := by
    decide +kernel
  cases h : knockWithOptions sampleEnv (Utf8.utf8 sampleText) false .bnd with
  | error stop =>
    rw [h] at hok
    cases hok
  | ok v => exact ⟨v, rfl, knockWithOptions_encodable sampleEnv asciiText_lawful _ _ _ v h⟩

end Ubl.Knock
