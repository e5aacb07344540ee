import Ubl.Json.Text
import Ubl.Knock.Accepts

/-!
# Which duplicate keys KNOCK finds

`scan_object_keys` walks the raw bytes with a nesting counter.  On well-formed JSON whose
outermost value is an object it reads every member key of that object as it is spelled and
skips everything deeper, so it finds exactly the keys that are repeated letter for letter,
are not empty and stand in the outermost object.

    knock errs ↔ RepeatsTopLevelKey doc ∨ another check fails
-/

namespace Ubl.Knock

open AssocMap Grammar Nrf ExceptLemmas

/-! ## Steps of the scanner -/

section Steps

variable {ks : List (List UInt8)} {d : Nat}

theorem scan_plain {bs : List UInt8} (h : ∀ b ∈ bs, Plain b) (rest : List UInt8) :
    scanObject ks d false false (bs ++ rest) = scanObject ks d false false rest := by
  induction bs with
  | nil => rfl
  | cons b bs ih =>
    obtain ⟨hb, hbs⟩ := List.forall_mem_cons.mp h
    obtain ⟨h1, h2, h3, h4, h5⟩ := hb
    rw [List.cons_append, scanObject]
    simp [h1, h2, h3, h4, h5, ih hbs]

theorem scan_ws (ws : Ws) (rest : List UInt8) :
    scanObject ks d false false (ws.1 ++ rest) = scanObject ks d false false rest :=
  scan_plain (fun b hb => plain_of_isWs (ws.2 b hb)) rest

theorem scan_open {b : UInt8} (hb : b = 0x7b ∨ b = 0x5b) (rest : List UInt8) :
    scanObject ks d false false (b :: rest) = scanObject ks (d + 1) false false rest := by
  rw [scanObject]
  rcases hb with rfl | rfl <;> simp

theorem scan_close {b : UInt8} (hb : b = 0x7d ∨ b = 0x5d) (rest : List UInt8) :
    scanObject ks (d + 1) false false (b :: rest) = scanObject ks d false false rest := by
  rw [scanObject]
  rcases hb with rfl | rfl <;> simp

theorem scan_end (rest : List UInt8) :
    scanObject ks 0 false false (0x7d :: rest) = .ok (0x7d :: rest) := by
  rw [scanObject]
  simp

theorem scan_comma (more : Bool) (rest : List UInt8) :
    scanObject ks d false false (comma more ++ rest) = scanObject ks d false false rest := by
  refine scan_plain ?_ rest
  cases more <;> simp [comma, Plain]

/-! ### Strings inside nested values -/

theorem scan_quote (inString : Bool) (rest : List UInt8) :
    scanObject ks (d + 1) inString false (0x22 :: rest) =
      scanObject ks (d + 1) (!inString) false rest := by
  rw [scanObject]
  simp

theorem scan_inString {bs : List UInt8} (h : ∀ b ∈ bs, b ≠ 0x22 ∧ b ≠ 0x5c)
    (rest : List UInt8) :
    scanObject ks d true false (bs ++ rest) = scanObject ks d true false rest := by
  induction bs with
  | nil => rfl
  | cons b bs ih =>
    obtain ⟨⟨h1, h2⟩, hbs⟩ := List.forall_mem_cons.mp h
    rw [List.cons_append, scanObject]
    simp [h1, h2, ih hbs]

theorem scan_backslash (b : UInt8) (rest : List UInt8) :
    scanObject ks d true false (0x5c :: b :: rest) = scanObject ks d true false rest := by
  have escaped : scanObject ks d true true (b :: rest) = scanObject ks d true false rest := by
    rw [scanObject]
    simp
  rw [scanObject]
  simpa using escaped

theorem scan_item (item : StrItem) (rest : List UInt8) :
    scanObject ks d true false (item.render ++ rest) = scanObject ks d true false rest := by
  cases item with
  | char c h => exact scan_inString (utf8EncodeChar_plain h.2.1 h.2.2) rest
  | escape e => exact scan_backslash e.byte rest
  | unicode d₃ d₂ d₁ d₀ =>
    have hex : ∀ b ∈ [d₃.1, d₂.1, d₁.1, d₀.1], b ≠ 0x22 ∧ b ≠ 0x5c := by
      simp only [List.forall_mem_cons]
      exact ⟨hexDigit_plain d₃, hexDigit_plain d₂, hexDigit_plain d₁, hexDigit_plain d₀, by simp⟩
    exact (scan_backslash 0x75 _).trans (scan_inString hex rest)

theorem scan_items (items : List StrItem) (rest : List UInt8) :
    scanObject ks d true false (renderItems items ++ rest) = scanObject ks d true false rest := by
  induction items with
  | nil => rfl
  | cons item items ih =>
    rw [renderItems, List.flatMap_cons, List.append_assoc, scan_item]
    exact ih

theorem scan_string (items : List StrItem) (rest : List UInt8) :
    scanObject ks (d + 1) false false (renderString items ++ rest) =
      scanObject ks (d + 1) false false rest := by
  have h : renderString items ++ rest = 0x22 :: (renderItems items ++ (0x22 :: rest)) := by
    simp [renderString]
  rw [h, scan_quote, Bool.not_false, scan_items, scan_quote, Bool.not_true]

end Steps

/-! ### Nested values are skipped -/

theorem plain_literal {v : JsonText} (h : v = .null ∨ ∃ b, v = .bool b) :
    ∀ b ∈ v.render, Plain b := by
  rcases h with rfl | ⟨b, rfl⟩
  · simp [JsonText.render, Plain]
  · cases b <;> simp [JsonText.render, Plain]

mutual

theorem scan_value {ks : List (List UInt8)} {d : Nat} (rest : List UInt8) : ∀ v : JsonText,
    scanObject ks (d + 1) false false (v.render ++ rest) = scanObject ks (d + 1) false false rest
  | .null => scan_plain (plain_literal (.inl rfl)) rest
  | .bool b => scan_plain (plain_literal (.inr ⟨b, rfl⟩)) rest
  | .number lit h => scan_plain (plain_of_isNumber h) rest
  | .string items => scan_string items rest
  | .array ws elements => by
    simp only [JsonText.render, List.cons_append, List.append_assoc]
    rw [scan_open (.inr rfl), scan_ws, scan_elements _ elements]
    exact scan_close (.inr rfl) rest
  | .object ws members => by
    simp only [JsonText.render, List.cons_append, List.append_assoc]
    rw [scan_open (.inl rfl), scan_ws, scan_nestedMembers _ members]
    exact scan_close (.inl rfl) rest

theorem scan_elements {ks : List (List UInt8)} {d : Nat} {more : Bool} (rest : List UInt8) :
    ∀ elements : Elements, scanObject ks (d + 1) false false (elements.render more ++ rest) =
      scanObject ks (d + 1) false false rest
  | .nil => rfl
  | .cons before value after tail => by
    simp only [Elements.render, List.append_assoc]
    rw [scan_comma, scan_ws, scan_value _ value, scan_ws, scan_elements _ tail]

theorem scan_nestedMembers {ks : List (List UInt8)} {d : Nat} {more : Bool} (rest : List UInt8) :
    ∀ members : Members, scanObject ks (d + 1) false false (members.render more ++ rest) =
      scanObject ks (d + 1) false false rest
  | .nil => rfl
  | .cons before key afterKey beforeValue value after tail => by
    have colon (bs : List UInt8) : scanObject ks (d + 1) false false (0x3a :: bs) =
        scanObject ks (d + 1) false false bs :=
      @scan_plain ks (d + 1) [0x3a] (by simp [Plain]) bs
    simp only [Members.render, List.append_assoc, List.cons_append]
    rw [scan_comma, scan_ws, scan_string, scan_ws, colon, scan_ws, scan_value _ value, scan_ws,
      scan_nestedMembers _ tail]

end

/-! ## The outermost object -/

theorem takeKey_quote (rest : List UInt8) : takeKey (0x22 :: rest) = some ([], 0x22 :: rest) := by
  cases rest <;> simp [takeKey]

theorem takeKey_plain {bs : List UInt8} (h : ∀ b ∈ bs, b ≠ 0x22 ∧ b ≠ 0x5c) (rest : List UInt8) :
    takeKey (bs ++ rest) = (takeKey rest).map fun p => (bs ++ p.1, p.2) := by
  induction bs with
  | nil => simp
  | cons b bs ih =>
    obtain ⟨⟨h1, h2⟩, hbs⟩ := List.forall_mem_cons.mp h
    have step (t : List UInt8) : takeKey (b :: t) = (takeKey t).map fun p => (b :: p.1, p.2) := by
      cases t <;> simp [takeKey, h1, h2]
    rw [List.cons_append, step, ih hbs, Option.map_map]
    rfl

theorem takeKey_backslash (c : UInt8) (rest : List UInt8) :
    takeKey (0x5c :: c :: rest) = (takeKey rest).map fun p => (0x5c :: c :: p.1, p.2) := by
  simp [takeKey]

theorem takeKey_item (item : StrItem) (rest : List UInt8) :
    takeKey (item.render ++ rest) = (takeKey rest).map fun p => (item.render ++ p.1, p.2) := by
  cases item with
  | char c h => exact takeKey_plain (utf8EncodeChar_plain h.2.1 h.2.2) rest
  | escape e => exact takeKey_backslash e.byte rest
  | unicode d₃ d₂ d₁ d₀ =>
    have hex : ∀ b ∈ [d₃.1, d₂.1, d₁.1, d₀.1], b ≠ 0x22 ∧ b ≠ 0x5c := by
      simp only [List.forall_mem_cons]
      exact ⟨hexDigit_plain d₃, hexDigit_plain d₂, hexDigit_plain d₁, hexDigit_plain d₀, by simp⟩
    have hrest : takeKey (d₃.1 :: d₂.1 :: d₁.1 :: d₀.1 :: rest) = _ := takeKey_plain hex rest
    simp only [StrItem.render, List.cons_append, List.nil_append]
    rw [takeKey_backslash, hrest, Option.map_map]
    rfl

theorem takeKey_items (items : List StrItem) (rest : List UInt8) :
    takeKey (renderItems items ++ 0x22 :: rest) = some (renderItems items, 0x22 :: rest) := by
  induction items with
  | nil => exact takeKey_quote rest
  | cons item items ih =>
    rw [renderItems, List.flatMap_cons, List.append_assoc, takeKey_item]
    rw [renderItems] at ih
    rw [ih]
    rfl

/-- A string of the outermost object counts as a key when a colon follows it. -/
theorem scan_topString {ks : List (List UInt8)} (items : List StrItem) (rest : List UInt8) :
    scanObject ks 0 false false (renderString items ++ rest) =
      if renderItems items ≠ [] ∧ colonFollows rest then
        if renderItems items ∈ ks then
          .error (.error (.duplicateKey ((Utf8.fromUtf8 (renderItems items)).getD "")))
        else scanObject (renderItems items :: ks) 0 false false rest
      else scanObject ks 0 false false rest := by
  have h : renderString items ++ rest = 0x22 :: (renderItems items ++ (0x22 :: rest)) := by
    simp [renderString]
  rw [h, scanObject]
  simp only [Bool.false_eq_true, if_false, and_false, if_true, and_self]
  split
  · next hnone =>
    rw [takeKey_items] at hnone
    cases hnone
  · next key after hsome =>
    rw [takeKey_items] at hsome
    obtain ⟨rfl, rfl⟩ := Prod.mk.inj (Option.some.inj hsome)
    rfl

theorem colonFollows_ws (ws : Ws) (b : UInt8) (hb : isAsciiWhitespace b = false)
    (rest : List UInt8) : colonFollows (ws.1 ++ b :: rest) = (b == 0x3a) := by
  have skip : ∀ c ∈ ws.1, isAsciiWhitespace c := by
    intro c hc
    have hws := ws.2 c hc
    simp only [isWs, Bool.or_eq_true, beq_iff_eq] at hws
    rcases hws with ((rfl | rfl) | rfl) | rfl <;> rfl
  rw [colonFollows, List.dropWhile_append_of_pos skip, List.dropWhile_cons, hb]
  simp

theorem scan_topValue {ks : List (List UInt8)} (v : JsonText) {rest : List UInt8}
    (h : colonFollows rest = false) :
    scanObject ks 0 false false (v.render ++ rest) = scanObject ks 0 false false rest := by
  cases v with
  | null => exact scan_plain (plain_literal (.inl rfl)) rest
  | bool b => exact scan_plain (plain_literal (.inr ⟨b, rfl⟩)) rest
  | number lit hlit => exact scan_plain (plain_of_isNumber hlit) rest
  | string items =>
    rw [JsonText.render, scan_topString, if_neg]
    simp [h]
  | array ws elements =>
    simp only [JsonText.render, List.cons_append, List.append_assoc]
    rw [scan_open (.inr rfl), scan_ws, scan_elements]
    exact scan_close (.inr rfl) rest
  | object ws members =>
    simp only [JsonText.render, List.cons_append, List.append_assoc]
    rw [scan_open (.inl rfl), scan_ws, scan_nestedMembers]
    exact scan_close (.inl rfl) rest

/-- The keys that are not empty, as they are spelled. -/
def spelledKeys (members : Members) : List (List UInt8) :=
  (members.keys.map renderItems).filter (· ≠ [])

/-- After a value of the outermost object comes a comma or its closing brace. -/
theorem colonFollows_tail (after : Ws) (tail : Members) (rest : List UInt8) :
    colonFollows (after.1 ++ (tail.render true ++ 0x7d :: rest)) = false := by
  cases tail with
  | nil => exact colonFollows_ws after 0x7d rfl rest
  | cons before key afterKey beforeValue value after' tail' =>
    simp only [Members.render, comma, if_true, List.singleton_append]
    exact colonFollows_ws after 0x2c rfl _

theorem scan_members (rest : List UInt8) : ∀ (members : Members) (more : Bool)
    (ks : List (List UInt8)),
    (((spelledKeys members).Nodup ∧ List.Disjoint (spelledKeys members) ks) →
      scanObject ks 0 false false (members.render more ++ 0x7d :: rest) = .ok (0x7d :: rest)) ∧
    (¬ ((spelledKeys members).Nodup ∧ List.Disjoint (spelledKeys members) ks) →
      ∃ k, scanObject ks 0 false false (members.render more ++ 0x7d :: rest) =
        .error (.error (.duplicateKey k)))
  | .nil, more, ks => by
    refine ⟨fun _ => scan_end rest, fun h => absurd ?_ h⟩
    simp [spelledKeys, Members.keys]
  | .cons before key afterKey beforeValue value after tail, more, ks => by
    have colon (ks : List (List UInt8)) (bs : List UInt8) :
        scanObject ks 0 false false (0x3a :: bs) = scanObject ks 0 false false bs :=
      @scan_plain ks 0 [0x3a] (by simp [Plain]) bs
    -- after the key, the scan runs on to the next member
    have next (ks : List (List UInt8)) :
        scanObject ks 0 false false (afterKey.1 ++ (0x3a :: (beforeValue.1 ++ (value.render ++
          (after.1 ++ (tail.render true ++ 0x7d :: rest)))))) =
          scanObject ks 0 false false (tail.render true ++ 0x7d :: rest) := by
      rw [scan_ws, colon, scan_ws, scan_topValue value (colonFollows_tail after tail rest), scan_ws]
    have hcolon (bs : List UInt8) : colonFollows (afterKey.1 ++ 0x3a :: bs) = true :=
      colonFollows_ws afterKey 0x3a rfl bs
    have ih := scan_members rest tail true
    simp only [Members.render, List.append_assoc, List.cons_append]
    rw [scan_comma, scan_ws, scan_topString, next, next]
    simp only [hcolon, and_true]
    by_cases hkey : renderItems key = []
    · have hs : spelledKeys (.cons before key afterKey beforeValue value after tail) =
          spelledKeys tail := by
        simp [spelledKeys, Members.keys, hkey]
      rw [if_neg (not_not.mpr hkey), hs]
      exact ih ks
    · have hs : spelledKeys (.cons before key afterKey beforeValue value after tail) =
          renderItems key :: spelledKeys tail := by
        simp [spelledKeys, Members.keys, hkey]
      rw [if_pos hkey, hs, List.nodup_cons, List.disjoint_cons_left]
      by_cases hmem : renderItems key ∈ ks
      · rw [if_pos hmem]
        exact ⟨fun h => absurd hmem h.2.1, fun _ => ⟨_, rfl⟩⟩
      · have hiff : ((renderItems key ∉ spelledKeys tail ∧ (spelledKeys tail).Nodup) ∧
            renderItems key ∉ ks ∧ (spelledKeys tail).Disjoint ks) ↔
            ((spelledKeys tail).Nodup ∧ (spelledKeys tail).Disjoint (renderItems key :: ks)) := by
          rw [List.disjoint_cons_right]
          tauto
        rw [if_neg hmem, hiff]
        exact ih _

/-! ## The whole document -/

theorem scanObjectKeys_ws (ws : Ws) (rest : List UInt8) :
    scanObjectKeys (ws.1 ++ rest) = scanObjectKeys rest := by
  obtain ⟨ws, hws⟩ := ws
  induction ws with
  | nil => rfl
  | cons b ws ih =>
    obtain ⟨hb, hws⟩ := List.forall_mem_cons.mp hws
    have hne : b ≠ 0x7b := (plain_of_isWs hb).2.1
    rw [List.cons_append, scanObjectKeys, if_neg hne]
    exact ih hws

theorem scanObjectKeys_object {doc : JsonDoc} {ws : Ws} {members : Members}
    (h : doc.value = .object ws members) :
    ((spelledKeys members).Nodup → scanObjectKeys doc.render = .ok ()) ∧
      (¬ (spelledKeys members).Nodup →
        ∃ k, scanObjectKeys doc.render = .error (.error (.duplicateKey k))) := by
  have hscan := scan_members doc.after.1 members false []
  simp only [List.disjoint_nil_right, and_true] at hscan
  have hrender : scanObjectKeys doc.render = scanObjectKeys
      (0x7b :: (ws.1 ++ (members.render false ++ (0x7d :: doc.after.1)))) := by
    rw [JsonDoc.render, scanObjectKeys_ws, h]
    simp [JsonText.render]
  rw [hrender, scanObjectKeys, if_pos rfl]
  constructor
  · intro hnodup
    split
    · next stop hstop =>
      rw [scan_ws, hscan.1 hnodup] at hstop
      cases hstop
    · next left hleft =>
      rw [scan_ws, hscan.1 hnodup] at hleft
      obtain rfl := Except.ok.inj hleft
      have hend := scanObjectKeys_ws doc.after []
      rw [List.append_nil] at hend
      rw [List.drop_succ_cons, List.drop_zero, hend, scanObjectKeys]
  · intro hdup
    obtain ⟨k, hk⟩ := hscan.2 hdup
    refine ⟨k, ?_⟩
    split
    · next stop hstop =>
      rw [scan_ws, hk] at hstop
      rw [← Except.error.inj hstop]
    · next left hleft =>
      rw [scan_ws, hk] at hleft
      cases hleft

/-- The outermost object has two members whose keys are spelled alike and are not empty. -/
def RepeatsTopLevelKey (doc : JsonDoc) : Prop :=
  ∃ ws members, doc.value = .object ws members ∧ ¬ (spelledKeys members).Nodup

/-- `serde_json` makes an object only of the text of an object. -/
def ParsesObjects (env : KnockEnv) : Prop :=
  ∀ (doc : JsonDoc) members, env.fromSlice doc.render = .ok (.object members) →
    ∃ ws ms, doc.value = .object ws ms

theorem normalizeForInput_object {t : Text} {chrono : String → Option UtcTime} {j : Json}
    {members : List (String × Json)} (h : normalizeForInput t chrono j = .ok (.object members)) :
    ∃ ms, j = .object ms := by
  unfold normalizeForInput at h
  cases j with
  | object ms => exact ⟨ms, rfl⟩
  | string s =>
    obtain ⟨r, -, h⟩ := bind_eq_ok.mp h
    simp at h
  | array arr =>
    obtain ⟨out, -, h⟩ := bind_eq_ok.mp h
    simp at h
  | _ => simp [normalizeValueForInput] at h

/-- A double at the root would become an object, but one without `@type`. -/
theorem importF64_object {mode : F64ImportMode} {j : Json} {members : List (String × Json)}
    (h : importF64 mode j = .ok (.object members)) (htype : "@type" ∈ keys members) :
    ∃ ms, j = .object ms := by
  cases mode with
  | reject => exact ⟨members, Except.ok.inj h⟩
  | bnd =>
    cases j with
    | object ms => exact ⟨ms, rfl⟩
    | number n =>
      cases n with
      | float bits finite =>
        simp only [importF64, normalizeF64ToBnd] at h
        split at h
        · cases h
        · next n hn =>
          obtain ⟨lo, hi, s, rfl⟩ := Unc1.fromF64Bits_eq_ok hn
          obtain rfl := Json.object.inj (Except.ok.inj h)
          simp [Unc1.unitMember] at htype
      | _ => cases h
    | array arr =>
      obtain ⟨out, -, h⟩ := bind_eq_ok.mp h
      cases h
    | _ => cases h

theorem knockValue_object {env : KnockEnv} {bytes : List UInt8} {requireUnc1 : Bool}
    {mode : F64ImportMode} {v : Json} (h : knockValue env bytes requireUnc1 mode = .ok v) :
    (∃ ms, env.fromSlice bytes = .ok (.object ms)) ∧ Utf8.fromUtf8 bytes ≠ none := by
  obtain ⟨⟨⟩, hraw, h⟩ := bind_eq_ok.mp h
  obtain ⟨parsed, hparsed, h⟩ := bind_eq_ok.mp h
  obtain ⟨normalized, hnormalized, h⟩ := bind_eq_ok.mp h
  obtain ⟨value, hvalue, h⟩ := bind_eq_ok.mp h
  obtain ⟨⟨⟩, hchecks, h⟩ := bind_eq_ok.mp h
  constructor
  · obtain ⟨obj, rfl, htype⟩ : ∃ obj, value = .object obj ∧ "@type" ∈ keys obj := by
      unfold knockParsedWithOptions at hchecks
      cases value <;> simp only [Json.asObject, reduceCtorEq] at hchecks
      simp only [throw_eq_error, bind_error, ite_error_eq_ok, not_not] at hchecks
      exact ⟨_, rfl, hchecks.1⟩
    obtain ⟨ns, rfl⟩ := importF64_object hvalue htype
    unfold normalizeBody at hnormalized
    split at hnormalized
    · cases hnormalized
    · next w hw =>
      obtain rfl := Except.ok.inj hnormalized
      obtain ⟨ms, rfl⟩ := normalizeForInput_object hw
      refine ⟨ms, ?_⟩
      unfold parseBody at hparsed
      split at hparsed
      · cases hparsed
      · next u hu => rw [hu, Except.ok.inj hparsed]
  · unfold knockRaw at hraw
    split_ifs at hraw with _ hutf
    exact hutf

/-- Of the texts with a repeated key, KNOCK rejects those that repeat a spelling in the
outermost object and those that fail another check. -/
theorem knockWithOptions_duplicate_iff (env : KnockEnv) (hserde : ParsesObjects env)
    (doc : JsonDoc) (requireUnc1 : Bool) (mode : F64ImportMode) :
    doc.value.HasDuplicate →
      ((∃ e, knockWithOptions env doc.render requireUnc1 mode = .error (.error e)) ↔
        RepeatsTopLevelKey doc ∨ ∃ e, knockValue env doc.render requireUnc1 mode = .error e) := by
  intro _
  unfold knockWithOptions
  cases hvalue : knockValue env doc.render requireUnc1 mode with
  | error e => simp
  | ok v =>
    obtain ⟨⟨ms, hparse⟩, hutf⟩ := knockValue_object hvalue
    obtain ⟨ws, members, hdoc⟩ := hserde doc ms hparse
    obtain ⟨s, hs⟩ := Option.ne_none_iff_exists'.mp hutf
    obtain ⟨hok, herr⟩ := scanObjectKeys_object hdoc
    simp only [checkDuplicateKeys, hs, reduceCtorEq, exists_false, or_false]
    by_cases hnodup : (spelledKeys members).Nodup
    · rw [hok hnodup]
      simp only [reduceCtorEq, exists_false, false_iff]
      rintro ⟨ws', members', hdoc', hdup⟩
      obtain ⟨-, rfl⟩ := JsonText.object.inj (hdoc.symm.trans hdoc')
      exact hdup hnodup
    · obtain ⟨k, hk⟩ := herr hnodup
      rw [hk]
      exact ⟨fun _ => ⟨ws, members, hdoc, hnodup⟩, fun _ => ⟨_, rfl⟩⟩

/-! ## Three texts -/

theorem head_render (v : JsonText) : ∃ b rest, v.render = b :: rest ∧ isWs b = false ∧
    (b = 0x7b ↔ ∃ ws members, v = .object ws members) := by
  cases v with
  | null => exact ⟨_, _, rfl, by decide, by simp⟩
  | bool b =>
    cases b with
    | false => exact ⟨_, _, rfl, by decide, by simp⟩
    | true => exact ⟨_, _, rfl, by decide, by simp⟩
  | number lit h =>
    obtain ⟨b, rest, heq, hb⟩ := head_isNumber h
    have hplain : isWs b = false ∧ b ≠ 0x7b := by
      rcases hb with rfl | hb
      · decide
      · refine ⟨?_, (plain_of_isDigit hb).2.1⟩
        by_contra hws
        simp only [Bool.not_eq_false, isWs, Bool.or_eq_true, beq_iff_eq] at hws
        rcases hws with ((rfl | rfl) | rfl) | rfl <;> revert hb <;> decide
    exact ⟨b, rest, heq, hplain.1, by simp [hplain.2]⟩
  | string items => exact ⟨_, _, rfl, by decide, by simp⟩
  | array ws elements => exact ⟨_, _, rfl, by decide, by simp⟩
  | object ws members => exact ⟨_, _, rfl, by decide, by simp⟩

/-- The first byte that is not white space tells an object. -/
theorem object_of_render_eq {doc doc' : JsonDoc} (h : doc'.render = doc.render)
    (hobj : ∃ ws members, doc.value = .object ws members) :
    ∃ ws members, doc'.value = .object ws members := by
  have skip (doc : JsonDoc) {b : UInt8} {rest : List UInt8} (hv : doc.value.render = b :: rest)
      (hb : isWs b = false) : doc.render.dropWhile isWs = b :: (rest ++ doc.after.1) := by
    rw [JsonDoc.render, List.dropWhile_append_of_pos doc.before.2, hv, List.cons_append,
      List.dropWhile_cons_of_neg (by simp [hb])]
  obtain ⟨b, rest, hv, hb, hiff⟩ := head_render doc.value
  obtain ⟨b', rest', hv', hb', hiff'⟩ := head_render doc'.value
  have heq := skip doc' hv' hb'
  rw [h, skip doc hv hb] at heq
  obtain ⟨rfl, -⟩ := List.cons.inj heq
  exact hiff'.mp (hiff.mpr hobj)

/-- `serde_json` on one text. -/
def docEnv (doc : JsonDoc) (body : Json) : KnockEnv where
  text := asciiText
  chrono := fun _ => none
  fromSlice := fun bytes => if bytes = doc.render then .ok body else .error "unread"
  displayNumber := fun _ => ""

theorem docEnv_parsesObjects {doc : JsonDoc} {body : Json}
    (hobj : ∃ ws members, doc.value = .object ws members) : ParsesObjects (docEnv doc body) := by
  intro doc' members h
  refine @object_of_render_eq doc doc' ?_ hobj
  by_contra hne
  simp [docEnv, hne] at h

/-- The characters of a string that need no escape. -/
def rawItems (s : String) : List StrItem :=
  s.toList.flatMap fun c =>
    if h : 0x20 ≤ c.toNat ∧ c ≠ '"' ∧ c ≠ '\\' then [.char c h] else []

def oneLit : JsonText := .number [0x31] ⟨[], [0x31], [], [], by simp [Digits, isDigit]⟩

def twoLit : JsonText := .number [0x32] ⟨[], [0x32], [], [], by simp [Digits, isDigit]⟩

/-- A member without white space. -/
def member (key : List StrItem) (value : JsonText) (rest : Members) : Members :=
  .cons noWs key noWs noWs value noWs rest

/-- `{"@type":"t","@world":"w",` and then `rest`. -/
def docWith (rest : Members) : JsonDoc :=
  ⟨noWs, .object noWs (member (rawItems "@type") (.string (rawItems "t"))
    (member (rawItems "@world") (.string (rawItems "w")) rest)), noWs⟩

/-- `"a":1,"a":2`. -/
def repeatedMembers : Members := member (rawItems "a") oneLit (member (rawItems "a") twoLit .nil)

/-- `"a":1,"\u0061":2`. -/
def escapedMembers : Members :=
  member (rawItems "a") oneLit
    (member [.unicode ⟨0x30, by decide⟩ ⟨0x30, by decide⟩ ⟨0x36, by decide⟩ ⟨0x31, by decide⟩]
      twoLit .nil)

/-- `"x":{"a":1,"a":2}`. -/
def nestedMembers : Members := member (rawItems "x") (.object noWs repeatedMembers) .nil

/-- A body with the anchors; of a repeated key the last value stays. -/
def bodyWith (rest : List (String × Json)) : Json :=
  .object ([("@type", .string "t"), ("@world", .string "w")] ++ rest)

def lastValue : List (String × Json) := [("a", .number (.posInt 2))]

theorem knockWithOptions_duplicate_iff_repeated :
    (∃ e, knockWithOptions (docEnv (docWith repeatedMembers) (bodyWith lastValue))
        (docWith repeatedMembers).render false .reject = .error (.error e)) ↔
      RepeatsTopLevelKey (docWith repeatedMembers) ∨
        ∃ e, knockValue (docEnv (docWith repeatedMembers) (bodyWith lastValue))
          (docWith repeatedMembers).render false .reject = .error e := by
  refine knockWithOptions_duplicate_iff _ (docEnv_parsesObjects ⟨_, _, rfl⟩) _ false .reject ?_
  exact .inl (by decide +kernel)

/-- A key repeated in a nested object, and one repeated under an escape, pass. -/
theorem knockWithOptions_duplicate_passes :
    ((docWith nestedMembers).value.HasDuplicate ∧
      knockWithOptions (docEnv (docWith nestedMembers) (bodyWith [("x", .object lastValue)]))
        (docWith nestedMembers).render false .reject = .ok (bodyWith [("x", .object lastValue)])) ∧
    ((docWith escapedMembers).value.HasDuplicate ∧
      knockWithOptions (docEnv (docWith escapedMembers) (bodyWith lastValue))
        (docWith escapedMembers).render false .reject = .ok (bodyWith lastValue)) := by
  refine ⟨⟨?_, by with_unfolding_all rfl⟩, ⟨?_, by with_unfolding_all rfl⟩⟩
  · exact .inr (.inr (.inr (.inl (.inl (by decide +kernel)))))
  · exact .inl (by decide +kernel)

end Ubl.Knock
