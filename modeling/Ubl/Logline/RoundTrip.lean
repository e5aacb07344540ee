import Ubl.Logline.Writing

/-!
# A document written with quotes is read back

With `quote_strings` every value is a string in quotes, a numeral, a word, or a container of
such values.  `valueKinds` is how it is read token by token, and `readBack` the value that the
parser makes of these tokens.  They differ from the value in its numbers only, which are equal
as numbers: `-0.0` is written `0`.
-/

namespace Ubl.Logline

open ExceptLemmas Fueled

variable {std : RustStd}

/-- What holds of the values in a container holds of the container. -/
theorem LogLineValue.nested {P : LogLineValue → Prop} (str : ∀ s, P (.str s)) (num : ∀ n, P (.num n))
    (bool : ∀ b, P (.bool b)) (list : ∀ items, (∀ v ∈ items, P v) → P (.list items))
    (object : ∀ fields, (∀ p ∈ fields, P p.2) → P (.object fields)) (v : LogLineValue) : P v :=
  @LogLineValue.rec P (fun items => ∀ v ∈ items, P v) (fun fields => ∀ p ∈ fields, P p.2)
    (fun p => P p.2)
    str num bool list object (List.forall_mem_nil _)
    (fun _ _ h ih => List.forall_mem_cons.mpr ⟨h, ih⟩) (List.forall_mem_nil _)
    (fun _ _ h ih => List.forall_mem_cons.mpr ⟨h, ih⟩) (fun _ _ h => h) v

/-! ## What is written -/

/-- An integer that a numeral gives exactly. -/
def IsInteger (n : F64) : Prop :=
  f64IsFinite n ∧ ∃ i : Int, i.natAbs ≤ 2 ^ 53 ∧ Unc1.exactF64Rational n = i

mutual

/-- A value inside `depth` containers: its numbers are integers, its keys are keys, and no value
in it is too deep. -/
def Writable (depth : Nat) : LogLineValue → Prop
  | .str _ | .bool _ => depth ≤ maxNestingDepth
  | .num n => depth ≤ maxNestingDepth ∧ IsInteger n
  | .list items => depth ≤ maxNestingDepth ∧ WritableItems (depth + 1) items
  | .object fields => depth ≤ maxNestingDepth ∧ WritableFields (depth + 1) fields

def WritableItems (depth : Nat) : List LogLineValue → Prop
  | [] => True
  | v :: items => Writable depth v ∧ WritableItems depth items

def WritableFields (depth : Nat) : List (String × LogLineValue) → Prop
  | [] => True
  | (key, v) :: fields => IsKey key ∧ Writable depth v ∧ WritableFields depth fields

end

theorem Writable.depth_le {depth : Nat} {v : LogLineValue} (h : Writable depth v) :
    ¬ maxNestingDepth < depth := by
  cases v <;> simp only [Writable] at h <;> omega

theorem writableItems_iff {depth : Nat} {items : List LogLineValue} :
    WritableItems depth items ↔ ∀ v ∈ items, Writable depth v := by
  induction items with
  | nil => simp [WritableItems]
  | cons v items ih => simp [WritableItems, ih]

theorem writableFields_iff {depth : Nat} {fields : List (String × LogLineValue)} :
    WritableFields depth fields ↔ ∀ p ∈ fields, IsKey p.1 ∧ Writable depth p.2 := by
  induction fields with
  | nil => simp [WritableFields]
  | cons p fields ih => simp [WritableFields, ih, and_assoc]

section Kinds

variable (std : RustStd)

/-- The number that the numeral of `n` is read as. -/
def numBack (n : F64) : F64 := (std.parseF64 (String.ofList (serializeNum std n))).getD n

mutual

def readBack : LogLineValue → LogLineValue
  | .str s => .str s
  | .num n => .num (numBack std n)
  | .bool b => .bool b
  | .list items => .list (itemsBack items)
  | .object fields => .object (fieldsBack fields)

def itemsBack : List LogLineValue → List LogLineValue
  | [] => []
  | v :: items => readBack v :: itemsBack items

def fieldsBack : List (String × LogLineValue) → List (String × LogLineValue)
  | [] => []
  | (key, v) :: fields => (key, readBack v) :: fieldsBack fields

end

mutual

/-- The tokens of a value that is written at `depth`. -/
def valueKinds (depth : Nat) : LogLineValue → List TokenKind
  | .str s => [.string s]
  | .num n => [.number (numBack std n)]
  | .bool b => [.boolean b]
  | .list items => .leftBracket :: (itemKinds depth items ++ [.rightBracket])
  | .object fields =>
    .leftBrace :: .newline :: (fieldKinds depth fields ++ [.indent (2 * depth), .rightBrace])

def itemKinds (depth : Nat) : List LogLineValue → List TokenKind
  | [] => []
  | v :: items => valueKinds (depth + 1) v ++ moreKinds depth items

def moreKinds (depth : Nat) : List LogLineValue → List TokenKind
  | [] => []
  | v :: items => .comma :: (valueKinds (depth + 1) v ++ moreKinds depth items)

def fieldKinds (depth : Nat) : List (String × LogLineValue) → List TokenKind
  | [] => []
  | (key, v) :: fields =>
    lineKinds (2 * (depth + 1)) key (valueKinds (depth + 1) v) ++ fieldKinds depth fields

end

end Kinds

/-- A numeral is read as an equal number. -/
theorem serializeNum_integer {n : F64} (h : IsInteger n) :
    ∃ i : Int, serializeNum std n = (toString i).toList ∧
      std.parseF64 (toString i) = some (numBack std n) ∧ F64.eq (numBack std n) n := by
  obtain ⟨hfinite, i, hi, hn⟩ := h
  obtain ⟨n', hparse, hfinite', hn'⟩ := std.parseF64_int i hi
  have hbound : -(2 ^ 63 : Int) ≤ i ∧ i ≤ 2 ^ 63 - 1 := by omega
  have hnum : serializeNum std n = (toString i).toList := by
    have hcast : F64.asI64 n = some i := by
      simp only [F64.asI64, hfinite, hn, Rat.den_intCast, Rat.num_intCast, Bool.true_and,
        Bool.and_eq_true, decide_eq_true_eq, true_and]
      rw [if_pos ⟨hbound.1, by omega⟩, min_eq_left hbound.2]
    rw [serializeNum, hcast]
  have hback : numBack std n = n' := by
    rw [numBack, hnum, String.ofList_toList, hparse, Option.getD_some]
  refine ⟨i, hnum, hback ▸ hparse, ?_⟩
  simp [F64.eq, hback, hfinite, hfinite', hn, hn']

/-! ## Reading it, token by token -/

/-- Neither a word nor a number goes on there. -/
def Ends (std : RustStd) (cs : List Char) : Prop :=
  StopsAt (fun c => isIdentifierChar std c || c = '.') cs

theorem ends_cons {c : Char} (h : isStructural c) (cs : List Char) : Ends std (c :: cs) := by
  intro d hd
  have hident := @stopsAt_structural std _ h cs d hd
  obtain rfl := Option.some.inj hd
  have hdot : c ≠ '.' := by
    rintro rfl
    cases h
  simp [hident, hdot]

/-- The text is read as these tokens, in front of whatever ends it. -/
def ReadsOut (std : RustStd) (text : List Char) (kinds : List TokenKind) : Prop :=
  ∀ cs, Ends std cs → Reads std false (text ++ cs) kinds false cs

theorem ReadsOut.readsAs {text : List Char} {kinds : List TokenKind} (h : ReadsOut std text kinds) :
    ReadsAs std text kinds := fun _ => (h _ (ends_cons rfl _)).append reads_newline

theorem wordKind_bool (b : Bool) : wordKind std (displayBool b) = .boolean b := by
  have hupper : ∀ cs : List Char, (∀ c ∈ cs, c.toNat < 128) →
      std.strToUppercase (String.ofList cs) = String.ofList (cs.map Char.toUpper) := by
    intro cs hcs
    rw [← String.toList_inj, toList_strToUppercase hcs, String.toList_ofList]
  unfold wordKind
  cases b
  · rw [show displayBool false = String.ofList ['f', 'a', 'l', 's', 'e'] by decide,
      hupper _ (by simp)]
    rfl
  · rw [show displayBool true = String.ofList ['t', 'r', 'u', 'e'] by decide, hupper _ (by simp)]
    rfl

theorem isIdentifier_bool (b : Bool) : IsIdentifier std (displayBool b).toList := by
  cases b <;> exact isIdentifier_letters (by simp [displayBool]) (by simp [displayBool])

theorem readsOut_str (s : String) : ReadsOut std (serializeText true s) [.string s] := by
  intro cs _
  have htext : serializeText true s ++ cs = '"' :: escapeString s.toList ++ '"' :: cs := by
    simp [serializeText]
  have hlex := @lexes_string std s.toList cs
  rw [String.ofList_toList] at hlex
  rw [htext]
  exact .one (by simp) hlex

theorem readsOut_num {n : F64} (h : IsInteger n) :
    ReadsOut std (serializeNum std n) [.number (numBack std n)] := by
  intro cs hcs
  obtain ⟨i, hnum, hparse, -⟩ := @serializeNum_integer std _ h
  rw [hnum]
  refine .one (by simp) (lexes_int hparse fun c hc => ?_)
  have := hcs c hc
  simp only [isIdentifierChar, RustStd.isAlphanumeric, Bool.or_eq_false_iff] at this ⊢
  exact ⟨this.1.1.1.2, this.2⟩

theorem readsOut_bool (b : Bool) : ReadsOut std (displayBool b).toList [.boolean b] := by
  intro cs hcs
  have hlex := @lexes_word std _ cs (isIdentifier_bool b) fun c hc => by
    have := hcs c hc
    rw [Bool.or_eq_false_iff] at this
    exact this.1
  rw [String.ofList_toList, wordKind_bool] at hlex
  exact .one (by simp) hlex

/-- A value begins with a token that can start one. -/
theorem valueKinds_eq_cons (depth : Nat) (v : LogLineValue) :
    ∃ kind kinds, valueKinds std depth v = kind :: kinds ∧ kind.isValueStart := by
  cases v <;> exact ⟨_, _, by rw [valueKinds], rfl⟩

theorem valueKinds_ne_nil (depth : Nat) (v : LogLineValue) : valueKinds std depth v ≠ [] := by
  obtain ⟨kind, kinds, h, -⟩ := @valueKinds_eq_cons std depth v
  rw [h]
  exact List.cons_ne_nil _ _

section Containers

variable {depth : Nat} {items : List LogLineValue} {fields : List (String × LogLineValue)}

/-- What stands behind the items ends the last of them. -/
theorem ends_moreItems (cs : List Char) :
    Ends std (serializeMoreItems std (written true) depth items ++ ']' :: cs) := by
  cases items with
  | nil => exact ends_cons rfl _
  | cons item items => exact ends_cons rfl _

theorem reads_moreItems (h : ∀ v ∈ items, ReadsOut std
      (serializeValue std (written true) (depth + 1) v) (valueKinds std (depth + 1) v))
    (cs : List Char) :
    Reads std false (serializeMoreItems std (written true) depth items ++ ']' :: cs)
      (moreKinds std depth items) false (']' :: cs) := by
  induction items with
  | nil => exact .nil _ _
  | cons v items ih =>
    have hitem := (h v List.mem_cons_self _ (ends_moreItems cs)).append
      (ih fun v hv => h v (List.mem_cons_of_mem _ hv))
    have hspace := hitem.space (by simp [valueKinds_ne_nil])
    rw [serializeMoreItems, moreKinds]
    simp only [List.cons_append, List.nil_append, List.append_assoc]
    exact .cons (by simp) (lexes_punctuation rfl _) hspace

theorem readsOut_list (h : ∀ v ∈ items, ReadsOut std
      (serializeValue std (written true) (depth + 1) v) (valueKinds std (depth + 1) v)) :
    ReadsOut std (serializeValue std (written true) depth (.list items))
      (valueKinds std depth (.list items)) := by
  intro cs _
  have hclose : Reads std false (']' :: cs) [.rightBracket] false cs :=
    .one (by simp) (lexes_punctuation rfl cs)
  rw [serializeValue, valueKinds]
  simp only [List.cons_append, List.append_assoc, List.nil_append]
  refine .cons (by simp) (lexes_punctuation rfl _) ?_
  cases items with
  | nil => exact hclose
  | cons v items =>
    have hmore := reads_moreItems (fun v hv => h v (List.mem_cons_of_mem _ hv)) cs
    have hitems := (h v List.mem_cons_self _ (ends_moreItems cs)).append hmore
    rw [serializeItems, itemKinds, List.append_assoc]
    exact hitems.append hclose

/-- The lines of the fields. -/
theorem reads_fields (hkeys : ∀ p ∈ fields, IsKey p.1) (h : ∀ p ∈ fields, ReadsOut std
      (serializeValue std (written true) (depth + 1) p.2) (valueKinds std (depth + 1) p.2))
    (cs : List Char) :
    Reads std true (serializeFields std (written true) depth fields ++ cs)
      (fieldKinds std depth fields) true cs := by
  induction fields with
  | nil => exact .nil _ _
  | cons p fields ih =>
    obtain ⟨key, value⟩ := p
    have hkey : IsKey key := hkeys _ List.mem_cons_self
    have hrest := ih (fun p hp => hkeys p (List.mem_cons_of_mem _ hp))
      fun p hp => h p (List.mem_cons_of_mem _ hp)
    have hline := reads_line (n := 2 * (depth + 1)) (by omega) hkey
      (h _ List.mem_cons_self).readsAs hrest
    rw [serializeFields, fieldKinds, indentBy_written, serializeKeyword_written hkey]
    simpa using hline

theorem readsOut_object (hdepth : 0 < depth) (hkeys : ∀ p ∈ fields, IsKey p.1)
    (h : ∀ p ∈ fields, ReadsOut std
      (serializeValue std (written true) (depth + 1) p.2) (valueKinds std (depth + 1) p.2)) :
    ReadsOut std (serializeValue std (written true) depth (.object fields))
      (valueKinds std depth (.object fields)) := by
  intro cs _
  have hclose : Reads std false ('}' :: cs) [.rightBrace] false cs :=
    .one (by simp) (lexes_punctuation rfl cs)
  have hindent := @lexes_indent std (2 * depth) (by omega) '}' (by decide) cs
  have hfields := (reads_fields hkeys h (List.replicate (2 * depth) ' ' ++ '}' :: cs)).append
    (.cons (by simp) hindent hclose)
  rw [serializeValue, valueKinds, indentBy_written]
  simp only [List.cons_append, List.append_assoc, List.nil_append]
  exact .cons (by simp) (lexes_punctuation rfl _)
    (.cons (by simp) (lexes_punctuation rfl _) hfields)

end Containers

theorem readsOut_value (v : LogLineValue) : ∀ {k depth : Nat}, Writable k v → 0 < depth →
    ReadsOut std (serializeValue std (written true) depth v) (valueKinds std depth v) := by
  induction v using LogLineValue.nested with
  | str s => intro k depth _ _; exact readsOut_str s
  | num n => intro k depth hw _; exact readsOut_num hw.2
  | bool b => intro k depth _ _; exact readsOut_bool b
  | list items ih =>
    intro k depth hw _
    have hitems := writableItems_iff.mp hw.2
    exact readsOut_list fun v hv => ih v hv (hitems v hv) (Nat.succ_pos _)
  | object fields ih =>
    intro k depth hw hdepth
    have hfields := writableFields_iff.mp hw.2
    exact readsOut_object hdepth (fun p hp => (hfields p hp).1)
      fun p hp => ih p hp (hfields p hp).2 (Nat.succ_pos _)

/-! ## Parsing the tokens -/

theorem skipWhitespace_valueStart {token : Token} (h : token.kind.isValueStart)
    (tokens : List Token) : skipWhitespace (token :: tokens) = token :: tokens := by
  obtain ⟨kind, span⟩ := token
  cases kind <;> first | rfl | cases h

theorem parsesAs_plain {k : Nat} {kind : TokenKind} {value : LogLineValue}
    (hk : ¬ maxNestingDepth < k) (hbrace : kind ≠ .leftBrace) (hbracket : kind ≠ .leftBracket)
    (h : ∀ span tokens, parsePlain std (⟨kind, span⟩ :: tokens) = (value, tokens)) :
    ParsesAs std k [kind] value := by
  intro tail tokens rest htokens
  obtain ⟨span, tokens, rfl, hnil⟩ := htokens.cons
  obtain rfl := List.map_eq_nil_iff.mp hnil
  refine (Settles.const _).succ fun fuel => ?_
  rw [← h span rest]
  refine parseValue_plain hk ?_ ?_
  · exact fun heq => hbrace (Option.some.inj heq)
  · exact fun heq => hbracket (Option.some.inj heq)

section Containers

variable {k depth : Nat} {items : List LogLineValue} {fields : List (String × LogLineValue)}

/-- The items up to the closing bracket. -/
theorem arrayLoop_settles (tail : Position)
    (h : ∀ v ∈ items, ParsesAs std k (valueKinds std (depth + 1) v) (readBack std v))
    {tokens rest : List Token} {close : Span} (htokens : OfKinds tokens (itemKinds std depth items)) :
    Settles (fun fuel => arrayLoop std tail fuel k (tokens ++ ⟨.rightBracket, close⟩ :: rest))
      (.ok (itemsBack std items, rest)) := by
  induction items generalizing tokens with
  | nil =>
    obtain rfl := List.map_eq_nil_iff.mp htokens
    exact (Settles.const _).succ fun _ => arrayLoop_close rfl
  | cons v items ih =>
    rw [itemKinds] at htokens
    obtain ⟨tsv, ts, rfl, hv, hmore⟩ := htokens.append
    -- behind the item stands a comma and the next, or the bracket
    obtain ⟨ts', hcomma, hitems⟩ : ∃ ts', optionalComma (ts ++ ⟨.rightBracket, close⟩ :: rest) =
        ts' ++ ⟨.rightBracket, close⟩ :: rest ∧ OfKinds ts' (itemKinds std depth items) := by
      cases items with
      | nil =>
        obtain rfl := List.map_eq_nil_iff.mp hmore
        exact ⟨[], rfl, rfl⟩
      | cons w items =>
        obtain ⟨comma, ts', rfl, hitems⟩ := OfKinds.cons hmore
        exact ⟨ts', rfl, hitems⟩
    have hitem := h v List.mem_cons_self tail tsv (ts ++ ⟨.rightBracket, close⟩ :: rest) hv
    have hloop := ih (fun v hv => h v (List.mem_cons_of_mem _ hv)) hitems
    rw [← hcomma] at hloop
    have hturn := hitem.bind (F := fun fuel p =>
      arrayLoop std tail fuel k (optionalComma p.2) >>= fun q => .ok (p.1 :: q.1, q.2))
      (hloop.bind (.const _))
    obtain ⟨kind, kinds, hkinds, hstart⟩ := @valueKinds_eq_cons std (depth + 1) v
    obtain ⟨span, tsv', rfl, -⟩ := OfKinds.cons (hkinds ▸ hv)
    rw [List.append_assoc]
    exact hturn.succ fun fuel => arrayLoop_item (skipWhitespace_valueStart hstart _) hstart

theorem parsesAs_list (hk : ¬ maxNestingDepth < k)
    (h : ∀ v ∈ items, ParsesAs std (k + 1) (valueKinds std (depth + 1) v) (readBack std v)) :
    ParsesAs std k (valueKinds std depth (.list items)) (readBack std (.list items)) := by
  intro tail tokens rest htokens
  rw [valueKinds] at htokens
  obtain ⟨bracket, ts, rfl, hbody⟩ := htokens.cons
  obtain ⟨tsi, tsc, rfl, hitems, hclose⟩ := hbody.append
  obtain ⟨close, tsn, rfl, hnil⟩ := hclose.cons
  obtain rfl := List.map_eq_nil_iff.mp hnil
  have hloop := @arrayLoop_settles std _ _ _ tail h _ rest close hitems
  have harray : Settles (fun fuel => parseArray std tail fuel (k + 1)
      (⟨.leftBracket, bracket⟩ :: (tsi ++ ⟨.rightBracket, close⟩ :: rest)))
      (.ok (itemsBack std items, rest)) := hloop.succ fun _ => rfl
  have hlist := harray.bind (F := fun _ p => .ok (LogLineValue.list p.1, p.2)) (.const _)
  rw [List.cons_append, List.append_assoc, List.singleton_append]
  exact hlist.succ fun fuel => parseValue_leftBracket hk

theorem skipWhitespace_optionalComma {tokens : List Token}
    (h : currentKind (skipWhitespace tokens) ≠ some .comma) :
    skipWhitespace (optionalComma tokens) = skipWhitespace tokens := by
  have hcomma : optionalComma tokens = skipWhitespace tokens := by
    unfold optionalComma
    dsimp only
    split
    · next heq => exact absurd heq h
    · rfl
  rw [hcomma]
  exact List.dropWhile_idempotent _ _

/-- No comma stands between fields. -/
theorem currentKind_fields {tokens rest : List Token} {n : Nat} {newline indent close : Span}
    (htokens : OfKinds tokens (fieldKinds std depth fields)) :
    currentKind (skipWhitespace (⟨.newline, newline⟩ ::
      (tokens ++ ⟨.indent n, indent⟩ :: ⟨.rightBrace, close⟩ :: rest))) ≠ some .comma := by
  cases fields with
  | nil =>
    obtain rfl := List.map_eq_nil_iff.mp htokens
    exact fun heq : some TokenKind.rightBrace = some .comma => by cases heq
  | cons p fields =>
    rw [fieldKinds, lineKinds] at htokens
    simp only [List.cons_append, List.append_assoc] at htokens
    obtain ⟨indent', ts₁, rfl, h₁⟩ := htokens.cons
    obtain ⟨word, ts₂, rfl, -⟩ := h₁.cons
    exact fun heq : some (TokenKind.identifier _) = some .comma => by cases heq

/-- The lines of the fields up to the closing brace; where the loop stands in front of them makes
no difference. -/
theorem objectLoop_settles (tail : Position) (hkeys : ∀ p ∈ fields, IsKey p.1)
    (h : ∀ p ∈ fields, ParsesAs std k (valueKinds std (depth + 1) p.2) (readBack std p.2))
    {tokens rest before : List Token} {close : Span} {n : Nat} {indent : Span}
    (htokens : OfKinds tokens (fieldKinds std depth fields))
    (hbefore : skipWhitespace before =
      skipWhitespace (tokens ++ ⟨.indent n, indent⟩ :: ⟨.rightBrace, close⟩ :: rest)) :
    Settles (fun fuel => objectLoop std tail fuel k before) (.ok (fieldsBack std fields, rest)) := by
  induction fields generalizing tokens before with
  | nil =>
    obtain rfl := List.map_eq_nil_iff.mp htokens
    exact (Settles.const _).succ fun _ => objectLoop_close hbefore
  | cons p fields ih =>
    obtain ⟨key, value⟩ := p
    have hkey : IsKey key := hkeys _ List.mem_cons_self
    rw [fieldKinds, lineKinds] at htokens
    simp only [List.cons_append, List.nil_append, List.append_assoc] at htokens
    obtain ⟨indent', ts₁, rfl, h₁⟩ := htokens.cons
    obtain ⟨word, ts₂, rfl, h₂⟩ := h₁.cons
    obtain ⟨colon, ts₃, rfl, h₃⟩ := h₂.cons
    obtain ⟨tsv, ts₄, rfl, hvalue, h₄⟩ := h₃.append
    obtain ⟨newline, ts₅, rfl, h₅⟩ := h₄.cons
    set behind := ⟨.newline, newline⟩ ::
      (ts₅ ++ ⟨.indent n, indent⟩ :: ⟨.rightBrace, close⟩ :: rest) with hbehind
    have hfield := @parseParam_settles std tail _ key hkey _ _ behind word colon
      (h _ List.mem_cons_self tail tsv behind hvalue)
    have hnext : skipWhitespace (optionalComma behind) =
        skipWhitespace (ts₅ ++ ⟨.indent n, indent⟩ :: ⟨.rightBrace, close⟩ :: rest) :=
      skipWhitespace_optionalComma (currentKind_fields h₅)
    have hloop := ih (fun p hp => hkeys p (List.mem_cons_of_mem _ hp))
      (fun p hp => h p (List.mem_cons_of_mem _ hp)) h₅ hnext
    have hturn := hfield.bind (F := fun fuel p =>
      objectLoop std tail fuel k (optionalComma p.2) >>= fun q => .ok (p.1 :: q.1, q.2))
      (hloop.bind (.const _))
    refine hturn.succ fun fuel => objectLoop_field (hbefore.trans ?_)
    rw [hbehind]
    simp only [List.cons_append, List.append_assoc]
    rfl

theorem parsesAs_object (hk : ¬ maxNestingDepth < k) (hkeys : ∀ p ∈ fields, IsKey p.1)
    (h : ∀ p ∈ fields, ParsesAs std (k + 1) (valueKinds std (depth + 1) p.2) (readBack std p.2)) :
    ParsesAs std k (valueKinds std depth (.object fields)) (readBack std (.object fields)) := by
  intro tail tokens rest htokens
  rw [valueKinds] at htokens
  obtain ⟨brace, ts₁, rfl, h₁⟩ := htokens.cons
  obtain ⟨newline, ts₂, rfl, h₂⟩ := h₁.cons
  obtain ⟨tsf, ts₃, rfl, hfields, h₃⟩ := h₂.append
  obtain ⟨indent, ts₄, rfl, h₄⟩ := h₃.cons
  obtain ⟨close, ts₅, rfl, hnil⟩ := h₄.cons
  obtain rfl := List.map_eq_nil_iff.mp hnil
  have hloop := @objectLoop_settles std _ _ _ tail hkeys h tsf rest
    (⟨.newline, newline⟩ :: (tsf ++ ⟨.indent (2 * depth), indent⟩ :: ⟨.rightBrace, close⟩ :: rest))
    close _ indent hfields rfl
  have hobject : Settles (fun fuel => parseObject std tail fuel (k + 1)
      (⟨.leftBrace, brace⟩ :: ⟨.newline, newline⟩ ::
        (tsf ++ ⟨.indent (2 * depth), indent⟩ :: ⟨.rightBrace, close⟩ :: rest)))
      (.ok (fieldsBack std fields, rest)) := hloop.succ fun _ => rfl
  have hvalue := hobject.bind (F := fun _ p => .ok (LogLineValue.object p.1, p.2)) (.const _)
  simp only [List.cons_append, List.append_assoc, List.nil_append]
  exact hvalue.succ fun fuel => parseValue_leftBrace hk

end Containers

theorem parsesAs_value (v : LogLineValue) : ∀ {k depth : Nat}, Writable k v →
    ParsesAs std k (valueKinds std depth v) (readBack std v) := by
  induction v using LogLineValue.nested with
  | str s =>
    intro k depth hw
    exact parsesAs_plain hw.depth_le (by simp) (by simp) fun _ _ => rfl
  | num n =>
    intro k depth hw
    exact parsesAs_plain hw.depth_le (by simp) (by simp) fun _ _ => rfl
  | bool b =>
    intro k depth hw
    exact parsesAs_plain hw.depth_le (by simp) (by simp) fun _ _ => rfl
  | list items ih =>
    intro k depth hw
    have hitems := writableItems_iff.mp hw.2
    exact parsesAs_list hw.depth_le fun v hv => ih v hv (hitems v hv)
  | object fields ih =>
    intro k depth hw
    have hfields := writableFields_iff.mp hw.2
    exact parsesAs_object hw.depth_le (fun p hp => (hfields p hp).1)
      fun p hp => ih p hp (hfields p hp).2

theorem itemsBack_eq {items : List LogLineValue} (h : ∀ v ∈ items, (readBack std v).eq v) :
    itemsEq (itemsBack std items) items := by
  induction items with
  | nil => rfl
  | cons v items ih =>
    rw [itemsBack, itemsEq, Bool.and_eq_true]
    exact ⟨h v List.mem_cons_self, ih fun v hv => h v (List.mem_cons_of_mem _ hv)⟩

theorem fieldsBack_eq {fields : List (String × LogLineValue)}
    (h : ∀ p ∈ fields, (readBack std p.2).eq p.2) :
    fieldsEq (fieldsBack std fields) fields := by
  induction fields with
  | nil => rfl
  | cons p fields ih =>
    rw [fieldsBack, fieldsEq, Bool.and_eq_true, Bool.and_eq_true]
    exact ⟨⟨decide_eq_true rfl, h p List.mem_cons_self⟩,
      ih fun p hp => h p (List.mem_cons_of_mem _ hp)⟩

/-- Only the numbers differ, and they are equal. -/
theorem readBack_eq (v : LogLineValue) : ∀ {k : Nat}, Writable k v → (readBack std v).eq v := by
  induction v using LogLineValue.nested with
  | str s => intro k _; simp [readBack, LogLineValue.eq]
  | num n =>
    intro k hw
    obtain ⟨-, -, -, heq⟩ := @serializeNum_integer std _ hw.2
    rwa [readBack, LogLineValue.eq]
  | bool b => intro k _; simp [readBack, LogLineValue.eq]
  | list items ih =>
    intro k hw
    have hitems := writableItems_iff.mp hw.2
    rw [readBack, LogLineValue.eq]
    exact itemsBack_eq fun v hv => ih v hv (hitems v hv)
  | object fields ih =>
    intro k hw
    have hfields := writableFields_iff.mp hw.2
    rw [readBack, LogLineValue.eq]
    exact fieldsBack_eq fun p hp => ih p hp (hfields p hp).2

/-! ## Names -/

/-- No name, a word that is not one of the three, or a name that is written in quotes. -/
def NameWritable (std : RustStd) : Option String → Prop
  | none => True
  | some name => needsQuoting name.toList ∨
      IsIdentifier std name.toList ∧ std.strToUppercase name ∉ ["END", "TRUE", "FALSE"]

theorem wordKind_identifier {s : String} (h : std.strToUppercase s ∉ ["END", "TRUE", "FALSE"]) :
    wordKind std s = .identifier s := by
  unfold wordKind
  split
  · next heq => exact absurd heq (by rintro heq; simp [heq] at h)
  · next heq => exact absurd heq (by rintro heq; simp [heq] at h)
  · next heq => exact absurd heq (by rintro heq; simp [heq] at h)
  · rfl

/-- A word is written as it is. -/
theorem needsQuoting_identifier {w : List Char} (h : IsIdentifier std w) :
    needsQuoting w = false := by
  obtain ⟨⟨c, hc, -⟩, hchars⟩ := h
  have hspecial : ∀ c ∈ w, isSpecial c = false := by
    intro c hc
    have hident := hchars c hc
    by_contra hne
    simp only [Bool.not_eq_false, isSpecial, Bool.or_eq_true, decide_eq_true_eq] at hne
    rcases hne with ((((((((rfl | rfl) | rfl) | rfl) | rfl) | rfl) | rfl) | rfl) | rfl) | rfl <;>
      simp [isIdentifierChar, RustStd.isAlphanumeric, std.isAlphabetic_ascii,
        std.isNumeric_ascii] at hident
  have hne : w ≠ [] := by
    rintro rfl
    cases hc
  simpa [needsQuoting, hne] using hspecial

/-- How such a name is read and parsed. -/
theorem name_readBack {name : Option String} (h : NameWritable std name) :
    ∃ kinds, ReadsAs std (serializeName name) kinds ∧ NamedAs std kinds name := by
  cases name with
  | none =>
    refine ⟨[], fun cs => reads_newline, fun tokens rest span htokens => ?_⟩
    obtain rfl := List.map_eq_nil_iff.mp htokens
    rfl
  | some name =>
    rcases h with hquoted | ⟨hident, hword⟩
    · refine ⟨[.string name], fun cs => ?_, fun tokens rest span htokens => ?_⟩
      · have htext : serializeText false name = serializeText true name := by
          simp [serializeText, hquoted]
        rw [serializeName, htext]
        exact ((readsOut_str name).readsAs cs).space (by simp)
      · obtain ⟨span', tokens, rfl, hnil⟩ := htokens.cons
        obtain rfl := List.map_eq_nil_iff.mp hnil
        rfl
    · refine ⟨[.identifier name], fun cs => ?_, fun tokens rest span htokens => ?_⟩
      · have htext : serializeText false name = name.toList := by
          simp [serializeText, needsQuoting_identifier hident]
        have hlex := lexes_word hident (stopsAt_structural (c := '\n') rfl cs)
        rw [String.ofList_toList, wordKind_identifier hword] at hlex
        rw [serializeName, htext]
        exact (Reads.cons (by simp) hlex reads_newline).space (by simp)
      · obtain ⟨span', tokens, rfl, hnil⟩ := htokens.cons
        obtain rfl := List.map_eq_nil_iff.mp hnil
        rfl

/-! ## Documents -/

/-- What is written with `quote_strings` is read back: the same type, name and params. -/
theorem serialize_parse_quoted (std : RustStd) (span : LogLineSpan) (htype : IsKey span.type)
    (hname : NameWritable std span.name)
    (hparams : ∀ p ∈ span.params, IsKey p.1 ∧ Writable 0 p.2) :
    ∃ span', Settles
        (fun fuel => parseLogline std fuel (serializeWithOptions std (written true) span))
        (.ok span') ∧ span'.SameContent span := by
  obtain ⟨kinds, hreads, hnamed⟩ := name_readBack hname
  obtain ⟨position, hparse⟩ := @parseLogline_settles std true span kinds _ (valueKinds std 1)
    (readBack std) htype (fun p hp => (hparams p hp).1) hreads hnamed
    (fun p hp => (readsOut_value p.2 (hparams p hp).2 Nat.one_pos).readsAs)
    fun p hp => (parsesAs_value p.2 (hparams p hp).2).parsesLine
  have hfields : fieldsEq (span.params.map (Prod.map id (readBack std))) span.params := by
    have hmap : fieldsBack std span.params = span.params.map (Prod.map id (readBack std)) := by
      induction span.params with
      | nil => rfl
      | cons p params ih => rw [fieldsBack, ih]; rfl
    rw [← hmap]
    exact fieldsBack_eq fun p hp => readBack_eq p.2 (hparams p hp).2
  exact ⟨_, hparse, rfl, rfl, hfields⟩

/-- Quotes, line ends, a repeated key and containers that are empty. -/
theorem serialize_parse_quoted_sample :
    let span : LogLineSpan := ⟨"task", some "two \"words\"", [("title", .str "a: b\nEND"),
      ("count", .num (F64.ofInt (-3))), ("tags", .list [.str "", .list [], .bool false]),
      ("meta", .object [("k", .str "v"), ("k", .object [])])], none⟩
    ∃ span', Settles (fun fuel => parseLogline .ascii fuel
        (serializeWithOptions .ascii (written true) span)) (.ok span') ∧
      span'.SameContent span := by
  intro span
  have hkeys : ∀ key ∈ ["task", "title", "count", "tags", "meta", "k"], IsKey key := by
    simp only [List.forall_mem_cons, List.not_mem_nil, false_implies, implies_true, and_true]
    refine ⟨?_, ?_, ?_, ?_, ?_, ?_⟩ <;> exact ⟨by simp, by simp [isKeyChar], by simp⟩
  have hinteger : IsInteger (F64.ofInt (-3)) := by
    obtain ⟨hfinite, hvalue⟩ := F64.ofInt_spec (i := -3) (by decide)
    exact ⟨hfinite, -3, by decide, hvalue⟩
  refine serialize_parse_quoted .ascii span (hkeys "task" (by simp)) (.inl (by decide)) ?_
  simp [span, Writable, WritableItems, WritableFields, maxNestingDepth, hinteger, hkeys]

end Ubl.Logline
