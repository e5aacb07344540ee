import Ubl.Logline.Lexing
import Ubl.Logline.Progress

/-!
# The spans of the tokens

A caller may go on calling `next_token`, after an error too, so a run of calls is a walk along
`leftBy`: what a call leaves unread, whatever it returns.  Each call takes characters or has
come to the end.  Offsets count characters and an indentation counts columns, four for a tab;
their difference is where the span of an indentation starts, and it is right exactly where no
tab is among the blanks (`spansInOrder_iff`).
-/

namespace Ubl.Logline

open ExceptLemmas

/-! ## What a call leaves -/

/-- `read_string` behind the opening quote. -/
def leftByString : List Char → Cursor → Tokenizer
  | [], cur => ⟨[], cur⟩
  | '"' :: rest, cur => ⟨rest, cur.advance '"'⟩
  | ['\\'], cur => ⟨[], cur.advance '\\'⟩
  | '\\' :: esc :: rest, cur =>
    match unescape esc with
    | none => ⟨esc :: rest, cur.advance '\\'⟩
    | some _ => leftByString rest ((cur.advance '\\').advance esc)
  | '\n' :: rest, cur => ⟨'\n' :: rest, cur⟩
  | ch :: rest, cur => leftByString rest (cur.advance ch)

section Calls

variable (std : RustStd)

def leftByToken (t : Tokenizer) : Tokenizer :=
  match t.rest with
  | [] => t
  | ch :: rest =>
    match punctuation ch with
    | some _ => ⟨rest, t.cursor.advance ch⟩
    | none =>
      if ch = '"' then leftByString rest (t.cursor.advance ch)
      else if startsNumber std t.rest then
        let (cs, rest) := numberChars std t.rest
        ⟨rest, t.cursor.advanceAll cs⟩
      else if startsWord std ch then (t.readWhile (isIdentifierChar std)).2
      else (readUnquotedValue t).2

/-- The tokenizer behind a call of `next_token`, which may have returned an error. -/
def leftBy (t : Tokenizer) : Tokenizer :=
  if t.cursor.atLineStart then
    let (indent, t) := t.countIndent
    match t.rest with
    | [] => leftByToken std t.skipWhitespaceExceptNewline
    | ch :: _ =>
      if ch = '\n' then leftByToken std t.skipWhitespaceExceptNewline
      else
        let t := { t with cursor := { t.cursor with atLineStart := false } }
        if 0 < indent then t else leftByToken std t.skipWhitespaceExceptNewline
  else leftByToken std t.skipWhitespaceExceptNewline

/-- A call that does not panic. -/
def Called (t u : Tokenizer) : Prop := nextToken std t ≠ .error .panic ∧ u = leftBy std t

/-- Any number of calls, one after the other. -/
def Calls : Tokenizer → Tokenizer → Prop := Relation.ReflTransGen (Called std)

def ReportsEof (t : Tokenizer) : Prop :=
  ∃ token u, nextToken std t = .ok (token, u) ∧ token.kind = .eof

/-- What the callers of the tokenizer rely on, in every run of calls over `input`. -/
structure SpansInOrder (input : String) : Prop where
  progress : ∀ t, Calls std (.new input) t →
    ReportsEof std t ∨ (leftBy std t).rest.length < t.rest.length
  noUnderflow : ∀ t, Calls std (.new input) t → ¬ tabsExceed t
  bounds : ∀ t token u, Calls std (.new input) t → nextToken std t = .ok (token, u) →
    token.span.start.offset ≤ token.span.stop.offset ∧ token.span.stop.offset ≤ input.length
  ordered : ∀ t t' token token' u u', Calls std (.new input) t → Calls std t t' →
    nextToken std t = .ok (token, u) → nextToken std t' = .ok (token', u') →
    token.span.start.offset ≤ token'.span.start.offset

end Calls

variable {std : RustStd}

/-! ## Characters taken -/

/-- `u` stands behind the characters `cs`. -/
structure Took (t : Tokenizer) (cs : List Char) (u : Tokenizer) : Prop where
  rest : t.rest = cs ++ u.rest
  cursor : u.cursor = t.cursor.advanceAll cs

theorem Took.nil (t : Tokenizer) : Took t [] t := ⟨rfl, rfl⟩

theorem Took.cons {ch : Char} {rest cs : List Char} {cur : Cursor} {u : Tokenizer}
    (h : Took ⟨rest, cur.advance ch⟩ cs u) : Took ⟨ch :: rest, cur⟩ (ch :: cs) u :=
  ⟨congrArg (ch :: ·) h.rest, h.cursor⟩

theorem Took.append {t u v : Tokenizer} {cs cs' : List Char} (h : Took t cs u)
    (h' : Took u cs' v) : Took t (cs ++ cs') v := by
  refine ⟨?_, ?_⟩
  · rw [h.rest, h'.rest, List.append_assoc]
  · rw [h'.cursor, h.cursor]
    exact List.foldl_append.symm

theorem Took.position {t u : Tokenizer} {cs : List Char} (h : Took t cs u) :
    u.cursor.position = t.cursor.position + cs.length := by
  rw [h.cursor, advanceAll_position]

/-- Only a newline begins a line. -/
theorem Took.atLineStart {t u : Tokenizer} {cs : List Char} (h : Took t cs u) (hcs : '\n' ∉ cs)
    (hu : u.cursor.atLineStart) : t.cursor.atLineStart := by
  by_contra hne
  rw [h.cursor, advanceAll_atLineStart (Bool.not_eq_true _ ▸ hne) hcs] at hu
  cases hu

theorem took_readWhile (p : Char → Bool) (t : Tokenizer) :
    Took t (t.rest.takeWhile p) (t.readWhile p).2 :=
  ⟨List.takeWhile_append_dropWhile.symm, rfl⟩

theorem took_leftByString (cs : List Char) (cur : Cursor) :
    ∃ taken, Took ⟨cs, cur⟩ taken (leftByString cs cur) ∧ '\n' ∉ taken := by
  fun_induction leftByString cs cur with
  | case1 cur => exact ⟨[], .nil _, by simp⟩
  | case2 rest cur => exact ⟨['"'], .cons (.nil _), by decide⟩
  | case3 cur => exact ⟨['\\'], .cons (.nil _), by decide⟩
  | case4 esc rest cur hesc => exact ⟨['\\'], .cons (.nil _), by decide⟩
  | case5 esc rest cur ch hesc ih =>
    obtain ⟨taken, htook, hnl⟩ := ih
    refine ⟨'\\' :: esc :: taken, .cons (.cons htook), ?_⟩
    have hne : '\n' ≠ esc := by
      rintro rfl
      cases hesc
    simp [hnl, hne]
  | case6 tail cur => exact ⟨[], .nil _, by simp⟩
  | case7 ch rest cur h1 h2 h3 h4 ih =>
    obtain ⟨taken, htook, hnl⟩ := ih
    refine ⟨ch :: taken, .cons htook, ?_⟩
    have hne : '\n' ≠ ch := by
      rintro rfl
      exact h4 rfl
    simp [hnl, hne]

/-! ## Tokens within a line -/

theorem isDelimiter_of_no_punctuation {ch : Char} (h : punctuation ch = none) :
    isDelimiter ch = false := by
  by_contra hne
  simp only [isDelimiter, Bool.not_eq_false, Bool.or_eq_true, decide_eq_true_eq] at hne
  rcases hne with ((((rfl | rfl) | rfl) | rfl) | rfl) | rfl <;> cases h

/-- A token takes the newline by itself or characters of a line, at least one. -/
theorem took_leftByToken (t : Tokenizer) :
    ∃ cs, Took t cs (leftByToken std t) ∧ (t.rest ≠ [] → cs ≠ []) ∧
      if t.rest.head? = some '\n' then cs = ['\n'] else '\n' ∉ cs := by
  obtain ⟨text, cur⟩ := t
  cases text with
  | nil => exact ⟨[], .nil _, fun h => absurd rfl h, by simp⟩
  | cons ch rest =>
    have hline (hch : ch ≠ '\n') : ¬ (ch :: rest).head? = some '\n' := by simpa using hch
    unfold leftByToken
    dsimp only
    split
    · refine ⟨[ch], .cons (.nil _), by simp, ?_⟩
      split_ifs with hch
      · simpa using hch
      · simpa [eq_comm] using hch
    · next hpunct =>
      have hch : ch ≠ '\n' := by
        rintro rfl
        cases hpunct
      simp only [if_neg (hline hch)]
      split_ifs with hquote hnumber hword
      · obtain ⟨cs, htook, hnl⟩ := took_leftByString rest (cur.advance ch)
        exact ⟨ch :: cs, .cons htook, by simp, by simp [hnl, Ne.symm hch]⟩
      · exact ⟨_, ⟨(numberChars_append _).symm, rfl⟩, fun _ => numberChars_ne_nil hnumber,
          numberChars_no_newline _⟩
      · have hident := isIdentifierChar_of_startsWord hword
        refine ⟨_, took_readWhile _ _, fun _ => ?_, @not_mem_newline std _ fun c hc => ?_⟩
        · simp [hident]
        · exact List.mem_takeWhile_imp hc
      · have hdelim := isDelimiter_of_no_punctuation hpunct
        refine ⟨_, took_readWhile _ _, fun _ => ?_, fun hmem => ?_⟩
        · simp [hdelim]
        · have hnl := List.mem_takeWhile_imp hmem
          simp [isDelimiter] at hnl

theorem readStringBody_ok {start : Position} {cs value : List Char} {cur : Cursor} {u : Tokenizer}
    (h : readStringBody start cs cur = .ok (value, u)) : u = leftByString cs cur := by
  fun_induction readStringBody start cs cur generalizing value with
  | case1 cur => cases h
  | case2 rest cur =>
    obtain ⟨-, rfl⟩ := Prod.mk.inj (Except.ok.inj h)
    rw [leftByString]
  | case3 cur => cases h
  | case4 esc rest cur hesc => cases h
  | case5 esc rest cur ch hesc ih =>
    simp only [bind_eq_ok] at h
    obtain ⟨⟨cs, v⟩, hread, h⟩ := h
    obtain ⟨-, rfl⟩ := Prod.mk.inj (Except.ok.inj h)
    rw [ih hread]
    simp only [leftByString, hesc]
  | case6 tail cur => cases h
  | case7 ch rest cur h1 h2 h3 h4 ih =>
    simp only [bind_eq_ok] at h
    obtain ⟨⟨cs, v⟩, hread, h⟩ := h
    obtain ⟨-, rfl⟩ := Prod.mk.inj (Except.ok.inj h)
    rw [ih hread, leftByString]
    all_goals assumption

/-- The span of a token goes from where it begins to what the call leaves. -/
theorem readToken_ok {t u : Tokenizer} {token : Token} (h : readToken std t = .ok (token, u)) :
    u = leftByToken std t ∧ token.span = ⟨t.cursor.here, u.cursor.here⟩ := by
  obtain ⟨text, cur⟩ := t
  unfold readToken at h
  unfold leftByToken
  cases text with
  | nil =>
    obtain ⟨rfl, rfl⟩ := Prod.mk.inj (Except.ok.inj h)
    exact ⟨rfl, rfl⟩
  | cons ch rest =>
    dsimp only at h ⊢
    cases hpunct : punctuation ch with
    | some kind =>
      simp only [hpunct] at h ⊢
      obtain ⟨rfl, rfl⟩ := Prod.mk.inj (Except.ok.inj h)
      exact ⟨rfl, rfl⟩
    | none =>
      simp only [hpunct] at h ⊢
      split_ifs at h ⊢ with hquote hnumber hword
      · simp only [bind_eq_ok] at h
        obtain ⟨⟨value, v⟩, hread, h⟩ := h
        obtain ⟨rfl, rfl⟩ := Prod.mk.inj (Except.ok.inj h)
        exact ⟨readStringBody_ok hread, rfl⟩
      · simp only [bind_eq_ok] at h
        obtain ⟨⟨value, v⟩, hread, h⟩ := h
        obtain ⟨rfl, rfl⟩ := Prod.mk.inj (Except.ok.inj h)
        refine ⟨?_, rfl⟩
        unfold readNumber at hread
        dsimp only at hread
        split at hread
        · obtain ⟨-, rfl⟩ := Prod.mk.inj (Except.ok.inj hread)
          rfl
        · cases hread
      · obtain ⟨rfl, rfl⟩ := Prod.mk.inj (Except.ok.inj h)
        exact ⟨rfl, rfl⟩
      · cases hread : readUnquotedValue ⟨ch :: rest, cur⟩ with
        | mk value v =>
          simp only [hread] at h ⊢
          cases value with
          | nil => cases h
          | cons c cs =>
            obtain ⟨rfl, rfl⟩ := Prod.mk.inj (Except.ok.inj h)
            exact ⟨rfl, rfl⟩

/-! ## Indentations -/

/-- The blanks that `count_indent` counts. -/
def isIndent (ch : Char) : Bool := ch = ' ' || ch = '\t'

theorem isIndent_newline : isIndent '\n' = false := by decide

theorem blanks_no_newline (cs : List Char) : '\n' ∉ cs.takeWhile isIndent := by
  intro h
  have hblank := List.mem_takeWhile_imp h
  rw [isIndent_newline] at hblank
  cases hblank

/-- Three columns more than characters for each tab. -/
theorem countIndent_columns (t : Tokenizer) :
    t.countIndent.1 = (t.rest.takeWhile isIndent).length + 3 * (t.rest.takeWhile isIndent).count '\t' := by
  have hcolumns : ∀ cs : List Char, (∀ ch ∈ cs, isIndent ch) →
      (cs.map fun ch => if ch = ' ' then 1 else 4).sum = cs.length + 3 * cs.count '\t' := by
    intro cs hcs
    induction cs with
    | nil => rfl
    | cons ch cs ih =>
      have hrest := ih fun c hc => hcs c (List.mem_cons_of_mem _ hc)
      have hch : ch = ' ' ∨ ch = '\t' := by simpa [isIndent] using hcs ch List.mem_cons_self
      rw [List.map_cons, List.sum_cons, hrest, List.length_cons, List.count_cons]
      rcases hch with rfl | rfl
      · simp
        omega
      · simp
        omega
  exact hcolumns _ fun ch hch => List.mem_takeWhile_imp hch

theorem countIndent_took (t : Tokenizer) :
    Took t (t.rest.takeWhile isIndent) t.countIndent.2 := took_readWhile isIndent t

/-- The next call reports the indentation of a line. -/
structure Indents (t : Tokenizer) : Prop where
  fresh : t.cursor.atLineStart = true
  content : ∃ ch ∈ (t.rest.dropWhile isIndent).head?, ch ≠ '\n'
  blank : t.rest.takeWhile isIndent ≠ []

theorem indent_pos_iff {t : Tokenizer} :
    0 < t.countIndent.1 ↔ t.rest.takeWhile isIndent ≠ [] := by
  rw [countIndent_columns, ← List.length_pos_iff]
  have hcount := List.count_le_length (a := '\t') (l := t.rest.takeWhile isIndent)
  omega

/-- The tokenizer behind an indentation. -/
def behindIndent (t : Tokenizer) : Tokenizer :=
  ⟨t.countIndent.2.rest, { t.countIndent.2.cursor with atLineStart := false }⟩

theorem nextToken_indents {t : Tokenizer} (h : Indents t) :
    leftBy std t = behindIndent t ∧
      nextToken std t = usizeSub std t.countIndent.2.cursor.position t.countIndent.1 >>= fun offset =>
        .ok (⟨.indent t.countIndent.1, ⟨t.countIndent.2.cursor.line, 1, offset⟩,
          t.countIndent.2.cursor.here⟩, behindIndent t) := by
  obtain ⟨ch, hch, hnl⟩ := h.content
  have hpos := indent_pos_iff.mpr h.blank
  have hrest : t.countIndent.2.rest = t.rest.dropWhile isIndent := rfl
  obtain ⟨tail, htail⟩ : ∃ tail, t.countIndent.2.rest = ch :: tail := by
    rw [hrest]
    exact ⟨_, (List.head?_eq_some_iff.mp hch).choose_spec⟩
  unfold leftBy nextToken
  rw [if_pos h.fresh, if_pos h.fresh]
  dsimp only
  rw [htail]
  simp only [if_neg hnl, if_pos hpos]
  unfold behindIndent
  rw [htail]
  exact ⟨rfl, rfl⟩

/-- Between `t` and `u` there is nothing of the line, and if a line begins at `u` it is
empty. -/
structure Skips (t : Tokenizer) (ws : List Char) (u : Tokenizer) : Prop where
  rest : t.rest = ws ++ u.rest
  position : u.cursor.position = t.cursor.position + ws.length
  noNewline : '\n' ∉ ws
  empty : u.cursor.atLineStart → ∀ ch ∈ u.rest.head?, ch = '\n'

theorem Skips.whitespace {t u : Tokenizer} {ws : List Char} (h : Skips t ws u) :
    ∃ ws', Skips t ws' u.skipWhitespaceExceptNewline := by
  have htook := took_readWhile isSkipped u
  have hnl : '\n' ∉ u.rest.takeWhile isSkipped := by
    intro hmem
    cases List.mem_takeWhile_imp hmem
  refine ⟨ws ++ u.rest.takeWhile isSkipped, ?_, ?_, ?_, fun hfresh ch hch => ?_⟩
  · rw [h.rest, List.append_assoc]
    exact congrArg (ws ++ ·) htook.rest
  · rw [List.length_append, ← Nat.add_assoc, ← h.position]
    exact htook.position
  · exact fun hmem => (List.mem_append.mp hmem).elim h.noNewline hnl
  · -- where a line begins there is nothing to be skipped
    have hempty := h.empty (htook.atLineStart hnl hfresh)
    have hdrop : u.rest.dropWhile isSkipped = u.rest := by
      cases hu : u.rest with
      | nil => rfl
      | cons c rest =>
        obtain rfl := hempty c (by rw [hu]; rfl)
        rfl
    exact hempty ch (hdrop ▸ hch)

/-- A call that reports no indentation reads one token of the line. -/
theorem nextToken_line {t : Tokenizer} (h : ¬ Indents t) :
    ∃ ws u, Skips t ws u ∧ nextToken std t = readToken std u ∧ leftBy std t = leftByToken std u := by
  have hline {t' : Tokenizer} {ws : List Char} (hskips : Skips t ws t')
      (hnext : nextToken std t = nextInLine std t')
      (hleft : leftBy std t = leftByToken std t'.skipWhitespaceExceptNewline) :
      ∃ ws u, Skips t ws u ∧ nextToken std t = readToken std u ∧
        leftBy std t = leftByToken std u := by
    obtain ⟨ws', hskips'⟩ := hskips.whitespace
    exact ⟨ws', _, hskips', hnext, hleft⟩
  by_cases hfresh : t.cursor.atLineStart
  · have htook := countIndent_took t
    have hnl := blanks_no_newline t.rest
    have hskips (hempty : ∀ ch ∈ t.countIndent.2.rest.head?, ch = '\n') :
        Skips t _ t.countIndent.2 := ⟨htook.rest, htook.position, hnl, fun _ => hempty⟩
    cases hrest : t.countIndent.2.rest with
    | nil =>
      refine hline (hskips (by simp [hrest])) ?_ ?_
      · simp only [nextToken, if_pos hfresh, hrest]
      · simp only [leftBy, if_pos hfresh, hrest]
    | cons ch rest =>
      by_cases hch : ch = '\n'
      · refine hline (hskips (by simp [hrest, hch])) ?_ ?_
        · simp only [nextToken, if_pos hfresh, hrest, if_pos hch]
        · simp only [leftBy, if_pos hfresh, hrest, if_pos hch]
      · have hblank : ¬ 0 < t.countIndent.1 := by
          rw [indent_pos_iff]
          intro hne
          have hdrop : t.rest.dropWhile isIndent = ch :: rest := hrest
          exact h ⟨hfresh, ⟨ch, by rw [hdrop]; rfl, hch⟩, hne⟩
        have hbehind : Skips t _ (behindIndent t) :=
          ⟨htook.rest, htook.position, hnl, fun h => absurd h (by simp [behindIndent])⟩
        refine hline hbehind ?_ ?_
        · simp only [nextToken, if_pos hfresh, hrest, if_neg hch, if_neg hblank, behindIndent]
        · simp only [leftBy, if_pos hfresh, hrest, if_neg hch, if_neg hblank, behindIndent]
  · have hskips : Skips t [] t := ⟨rfl, rfl, List.not_mem_nil, fun h => absurd h hfresh⟩
    refine hline hskips ?_ ?_
    · rw [nextToken, if_neg hfresh]
    · rw [leftBy, if_neg hfresh]

/-! ## One call -/

/-- The call has taken the rest of its line and a newline, which it reports. -/
def EndsLine (std : RustStd) (t : Tokenizer) (cs : List Char) : Prop :=
  ∃ ws, cs = ws ++ ['\n'] ∧ '\n' ∉ ws ∧ (leftBy std t).cursor.atLineStart ∧
    ∃ token, nextToken std t = .ok (token, leftBy std t) ∧
      token.span.start.offset = t.cursor.position + ws.length

/-- What a call takes: something of its line, or the line's end, or nothing, where the input
ends. -/
theorem leftBy_spec (std : RustStd) (t : Tokenizer) :
    ∃ cs, t.rest = cs ++ (leftBy std t).rest ∧
      (leftBy std t).cursor.position = t.cursor.position + cs.length ∧
      (cs = [] → t.rest = [] ∧ ReportsEof std t) ∧
      (('\n' ∉ cs ∧ ((leftBy std t).cursor.atLineStart → (leftBy std t).rest = [])) ∨
        EndsLine std t cs) := by
  by_cases hindents : Indents t
  · have htook := countIndent_took t
    obtain ⟨hleft, -⟩ := @nextToken_indents std t hindents
    rw [hleft]
    refine ⟨_, htook.rest, htook.position, fun h => absurd h hindents.blank,
      .inl ⟨blanks_no_newline _, fun h => ?_⟩⟩
    cases h
  · obtain ⟨ws, u, hskips, hnext, hleft⟩ := @nextToken_line std t hindents
    obtain ⟨cs, htook, hne, hcs⟩ := @took_leftByToken std u
    have hrest : t.rest = ws ++ cs ++ (leftByToken std u).rest := by
      rw [hskips.rest, htook.rest, List.append_assoc]
    have hposition : (leftByToken std u).cursor.position = t.cursor.position + (ws ++ cs).length := by
      rw [htook.position, hskips.position, List.length_append, Nat.add_assoc]
    refine ⟨ws ++ cs, ?_, ?_, ?_, ?_⟩
    · rw [hleft, hrest]
    · rw [hleft, hposition]
    · intro hnil
      have hend : u.rest = [] := by
        by_contra h
        exact hne h (List.append_eq_nil_iff.mp hnil).2
      have hstart : t.rest = [] := by
        rw [hskips.rest, hend, (List.append_eq_nil_iff.mp hnil).1]
        rfl
      refine ⟨hstart, ⟨.eof, Span.single u.cursor.here⟩, u, hnext.trans ?_, rfl⟩
      rw [readToken, hend]
    · split_ifs at hcs with hhead
      · obtain ⟨tail, htail⟩ := List.head?_eq_some_iff.mp hhead
        refine .inr ⟨ws, by rw [hcs], hskips.noNewline, ?_, ?_⟩
        · rw [hleft, htook.cursor, hcs]
          rfl
        · have hread : readToken std u = .ok (⟨.newline, u.cursor.here,
              (u.cursor.advance '\n').here⟩, ⟨tail, u.cursor.advance '\n'⟩) := by
            rw [readToken, htail]
            rfl
          have hbehind := (readToken_ok hread).1
          refine ⟨⟨.newline, u.cursor.here, (u.cursor.advance '\n').here⟩,
            hnext.trans (hread.trans ?_), hskips.position⟩
          rw [hleft, ← hbehind]
      · refine .inl ⟨fun h => (List.mem_append.mp h).elim hskips.noNewline hcs, fun h => ?_⟩
        rw [hleft] at h ⊢
        have hempty := hskips.empty (htook.atLineStart hcs h)
        cases hu : u.rest with
        | nil =>
          have hnil := htook.rest
          rw [hu] at hnil
          exact (List.append_eq_nil_iff.mp hnil.symm).2
        | cons ch rest =>
          obtain rfl := hempty ch (by rw [hu]; rfl)
          exact absurd (by rw [hu]; rfl) hhead

/-- The token of a call that does not underflow lies between what the tokenizer had read
and what it has read, its start by three characters too far to the left for each tab of an
indentation. -/
theorem token_span {t u : Tokenizer} {token : Token} (h : nextToken std t = .ok (token, u))
    (hfit : ¬ tabsExceed t) :
    u = leftBy std t ∧ token.span.stop.offset = u.cursor.position ∧
      token.span.start.offset ≤ token.span.stop.offset ∧
      (¬ (Indents t ∧ '\t' ∈ t.rest.takeWhile isIndent) →
        t.cursor.position ≤ token.span.start.offset) ∧
      (Indents t → token.span.start.offset +
        3 * (t.rest.takeWhile isIndent).count '\t' = t.cursor.position) := by
  by_cases hindents : Indents t
  · obtain ⟨hleft, hnext⟩ := @nextToken_indents std t hindents
    have hposition := (countIndent_took t).position
    have hcolumns := countIndent_columns t
    have hle : t.countIndent.1 ≤ t.countIndent.2.cursor.position := by
      by_contra hlt
      exact hfit ⟨hindents.fresh, hindents.content, not_le.mp hlt⟩
    rw [hnext, usizeSub, if_pos hle, bind_ok] at h
    obtain ⟨rfl, rfl⟩ := Prod.mk.inj (Except.ok.inj h)
    rw [hleft]
    have hstart : t.countIndent.2.cursor.position - t.countIndent.1 +
        3 * (t.rest.takeWhile isIndent).count '\t' = t.cursor.position := by omega
    refine ⟨rfl, rfl, Nat.sub_le _ _, fun hno => ?_, fun _ => hstart⟩
    have hzero : (t.rest.takeWhile isIndent).count '\t' = 0 :=
      List.count_eq_zero.mpr fun hmem => hno ⟨hindents, hmem⟩
    rw [hzero] at hstart
    exact hstart.ge
  · obtain ⟨ws, v, hskips, hnext, hleft⟩ := @nextToken_line std t hindents
    rw [hnext] at h
    obtain ⟨rfl, hspan⟩ := readToken_ok h
    obtain ⟨cs, htook, -, -⟩ := @took_leftByToken std v
    have hle : v.cursor.position ≤ (leftByToken std v).cursor.position := by
      rw [htook.position]
      exact Nat.le_add_right _ _
    have hge : t.cursor.position ≤ v.cursor.position := by
      rw [hskips.position]
      exact Nat.le_add_right _ _
    rw [hspan]
    exact ⟨hleft.symm, rfl, hle, fun _ => hge, fun h => absurd h hindents⟩

/-! ## Runs of calls -/

/-- The whole text or what follows a newline in it. -/
def LineOf (input line : List Char) : Prop := line = input ∨ ∃ before, input = before ++ '\n' :: line

/-- There is a tab among the blanks that the line begins with, and something else behind them. -/
def TabIndented (line : List Char) : Prop :=
  '\t' ∈ line.takeWhile isIndent ∧ ∃ ch ∈ (line.dropWhile isIndent).head?, ch ≠ '\n'

/-- The tokenizer has read a part of the input, and where it is to count an indentation a line
begins. -/
structure Stands (input : List Char) (t : Tokenizer) : Prop where
  read : ∃ read, input = read ++ t.rest ∧ t.cursor.position = read.length
  line : t.cursor.atLineStart → t.rest = [] ∨ LineOf input t.rest

theorem Stands.leftBy {input : List Char} {t : Tokenizer} (h : Stands input t) :
    Stands input (leftBy std t) := by
  obtain ⟨read, hinput, hread⟩ := h.read
  obtain ⟨cs, hrest, hposition, -, hcs⟩ := leftBy_spec std t
  refine ⟨⟨read ++ cs, ?_, ?_⟩, fun hfresh => ?_⟩
  · rw [hinput, hrest, List.append_assoc]
  · rw [hposition, hread, List.length_append]
  · rcases hcs with ⟨-, hend⟩ | ⟨ws, rfl, -, -⟩
    · exact .inl (hend hfresh)
    · refine .inr (.inr ⟨read ++ ws, ?_⟩)
      rw [hinput, hrest]
      simp

theorem Stands.position_le {input : List Char} {t : Tokenizer} (h : Stands input t) :
    t.cursor.position ≤ input.length := by
  obtain ⟨read, hinput, hread⟩ := h.read
  rw [hread, hinput, List.length_append]
  exact Nat.le_add_right _ _

theorem stands_of_calls {input : String} {t : Tokenizer} (h : Calls std (.new input) t) :
    Stands input.toList t := by
  induction h with
  | refl => exact ⟨⟨[], rfl, rfl⟩, fun _ => .inr (.inl rfl)⟩
  | tail _ hcall ih =>
    rw [hcall.2]
    exact ih.leftBy

theorem position_le_of_calls {t u : Tokenizer} (h : Calls std t u) :
    t.cursor.position ≤ u.cursor.position := by
  induction h with
  | refl => exact le_rfl
  | @tail v w _ hcall ih =>
    obtain ⟨cs, -, hposition, -⟩ := leftBy_spec std v
    rw [hcall.2, hposition]
    exact ih.trans (Nat.le_add_right _ _)

theorem tabsExceed_iff {t : Tokenizer} : tabsExceed t ↔
    Indents t ∧ t.cursor.position < 3 * (t.rest.takeWhile isIndent).count '\t' := by
  have hposition := (countIndent_took t).position
  have hcolumns := countIndent_columns t
  constructor
  · rintro ⟨hfresh, hcontent, hlt⟩
    refine ⟨⟨hfresh, hcontent, fun hnil => ?_⟩, by omega⟩
    rw [hnil] at hcolumns
    simp only [List.length_nil, List.count_nil] at hcolumns
    omega
  · rintro ⟨hindents, hlt⟩
    exact ⟨hindents.fresh, hindents.content, by omega⟩

/-- Without a tab in an indentation there is none in what the next call counts. -/
theorem Stands.noTab {input : List Char} {t : Tokenizer} (h : Stands input t)
    (hclean : ∀ line, LineOf input line → ¬ TabIndented line) :
    ¬ (Indents t ∧ '\t' ∈ t.rest.takeWhile isIndent) := by
  rintro ⟨hindents, htab⟩
  rcases h.line hindents.fresh with hnil | hline
  · rw [hnil] at htab
    cases htab
  · exact hclean _ hline ⟨htab, hindents.content⟩

theorem noTab_fits {t : Tokenizer} (h : ¬ (Indents t ∧ '\t' ∈ t.rest.takeWhile isIndent)) :
    ¬ tabsExceed t := by
  rw [tabsExceed_iff]
  rintro ⟨hindents, hlt⟩
  refine h ⟨hindents, List.count_pos_iff.mp ?_⟩
  omega

theorem spansInOrder_of_clean {input : String}
    (hclean : ∀ line, LineOf input.toList line → ¬ TabIndented line) : SpansInOrder std input := by
  have hfits {t : Tokenizer} (h : Calls std (.new input) t) : ¬ tabsExceed t :=
    noTab_fits ((stands_of_calls h).noTab hclean)
  refine ⟨fun t _ => ?_, fun t h => hfits h, fun t token u h hnext => ?_,
    fun t t' token token' u u' h h' hnext hnext' => ?_⟩
  · obtain ⟨cs, hrest, -, hnil, -⟩ := leftBy_spec std t
    by_cases hcs : cs = []
    · exact .inl (hnil hcs).2
    · have hpos := List.length_pos_iff.mpr hcs
      rw [hrest, List.length_append]
      exact .inr (by omega)
  · obtain ⟨rfl, hstop, hle, -⟩ := token_span hnext (hfits h)
    have hstands : Stands input.toList (leftBy std t) := (stands_of_calls h).leftBy
    have hlength := hstands.position_le
    rw [String.length_toList] at hlength
    exact ⟨hle, hstop ▸ hlength⟩
  · obtain ⟨rfl, hstop, hle, -⟩ := token_span hnext (hfits h)
    rcases Relation.ReflTransGen.cases_head h' with rfl | ⟨v, hcall, hrest⟩
    · obtain ⟨rfl, -⟩ := Prod.mk.inj (Except.ok.inj (hnext.symm.trans hnext'))
      exact le_rfl
    · -- the first token stops before the second starts
      have hlater : Calls std (.new input) t' := h.trans h'
      obtain ⟨-, -, -, hstart, -⟩ := token_span hnext' (hfits hlater)
      have hmono := position_le_of_calls hrest
      rw [hcall.2] at hmono
      have hstart' := hstart ((stands_of_calls hlater).noTab hclean)
      omega

/-! ## Tabs -/

/-- Where a newline stands in a text of two parts. -/
theorem newline_split {cs rest before line : List Char}
    (h : cs ++ rest = before ++ '\n' :: line) :
    (∃ before', before = cs ++ before' ∧ rest = before' ++ '\n' :: line) ∨
      ∃ cs', cs = before ++ '\n' :: cs' ∧ line = cs' ++ rest := by
  rcases List.append_eq_append_iff.mp h with ⟨before', hbefore, hrest⟩ | ⟨tail, hcs, htail⟩
  · exact .inl ⟨before', hbefore, hrest⟩
  · cases tail with
    | nil => exact .inl ⟨[], by simpa using hcs.symm, htail.symm⟩
    | cons ch cs' =>
      obtain ⟨rfl, hline⟩ := List.cons.inj htail
      exact .inr ⟨cs', hcs, hline⟩

theorem newline_last {before cs ws : List Char} (h : before ++ '\n' :: cs = ws ++ ['\n'])
    (hws : '\n' ∉ ws) : cs = [] := by
  rcases List.eq_nil_or_concat' cs with hnil | ⟨init, last, rfl⟩
  · exact hnil
  · have hsplit : before ++ '\n' :: init ++ [last] = ws ++ ['\n'] := by simpa using h
    obtain rfl := (List.append_inj' hsplit rfl).1
    exact absurd (by simp) hws

/-- Every newline of what is left is reported by a call, unless a call before it panics. -/
theorem reaches_newline {t₀ t : Tokenizer} (hno : ∀ t, Calls std t₀ t → ¬ tabsExceed t)
    (ht : Calls std t₀ t) {before line : List Char} (hrest : t.rest = before ++ '\n' :: line) :
    ∃ v cs, Calls std t₀ v ∧ v.rest = cs ++ line ∧ (leftBy std v).rest = line ∧
      EndsLine std v cs := by
  induction hn : t.rest.length using Nat.strong_induction_on generalizing t before with
  | _ n ih =>
    subst hn
    obtain ⟨cs, hsplit, -, hnil, hcs⟩ := leftBy_spec std t
    have hne : cs ≠ [] := by
      intro h
      have hend := (hnil h).1
      rw [hrest] at hend
      simp at hend
    have hcall : Called std t (leftBy std t) := by
      refine ⟨fun hpanic => ?_, rfl⟩
      rcases nextToken_spec std t with ⟨hreturns, -⟩ | ⟨-, -, hexceed⟩
      · rw [hpanic] at hreturns
        exact hreturns
      · exact hno t ht hexceed
    have hshort : (leftBy std t).rest.length < t.rest.length := by
      have hpos := List.length_pos_iff.mpr hne
      rw [hsplit, List.length_append]
      omega
    rcases newline_split (hsplit.symm.trans hrest) with ⟨before', -, hleft⟩ | ⟨cs', rfl, hline⟩
    · exact ih _ hshort (ht.tail hcall) hleft rfl
    · rcases hcs with ⟨hnl, -⟩ | hends
      · exact absurd (by simp) hnl
      · -- the newline is the one that the call has taken
        have hends' := hends
        obtain ⟨ws, hws, hnl, -⟩ := hends'
        obtain rfl := newline_last hws hnl
        rw [List.nil_append] at hline
        refine ⟨t, _, ht, ?_, hline.symm, hends⟩
        rw [hsplit, hline]

/-- The spans of every run of calls over a text are in order exactly when no line of the text
has a tab among the blanks in front of its first other character. -/
theorem spansInOrder_iff (std : RustStd) (input : String) : SpansInOrder std input ↔
    ∀ line, LineOf input.toList line → ¬ TabIndented line := by
  constructor
  · rintro h line hline ⟨htab, hcontent⟩
    have hcount := List.count_pos_iff.mpr htab
    have hindents {t : Tokenizer} (hfresh : t.cursor.atLineStart) (hrest : t.rest = line) :
        Indents t := by
      subst hrest
      exact ⟨hfresh, hcontent, List.ne_nil_of_mem htab⟩
    rcases hline with rfl | ⟨before, hinput⟩
    · -- the first line begins at offset 0
      refine h.noUnderflow _ .refl (tabsExceed_iff.mpr ⟨hindents rfl rfl, ?_⟩)
      exact Nat.mul_pos (by decide) hcount
    · obtain ⟨v, cs, hv, hrest, hleft, ws, rfl, -, hfresh, token, hnext, hstart⟩ :=
        reaches_newline h.noUnderflow .refl hinput
      have hcall : Called std v (leftBy std v) := ⟨by rw [hnext]; simp, rfl⟩
      have hindents' := hindents hfresh hleft
      have hfit := h.noUnderflow _ (hv.tail hcall)
      have hposition : (leftBy std v).cursor.position = v.cursor.position + ws.length + 1 := by
        obtain ⟨cs, hsplit, hposition, -⟩ := leftBy_spec std v
        rw [hrest, hleft] at hsplit
        rw [hposition, ← List.append_cancel_right hsplit, List.length_append]
        rfl
      obtain ⟨-, hnext'⟩ := @nextToken_indents std _ hindents'
      have hle : (leftBy std v).countIndent.1 ≤ (leftBy std v).countIndent.2.cursor.position := by
        by_contra hlt
        exact hfit ⟨hfresh, hindents'.content, not_le.mp hlt⟩
      rw [usizeSub, if_pos hle, bind_ok] at hnext'
      have hspan := (token_span hnext' hfit).2.2.2.2 hindents'
      rw [hleft] at hspan
      have horder := h.ordered v _ _ _ _ _ hv (.single hcall) hnext hnext'
      omega
  · exact spansInOrder_of_clean

/-- A tab at the very beginning: four columns of one character. -/
theorem not_spansInOrder_tab : ¬ SpansInOrder RustStd.ascii "\tx" := by
  intro h
  exact h.noUnderflow _ .refl ⟨rfl, ⟨'x', rfl, by decide⟩, by decide⟩

end Ubl.Logline
