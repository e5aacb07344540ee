import Ubl.Lib.ExceptLemmas
import Ubl.Lib.Fueled
import Ubl.Logline.Tokenizer

/-!
# The tokenizer comes to an end

Every token but the last takes characters of the input, so `tokenize` needs one unit of fuel for
each character and one more.  The only way not to return is the column arithmetic of tabs, which
a build with overflow checks panics at.
-/

namespace Ubl.Logline

open ExceptLemmas Fueled

variable {std : RustStd}

/-! ## What the readers leave -/

theorem length_dropWhile_le {p : Char → Bool} (cs : List Char) :
    (cs.dropWhile p).length ≤ cs.length :=
  (List.dropWhile_suffix p).length_le

theorem skipWhitespace_length (t : Tokenizer) :
    t.skipWhitespaceExceptNewline.rest.length ≤ t.rest.length :=
  length_dropWhile_le _

theorem countIndent_length (t : Tokenizer) : t.countIndent.2.rest.length ≤ t.rest.length :=
  length_dropWhile_le _

/-- A reader whose condition holds of the first character takes it. -/
theorem readWhile_length_lt {p : Char → Bool} {t : Tokenizer} {ch : Char} {rest : List Char}
    (ht : t.rest = ch :: rest) (hp : p ch) : (t.readWhile p).2.rest.length < t.rest.length := by
  rw [Tokenizer.readWhile, ht]
  simp only [List.dropWhile_cons, if_pos hp, List.length_cons]
  exact Nat.lt_succ_of_le (length_dropWhile_le rest)

theorem numberTail_append (hasDot : Bool) (cs : List Char) :
    (numberTail std hasDot cs).1 ++ (numberTail std hasDot cs).2 = cs := by
  induction cs generalizing hasDot with
  | nil => rfl
  | cons ch cs ih =>
    rw [numberTail]
    split_ifs
    · exact congrArg (ch :: ·) (ih hasDot)
    · exact congrArg (ch :: ·) (ih true)
    · rfl

theorem numberChars_append (cs : List Char) :
    (numberChars std cs).1 ++ (numberChars std cs).2 = cs := by
  unfold numberChars
  split
  · exact congrArg ('-' :: ·) (numberTail_append false _)
  · exact numberTail_append false _

theorem numberChars_ne_nil {cs : List Char} (h : startsNumber std cs) :
    (numberChars std cs).1 ≠ [] := by
  cases cs with
  | nil => cases h
  | cons ch cs =>
    by_cases hch : ch = '-'
    · subst hch
      exact List.cons_ne_nil _ _
    · have hnum : std.isNumeric ch := by simpa [startsNumber, hch] using h
      rw [numberChars_cons std hch, numberTail, if_pos hnum]
      exact List.cons_ne_nil _ _

theorem numberChars_length_lt {cs : List Char} (h : startsNumber std cs) :
    (numberChars std cs).2.length < cs.length := by
  have happend := congrArg List.length (@numberChars_append std cs)
  have hpos := List.length_pos_iff.mpr (numberChars_ne_nil h)
  rw [List.length_append] at happend
  omega

/-- Nothing is wrong with the run itself: it returns `Ok` with a value that satisfies `P`, or an
error. -/
def Returns {α : Type} (P : α → Prop) : Except Halt α → Prop
  | .ok a => P a
  | .error (.error _) => True
  | .error _ => False

theorem Returns.mono {α : Type} {P Q : α → Prop} {x : Except Halt α} (hx : Returns P x)
    (h : ∀ a, P a → Q a) : Returns Q x := by
  cases x with
  | ok a => exact h a hx
  | error e => cases e <;> exact hx

theorem Returns.bind {α β : Type} {P : α → Prop} {Q : β → Prop} {x : Except Halt α}
    {f : α → Except Halt β} (hx : Returns P x) (hf : ∀ a, P a → Returns Q (f a)) :
    Returns Q (x >>= f) := by
  cases x with
  | ok a => exact hf a hx
  | error e => cases e <;> exact hx

theorem readStringBody_returns (start : Position) (cs : List Char) (cur : Cursor) :
    Returns (fun p => p.2.rest.length ≤ cs.length) (readStringBody start cs cur) := by
  fun_induction readStringBody start cs cur with
  | case1 cur => trivial
  | case2 cur rest => exact Nat.le_succ _
  | case3 cur => trivial
  | case4 cur esc rest hesc => trivial
  | case5 cur esc rest ch hesc ih =>
    exact ih.bind fun p hp => hp.trans ((Nat.le_succ _).trans (Nat.le_succ _))
  | case6 cur tail => trivial
  | case7 cur ch rest h1 h2 h3 h4 ih => exact ih.bind fun p hp => hp.trans (Nat.le_succ _)

theorem readString_returns (start : Position) {t : Tokenizer} {rest : List Char}
    (ht : t.rest = '"' :: rest) :
    Returns (fun p => p.2.rest.length < t.rest.length) (readString start t) := by
  rw [readString, ht, List.tail_cons]
  exact (readStringBody_returns start rest _).mono fun p => Nat.lt_succ_of_le

theorem readNumber_returns (start : Position) {t : Tokenizer} (h : startsNumber std t.rest) :
    Returns (fun p => p.2.rest.length < t.rest.length) (readNumber std start t) := by
  unfold readNumber
  dsimp only
  cases std.parseF64 (String.ofList (numberChars std t.rest).1) with
  | some n => exact numberChars_length_lt h
  | none => trivial

theorem readUnquotedValue_length {t : Tokenizer} {value : List Char} {t' : Tokenizer}
    (h : readUnquotedValue t = (value, t')) (hvalue : value ≠ []) :
    t'.rest.length < t.rest.length := by
  obtain ⟨rfl, rfl⟩ := Prod.mk.inj h
  cases ht : t.rest with
  | nil => simp [ht, trim] at hvalue
  | cons ch rest =>
    by_cases hch : isDelimiter ch
    · simp [ht, trim, hch] at hvalue
    · rw [← ht]
      exact readWhile_length_lt ht (by simp [hch])

/-! ## One token -/

/-- Every token but the last takes characters. -/
theorem nextInLine_returns (t : Tokenizer) :
    Returns (fun p => p.1.kind ≠ .eof → p.2.rest.length < t.rest.length) (nextInLine std t) := by
  have hskip := skipWhitespace_length t
  unfold nextInLine
  generalize t.skipWhitespaceExceptNewline = u at hskip ⊢
  unfold readToken
  dsimp only
  split
  · exact fun h => absurd rfl h
  · next ch rest hu =>
    split
    · rw [hu, List.length_cons] at hskip
      exact fun _ => hskip
    · split_ifs with hquote hnumber hword
      · subst hquote
        exact (readString_returns u.cursor.here hu).bind fun p hp _ => hp.trans_le hskip
      · exact (readNumber_returns u.cursor.here hnumber).bind fun p hp _ => hp.trans_le hskip
      · have hident : isIdentifierChar std ch := by
          simp only [startsWord, Bool.or_eq_true, decide_eq_true_eq] at hword
          rcases hword with h | h <;> simp [isIdentifierChar, RustStd.isAlphanumeric, h]
        exact fun _ => (readWhile_length_lt hu hident).trans_le hskip
      · split
        · trivial
        · next value u' hvalue hread =>
          exact fun _ => (readUnquotedValue_length hread hvalue).trans_le hskip

/-- The line begins with blanks that count for more columns than there are characters so far. -/
def tabsExceed (t : Tokenizer) : Prop :=
  t.cursor.atLineStart ∧ (∃ ch ∈ t.countIndent.2.rest.head?, ch ≠ '\n') ∧
    t.countIndent.2.cursor.position < t.countIndent.1

theorem countIndent_length_lt {t : Tokenizer} (h : 0 < t.countIndent.1) :
    t.countIndent.2.rest.length < t.rest.length := by
  cases ht : t.rest with
  | nil => simp [Tokenizer.countIndent, Tokenizer.readWhile, ht] at h
  | cons ch rest =>
    by_cases hch : ch = ' ' ∨ ch = '\t'
    · rw [← ht]
      exact readWhile_length_lt ht (by simpa using hch)
    · rw [not_or] at hch
      simp [Tokenizer.countIndent, Tokenizer.readWhile, ht, hch] at h

/-- A token is read, or there is an error, or the build checks its arithmetic and the line is
indented too far. -/
theorem nextToken_spec (std : RustStd) (t : Tokenizer) :
    Returns (fun p => p.1.kind ≠ .eof → p.2.rest.length < t.rest.length) (nextToken std t) ∧
        ¬ (std.overflowChecks ∧ tabsExceed t) ∨
      nextToken std t = .error .panic ∧ std.overflowChecks ∧ tabsExceed t := by
  have hindent := countIndent_length t
  have hlt := countIndent_length_lt (t := t)
  by_cases hstart : t.cursor.atLineStart
  · rw [nextToken, if_pos hstart]
    unfold tabsExceed
    generalize t.countIndent = q at hindent hlt
    obtain ⟨indent, u⟩ := q
    dsimp only at hindent hlt ⊢
    have hline : ∀ u' : Tokenizer, u'.rest = u.rest →
        Returns (fun p => p.1.kind ≠ .eof → p.2.rest.length < t.rest.length) (nextInLine std u') :=
      fun u' hu' => (nextInLine_returns u').mono fun p hp heof =>
        (hp heof).trans_le ((congrArg List.length hu').trans_le hindent)
    cases hu : u.rest with
    | nil => exact .inl ⟨hline u rfl, fun h => by simp at h⟩
    | cons ch rest =>
      dsimp only
      split_ifs with hnl hpos
      · exact .inl ⟨hline u rfl, fun h => by simp [hnl] at h⟩
      · by_cases hfit : indent ≤ u.cursor.position
        · rw [usizeSub, if_pos hfit]
          exact .inl ⟨fun _ => (congrArg List.length hu).symm.trans_lt (hlt hpos),
            fun h => absurd h.2.2.2 (not_lt.mpr hfit)⟩
        · rw [usizeSub, if_neg hfit]
          split_ifs with hchecks
          · exact .inr ⟨rfl, hchecks, hstart, ⟨ch, rfl, hnl⟩, not_le.mp hfit⟩
          · exact .inl ⟨fun _ => (congrArg List.length hu).symm.trans_lt (hlt hpos),
              fun h => hchecks h.1⟩
      · exact .inl ⟨hline _ hu.symm, fun h => hpos (Nat.zero_lt_of_lt h.2.2.2)⟩
  · rw [nextToken, if_neg hstart]
    exact .inl ⟨nextInLine_returns t, fun h => hstart h.2.1⟩

/-! ## All tokens -/

/-- The tokenizer comes from `t` to `u` and there are tokens left. -/
inductive Reaches (std : RustStd) : Tokenizer → Tokenizer → Prop
  | refl (t : Tokenizer) : Reaches std t t
  | step {t u v : Tokenizer} {token : Token} (hnext : nextToken std t = .ok (token, u))
      (hkind : token.kind ≠ .eof) (h : Reaches std u v) : Reaches std t v

/-- On the way from `t` the indentation of a line overflows. -/
def Overflows (std : RustStd) (t : Tokenizer) : Prop :=
  std.overflowChecks ∧ ∃ u, Reaches std t u ∧ tabsExceed u

theorem overflows_step {t u : Tokenizer} {token : Token} (hnext : nextToken std t = .ok (token, u))
    (hkind : token.kind ≠ .eof) (ht : ¬ (std.overflowChecks ∧ tabsExceed t)) :
    Overflows std t ↔ Overflows std u := by
  constructor
  · rintro ⟨hchecks, v, hreach, hv⟩
    cases hreach with
    | refl => exact absurd ⟨hchecks, hv⟩ ht
    | step hnext' _ h =>
      obtain ⟨-, rfl⟩ := Prod.mk.inj (Except.ok.inj (hnext.symm.trans hnext'))
      exact ⟨hchecks, v, h, hv⟩
  · rintro ⟨hchecks, v, hreach, hv⟩
    exact ⟨hchecks, v, .step hnext hkind hreach, hv⟩

/-- A tokenizer that reads no further token overflows where it stands or not at all. -/
theorem overflows_last {t : Tokenizer}
    (hnext : ∀ token u, nextToken std t = .ok (token, u) → token.kind = .eof) :
    Overflows std t ↔ std.overflowChecks ∧ tabsExceed t := by
  constructor
  · rintro ⟨hchecks, v, hreach, hv⟩
    cases hreach with
    | refl => exact ⟨hchecks, hv⟩
    | step hnext' hkind _ => exact absurd (hnext _ _ hnext') hkind
  · exact fun h => ⟨h.1, t, .refl t, h.2⟩

/-- The tokenizer ends, and it panics just when an indentation overflows. -/
theorem tokenize_fate (std : RustStd) (t : Tokenizer) :
    ∃ r, Fate .spent (fun fuel => tokenize std fuel t) (some r) ∧
      (r = .error .panic ↔ Overflows std t) := by
  induction hn : t.rest.length using Nat.strong_induction_on generalizing t with
  | _ n ih =>
    have hturn : ∀ fuel, tokenize std (fuel + 1) t =
        nextToken std t >>= fun p =>
          if p.1.kind = .eof then .ok [p.1]
          else tokenize std fuel p.2 >>= fun tokens => .ok (p.1 :: tokens) := fun _ => rfl
    rcases nextToken_spec std t with ⟨hreturns, hfit⟩ | ⟨hpanic, hover⟩
    · cases hnext : nextToken std t with
      | error e =>
        have hlast := @overflows_last std t fun _ _ h => by
          rw [hnext] at h
          cases h
        rw [hnext] at hreturns
        cases e with
        | error e =>
          refine ⟨.error (.error e), (Fate.const (by simp)).succ rfl fun fuel => ?_, by
            simp [hlast, hfit]⟩
          rw [hturn, hnext, bind_error]
        | panic => exact hreturns.elim
        | spent => exact hreturns.elim
      | ok p =>
        obtain ⟨token, u⟩ := p
        rw [hnext] at hreturns
        by_cases heof : token.kind = .eof
        · have hlast := @overflows_last std t fun _ _ h => by
            rw [hnext] at h
            obtain ⟨rfl, -⟩ := Prod.mk.inj (Except.ok.inj h)
            exact heof
          refine ⟨.ok [token], (Fate.const (by simp)).succ rfl fun fuel => ?_, by
            simp [hlast, hfit]⟩
          rw [hturn, hnext, bind_ok, if_pos heof]
        · obtain ⟨r, hfate, hr⟩ := ih u.rest.length (hn ▸ hreturns heof) u rfl
          have hX : ∀ fuel, tokenize std (fuel + 1) t =
              tokenize std fuel u >>= fun tokens => .ok (token :: tokens) := by
            intro fuel
            rw [hturn, hnext, bind_ok, if_neg heof]
          rw [overflows_step hnext heof hfit, ← hr]
          cases r with
          | ok tokens =>
            have hcons : Fate Halt.spent (fun _ => .ok (token :: tokens)) _ := .const (by simp)
            exact ⟨.ok (token :: tokens),
              (hfate.bind (F := fun _ tokens => .ok (token :: tokens)) hcons).succ rfl hX, by simp⟩
          | error e => exact ⟨.error e, hfate.bind_error.succ rfl hX, by simp⟩
    · have hX : ∀ fuel, tokenize std (fuel + 1) t = .error .panic := by
        intro fuel
        rw [hturn, hpanic, bind_error]
      exact ⟨.error .panic, (Fate.const (by simp)).succ rfl hX,
        fun _ => ⟨hover.1, t, .refl t, hover.2⟩, fun _ => rfl⟩

end Ubl.Logline
