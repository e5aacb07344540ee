import Ubl.Logline.Bare

/-!
# A document written with the default options

The name is a word, a number or text that is one token; whatever else stands in the header line
is taken for parameters.  A value is a phrase.  Both are quoted when they hold a special
character.  `serialize_parse_default_iff`: the document is read back exactly when each of its
strings is in quotes or of the form that comes back.
-/

namespace Ubl.Logline

open ExceptLemmas Fueled

variable {std : RustStd}

/-! ## Which strings have tokens -/

/-- A part is a token where it stops. -/
theorem IsPart.isToken {w cs : List Char} (h : IsPart std w) (hcs : StopsPart cs) :
    ∃ kind, IsToken std w kind cs := by
  rcases h with h | ⟨hw, n, hparse, -⟩ | ⟨b, rfl⟩ | rfl
  · exact ⟨_, .word h.1 hcs.identifier⟩
  · exact ⟨_, .number (hw.append hcs.number) hparse⟩
  · exact ⟨_, .word (isIdentifier_bool b) hcs.identifier⟩
  · exact ⟨_, .colon⟩

theorem IsPart.line {w : List Char} (h : IsPart std w) : ∃ kinds, Line std w kinds := by
  obtain ⟨kind, hw⟩ := @IsPart.isToken std w [] h (by simp [StopsPart])
  exact ⟨[kind], List.append_nil w ▸ Line.nil.token hw⟩

theorem IsRest.line {cs : List Char} (h : IsRest std cs) : ∃ kinds, Line std cs kinds := by
  refine ⟨_, .other h.1 fun hnil => ?_⟩
  have hstarts := h.1.starts
  rw [← h.2, hnil] at hstarts
  exact not_starts_nil hstarts

theorem IsPart.line_cons {w cs : List Char} (h : IsPart std w) (hs : ∃ kinds, Line std cs kinds) :
    ∃ kinds, Line std (w ++ ' ' :: cs) kinds := by
  obtain ⟨kinds, hs⟩ := hs
  obtain ⟨kind, hw⟩ := @IsPart.isToken std w (' ' :: cs) h (by simp [StopsPart])
  exact ⟨_, hs.space.token hw⟩

theorem Phrase.line {cs : List Char} (h : Phrase std cs) : ∃ kinds, Line std cs kinds := by
  induction h with
  | part h => exact h.line
  | rest h => exact h.line
  | cons h _ ih => exact h.line_cons ih

theorem Bare.line {cs : List Char} (h : Bare std cs) : ∃ kinds, Line std cs kinds := by
  cases h with
  | word h => exact IsPart.line (.inl h)
  | rest h => exact h.line
  | phrase h hs => exact IsPart.line_cons (.inl h) hs.line

/-! ## Names -/

/-- A name that comes back. -/
def BareName (std : RustStd) (cs : List Char) : Prop :=
  IsWord std cs ∨ IsDisplayed std cs ∨ IsRest std cs

theorem BareName.line {cs : List Char} (h : BareName std cs) : ∃ kinds, Line std cs kinds := by
  rcases h with h | h | h
  · exact IsPart.line (.inl h)
  · exact IsPart.line (.inr (.inl h))
  · exact h.line

theorem BareName.starts {cs : List Char} (h : BareName std cs) : Starts cs := by
  rcases h with h | h | h
  · exact h.1.starts_ne_space
  · exact h.1.starts
  · exact h.1.starts

theorem bareName_iff {w cs : List Char} (hfirst : firstPart std (w ++ cs) = (w, cs))
    (hother : ¬ StartsOther std (w ++ cs)) :
    BareName std (w ++ cs) ↔ (IsWord std w ∨ IsDisplayed std w) ∧ cs = [] := by
  constructor
  · have hwhole : ∀ h : IsPart std (w ++ cs), cs = [] := by
      intro h
      have hpart := (@firstPart_part std _ [] h (by simp [StopsPart])).1
      rw [List.append_nil, hfirst] at hpart
      exact (Prod.mk.inj hpart).2
    rintro (h | h | h)
    · obtain rfl := hwhole (.inl h)
      rw [List.append_nil] at h
      exact ⟨.inl h, rfl⟩
    · obtain rfl := hwhole (.inr (.inl h))
      rw [List.append_nil] at h
      exact ⟨.inr h, rfl⟩
    · exact absurd h.1 hother
  · rintro ⟨h, rfl⟩
    rw [List.append_nil]
    exact h.elim .inl fun h => .inr (.inl h)

theorem StartsOther.bareName_iff {cs : List Char} (h : StartsOther std cs) :
    BareName std cs ↔ trim cs = cs := by
  refine ⟨?_, fun htrim => .inr (.inr ⟨h, htrim⟩)⟩
  rintro (hname | hname | hname)
  · exact h.phrase_iff.mp (.part (.inl hname))
  · exact h.phrase_iff.mp (.part (.inr (.inl hname)))
  · exact hname.2

theorem line_nil {kinds : List TokenKind} (h : Line std [] kinds) : kinds = [] := by
  generalize hcs : ([] : List Char) = cs at h
  cases h with
  | nil => rfl
  | space => cases hcs
  | token hw _ => exact absurd (hcs ▸ hw.starts.append _) not_starts_nil
  | other hother _ => exact absurd (hcs ▸ hother.starts) not_starts_nil

section Names

variable {newline : Span} {rest : List Token}

theorem parseOptionalName_token {w cs : List Char} {kind : TokenKind} (hw : IsToken std w kind cs)
    {span : Span} (tokens : List Token) :
    ((IsWord std w ∨ IsDisplayed std w) ∧
        parseOptionalName std (⟨kind, span⟩ :: tokens) = (some (String.ofList w), tokens)) ∨
      ¬ (IsWord std w ∨ IsDisplayed std w) ∧
        ∀ s, (parseOptionalName std (⟨kind, span⟩ :: tokens)).1 = some s →
          Starts s.toList ∧ s.toList ≠ w ++ cs := by
  have hshows := hw.shows
  cases hw with
  | colon =>
    refine .inr ⟨?_, fun s hs => by cases hs⟩
    rintro (h | ⟨⟨h, -⟩, -⟩)
    · cases isStructural_of_identifierChar (h.1.chars ':' List.mem_cons_self)
    · simp [startsNumber, std.isNumeric_ascii] at h
  | word hw _ =>
    have hdisplayed : ¬ IsDisplayed std w := fun h => hw.not_isNumeral h.1
    rcases @wordKind_cases std w with ⟨hupper, hkind⟩ | ⟨b, hupper, hkind⟩ | ⟨hupper, hkind⟩ <;>
      rw [hkind]
    · refine .inr ⟨?_, fun s hs => by cases hs⟩
      exact fun h => (h.resolve_right hdisplayed).2 (by simp [hupper])
    · refine .inr ⟨?_, fun s hs => by cases hs⟩
      exact fun h => (h.resolve_right hdisplayed).2 (by cases b <;> simp [hupper])
    · exact .inl ⟨.inl ⟨hw, hupper⟩, rfl⟩
  | @number _ _ n hw hparse =>
    obtain ⟨s, hs, hd⟩ := hshows.resolve_left fun h => by cases h.1
    obtain rfl : std.displayF64 n = s := by simpa [textPart] using hs
    have hname : parseOptionalName std (⟨.number n, span⟩ :: tokens) =
        (some (std.displayF64 n), tokens) := rfl
    have hword : ¬ IsWord std w := fun h => h.1.not_isNumeral hw
    rw [hname]
    by_cases hdisplay : (std.displayF64 n).toList = w
    · refine .inl ⟨.inr ⟨hw.closed, n, hparse, hdisplay⟩, ?_⟩
      rw [← hdisplay, String.ofList_toList]
    · refine .inr ⟨?_, fun s hs => ?_⟩
      · rintro (h | h)
        · exact hword h
        · exact hdisplay (hd.isPart.mpr (.inr (.inl h)))
      · obtain rfl := Option.some.inj hs
        refine ⟨hd.starts, fun heq => hdisplay (hd.ends [] (by simp [StopsPart]) ?_)⟩
        rw [List.append_nil, heq]

/-- No name begins with a space. -/
theorem parseOptionalName_starts {cs : List Char} {kinds : List TokenKind} (h : Line std cs kinds)
    {tokens : List Token} (htokens : OfKinds tokens kinds) {s : String}
    (hs : (parseOptionalName std (tokens ++ ⟨.newline, newline⟩ :: rest)).1 = some s) :
    Starts s.toList := by
  induction h with
  | nil =>
    obtain rfl := List.map_eq_nil_iff.mp htokens
    cases hs
  | space _ ih => exact ih htokens
  | @token w cs kind kinds hw h =>
    obtain ⟨span, tokens, rfl, -⟩ := htokens.cons
    rcases @parseOptionalName_token std _ _ _ hw span (tokens ++ ⟨.newline, newline⟩ :: rest) with
      ⟨-, heq⟩ | ⟨-, hno⟩
    · rw [List.cons_append, heq] at hs
      obtain rfl := Option.some.inj hs
      rw [String.toList_ofList]
      exact hw.starts
    · exact (hno s hs).1
  | @other cs hcs htrim =>
    obtain ⟨span, tokens, rfl, -⟩ := htokens.cons
    obtain rfl := Option.some.inj hs
    rw [String.toList_ofList]
    exact starts_trim htrim

/-- A name comes back exactly if it is of the form, and then its line is used up. -/
theorem parseOptionalName_line {cs : List Char} {kinds : List TokenKind} (h : Line std cs kinds)
    (hne : cs ≠ []) {tokens : List Token} (htokens : OfKinds tokens kinds) :
    ((parseOptionalName std (tokens ++ ⟨.newline, newline⟩ :: rest)).1 = some (String.ofList cs) ↔
        BareName std cs) ∧
      (BareName std cs → (parseOptionalName std (tokens ++ ⟨.newline, newline⟩ :: rest)).2 =
        ⟨.newline, newline⟩ :: rest) := by
  cases h with
  | nil => exact absurd rfl hne
  | @space cs _ h =>
    have hnot : ¬ BareName std (' ' :: cs) := fun hname => hname.starts.ne_space cs rfl
    refine ⟨iff_of_false (fun heq => ?_) hnot, fun hname => absurd hname hnot⟩
    have hstarts := parseOptionalName_starts h htokens heq
    rw [String.toList_ofList] at hstarts
    exact hstarts.ne_space cs rfl
  | @token w cs kind kinds hw h =>
    obtain ⟨span, tokens, rfl, hkinds⟩ := htokens.cons
    obtain ⟨hfirst, hother⟩ := hw.firstPart
    rw [bareName_iff hfirst hother]
    rcases @parseOptionalName_token std _ _ _ hw span (tokens ++ ⟨.newline, newline⟩ :: rest) with
      ⟨hpart, heq⟩ | ⟨hpart, hno⟩
    · rw [List.cons_append, heq]
      refine ⟨⟨fun hname => ⟨hpart, ?_⟩, ?_⟩, ?_⟩
      · have htext := congrArg String.toList (Option.some.inj hname)
        simpa using htext
      · rintro ⟨-, rfl⟩
        rw [List.append_nil]
      · rintro ⟨-, rfl⟩
        obtain rfl := line_nil h
        obtain rfl := List.map_eq_nil_iff.mp hkinds
        rfl
    · refine ⟨iff_of_false (fun hname => ?_) fun h => hpart h.1, fun h => absurd h.1 hpart⟩
      exact (hno _ hname).2 (by rw [String.toList_ofList])
  | @other cs hcs htrim =>
    obtain ⟨span, tokens, rfl, hnil⟩ := htokens.cons
    obtain rfl := List.map_eq_nil_iff.mp hnil
    rw [hcs.bareName_iff]
    refine ⟨⟨fun hname => ?_, fun htext => ?_⟩, fun _ => rfl⟩
    · have htext := congrArg String.toList (Option.some.inj hname)
      rwa [String.toList_ofList, String.toList_ofList] at htext
    · exact congrArg (fun cs => some (String.ofList cs)) htext

end Names

/-! ## Strings in a line -/

/-- A value in quotes or of the form that comes back. -/
def ReadsBack (std : RustStd) (s : String) : Prop := needsQuoting s.toList ∨ Bare std s.toList

/-- A name in quotes or of the form that comes back. -/
def NameReadsBack (std : RustStd) (s : String) : Prop :=
  needsQuoting s.toList ∨ BareName std s.toList

/-- The tokens of a string that is written by default, and what is parsed from them. -/
structure TextLine (std : RustStd) (s : String) (kinds : List TokenKind) : Prop where
  reads : ReadsAs std (serializeText false s) kinds
  noContainer : ∀ kind ∈ kinds, kind ≠ .leftBrace ∧ kind ≠ .leftBracket
  value : ∀ (tokens rest : List Token) (newline : Span), OfKinds tokens kinds →
    ((parsePlain std (tokens ++ ⟨.newline, newline⟩ :: rest)).1 = .str s ↔ ReadsBack std s) ∧
      (ReadsBack std s → (parsePlain std (tokens ++ ⟨.newline, newline⟩ :: rest)).2 =
        ⟨.newline, newline⟩ :: rest)
  name : ∀ (tokens rest : List Token) (newline : Span), OfKinds tokens kinds →
    ((parseOptionalName std (tokens ++ ⟨.newline, newline⟩ :: rest)).1 = some s ↔
        NameReadsBack std s) ∧
      (NameReadsBack std s → (parseOptionalName std (tokens ++ ⟨.newline, newline⟩ :: rest)).2 =
        ⟨.newline, newline⟩ :: rest)

theorem line_noContainer {cs : List Char} {kinds : List TokenKind} (h : Line std cs kinds) :
    ∀ kind ∈ kinds, kind ≠ .leftBrace ∧ kind ≠ .leftBracket := by
  induction h with
  | nil => exact List.forall_mem_nil _
  | space _ ih => exact ih
  | token hw _ ih =>
    refine List.forall_mem_cons.mpr ⟨?_, ih⟩
    cases hw with
    | colon => simp
    | word => unfold wordKind; split <;> simp
    | number => simp
  | other => exact List.forall_mem_singleton.mpr (by simp)

theorem textLine_quoted {s : String} (h : needsQuoting s.toList) : TextLine std s [.string s] := by
  have htext : serializeText false s = serializeText true s := by simp [serializeText, h]
  refine ⟨htext ▸ (readsOut_str s).readsAs, by simp, ?_, ?_⟩
  all_goals
    intro tokens rest newline htokens
    obtain ⟨span, tokens, rfl, hnil⟩ := htokens.cons
    obtain rfl := List.map_eq_nil_iff.mp hnil
    exact ⟨iff_of_true rfl (.inl h), fun _ => rfl⟩

theorem needsQuoting_eq_false {cs : List Char} (h : needsQuoting cs = false) :
    cs ≠ [] ∧ Plain cs := by
  simp only [needsQuoting, Bool.or_eq_false_iff, List.isEmpty_eq_false_iff, List.any_eq_false,
    Bool.not_eq_true] at h
  exact h

/-- A string has tokens, or its line is not read; it is none of those that come back then. -/
theorem textLine_or_fails (std : RustStd) (s : String) :
    (∃ kinds, TextLine std s kinds) ∨
      (∀ rest, Fails std false (serializeText false s ++ '\n' :: rest)) ∧
        ¬ ReadsBack std s ∧ ¬ NameReadsBack std s := by
  cases hquoted : needsQuoting s.toList with
  | true => exact .inl ⟨_, textLine_quoted hquoted⟩
  | false =>
    obtain ⟨hne, hplain⟩ := needsQuoting_eq_false hquoted
    have htext : serializeText false s = s.toList := by simp [serializeText, hquoted]
    have hback : ReadsBack std s ↔ Bare std s.toList := by simp [ReadsBack, hquoted]
    have hname : NameReadsBack std s ↔ BareName std s.toList := by simp [NameReadsBack, hquoted]
    rw [htext]
    by_cases hline : ∃ kinds, Line std s.toList kinds
    · obtain ⟨kinds, h⟩ := hline
      refine .inl ⟨kinds, htext ▸ h.readsAs hplain, line_noContainer h, ?_, ?_⟩
      · intro tokens rest newline htokens
        have := @parsePlain_line std newline rest _ _ h hne _ htokens
        rwa [String.ofList_toList, ← hback] at this
      · intro tokens rest newline htokens
        have := @parseOptionalName_line std newline rest _ _ h hne _ htokens
        rwa [String.ofList_toList, ← hname] at this
    · refine .inr ⟨(line_or_fails _ hplain).resolve_left hline, ?_, ?_⟩
      · exact fun h => hline (hback.mp h).line
      · exact fun h => hline (hname.mp h).line

/-! ## Documents that are read back -/

/-- Its name and its values are strings that come back. -/
def SpanReadsBack (std : RustStd) (span : LogLineSpan) : Prop :=
  (∀ name, span.name = some name → NameReadsBack std name) ∧
    ∀ p ∈ span.params, ∀ s, p.2 = .str s → ReadsBack std s

/-- Outside of any container the value of a line is plain. -/
theorem TextLine.parseValue {s : String} {kinds : List TokenKind} (h : TextLine std s kinds)
    {tail : Position} {fuel : Nat} {tokens rest : List Token} {newline : Span}
    (htokens : OfKinds tokens kinds) :
    parseValue std tail (fuel + 1) 0 (tokens ++ ⟨.newline, newline⟩ :: rest) =
      .ok (parsePlain std (tokens ++ ⟨.newline, newline⟩ :: rest)) := by
  have hhead : currentKind (tokens ++ ⟨.newline, newline⟩ :: rest) ≠ some .leftBrace ∧
      currentKind (tokens ++ ⟨.newline, newline⟩ :: rest) ≠ some .leftBracket := by
    cases tokens with
    | nil => simp [currentKind]
    | cons token tokens =>
      obtain ⟨hbrace, hbracket⟩ := h.noContainer token.kind
        (htokens ▸ List.mem_map_of_mem List.mem_cons_self)
      exact ⟨fun heq => hbrace (Option.some.inj heq), fun heq => hbracket (Option.some.inj heq)⟩
  exact parseValue_plain (by decide) hhead.1 hhead.2

theorem TextLine.parsesLine {s : String} {kinds : List TokenKind} (h : TextLine std s kinds)
    (hs : ReadsBack std s) : ParsesLine std kinds (.str s) := by
  intro tail tokens rest newline htokens
  obtain ⟨hvalue, hrest⟩ := h.value tokens rest newline htokens
  refine (Settles.const _).succ fun fuel => ?_
  rw [h.parseValue htokens]
  exact congrArg Except.ok (Prod.ext (hvalue.mpr hs) (hrest hs))

/-- The tokens of the name, if there is one. -/
def NameLine (std : RustStd) (name : Option String) (kinds : List TokenKind) : Prop :=
  match name with
  | none => kinds = []
  | some s => TextLine std s kinds

theorem NameLine.readsAs {name : Option String} {kinds : List TokenKind}
    (h : NameLine std name kinds) : ReadsAs std (serializeName name) kinds := by
  cases name with
  | none =>
    obtain rfl := h
    exact fun cs => reads_newline
  | some s => exact fun cs => (h.reads cs).space (by simp)

theorem NameLine.parse {name : Option String} {kinds : List TokenKind}
    (h : NameLine std name kinds) (tokens rest : List Token) (newline : Span)
    (htokens : OfKinds tokens kinds) :
    ((parseOptionalName std (tokens ++ ⟨.newline, newline⟩ :: rest)).1 = name ↔
        ∀ s, name = some s → NameReadsBack std s) ∧
      ((∀ s, name = some s → NameReadsBack std s) →
        (parseOptionalName std (tokens ++ ⟨.newline, newline⟩ :: rest)).2 =
          ⟨.newline, newline⟩ :: rest) := by
  cases name with
  | none =>
    obtain rfl := h
    obtain rfl := List.map_eq_nil_iff.mp htokens
    exact ⟨iff_of_true rfl (by simp), fun _ => rfl⟩
  | some s => simpa using h.name tokens rest newline htokens

theorem eq_of_eq_str {value : LogLineValue} {s : String} (h : value.eq (.str s)) :
    value = .str s := by
  cases value with
  | str s' => exact congrArg _ (of_decide_eq_true h)
  | _ => cases h

/-- What is parsed from a parameter whose value is a string. -/
theorem TextLine.parseParam {s key : String} {kinds : List TokenKind} (h : TextLine std s kinds)
    (hkey : IsKey key) {tail : Position} {fuel : Nat} {tokens rest : List Token}
    {word colon newline : Span} (htokens : OfKinds tokens kinds)
    {q : (String × LogLineValue) × List Token}
    (hparse : parseParam std tail fuel 0 (⟨.identifier (String.ofList (upperKey key)), word⟩ ::
      ⟨.colon, colon⟩ :: (tokens ++ ⟨.newline, newline⟩ :: rest)) = .ok q) :
    q = ((key, (parsePlain std (tokens ++ ⟨.newline, newline⟩ :: rest)).1),
      (parsePlain std (tokens ++ ⟨.newline, newline⟩ :: rest)).2) := by
  match fuel, hparse with
  | 0, hparse => cases hparse
  | 1, hparse => cases hparse
  | fuel + 2, hparse =>
    rw [parseParam_colon, h.parseValue htokens, toLowercase_upperKey hkey] at hparse
    exact (Except.ok.inj hparse).symm

/-- A value that is parsed as it was written comes back, and so does what is parsed behind it. -/
theorem readsBack_of_parseParams {kinds : LogLineValue → List TokenKind}
    {params params' : List (String × LogLineValue)}
    (hparams : ∀ p ∈ params, IsKey p.1 ∧ ∃ s, p.2 = .str s)
    (hlines : ∀ p ∈ params, ∀ s, p.2 = .str s → TextLine std s (kinds p.2))
    {tail : Position} {fuel : Nat} {tokens rest rest' : List Token} {newline : Span}
    (htokens : OfKinds tokens (paramsKinds kinds params))
    (hparse : parseParams std tail fuel (⟨.newline, newline⟩ :: (tokens ++ rest)) =
      .ok (params', rest')) (heq : fieldsEq params' params) :
    ∀ p ∈ params, ∀ s, p.2 = .str s → ReadsBack std s := by
  induction params generalizing params' fuel tokens newline with
  | nil => exact List.forall_mem_nil _
  | cons p params ih =>
    obtain ⟨key, value⟩ := p
    obtain ⟨⟨hkey, s, rfl⟩, hrests⟩ := List.forall_mem_cons.mp hparams
    obtain ⟨hline, hrestLines⟩ := List.forall_mem_cons.mp hlines
    rw [paramsKinds, List.flatMap_cons, lineKinds] at htokens
    simp only [List.cons_append, List.nil_append, List.append_assoc] at htokens
    obtain ⟨indent, ts₁, rfl, h₁⟩ := htokens.cons
    obtain ⟨word, ts₂, rfl, h₂⟩ := h₁.cons
    obtain ⟨colon, ts₃, rfl, h₃⟩ := h₂.cons
    obtain ⟨tsv, ts₄, rfl, hvalue, h₄⟩ := h₃.append
    obtain ⟨newline', ts₅, rfl, h₅⟩ := h₄.cons
    simp only [List.cons_append, List.append_assoc] at hparse
    cases fuel with
    | zero => cases hparse
    | succ fuel =>
      rw [parseParams_param rfl] at hparse
      obtain ⟨q, hq, hparse⟩ := bind_eq_ok.mp hparse
      obtain ⟨q', hq', hparse⟩ := bind_eq_ok.mp hparse
      obtain ⟨rfl, rfl⟩ := Prod.mk.inj (Except.ok.inj hparse)
      obtain rfl := (hline s rfl).parseParam hkey hvalue hq
      obtain ⟨hback, hrest⟩ := (hline s rfl).value tsv (ts₅ ++ rest) newline' hvalue
      simp only [fieldsEq, Bool.and_eq_true, decide_true, true_and] at heq
      have hs : ReadsBack std s := hback.mp (eq_of_eq_str heq.1)
      rw [hrest hs] at hq'
      refine List.forall_mem_cons.mpr ⟨?_, ih hrests hrestLines h₅ hq' heq.2⟩
      intro s' hs'
      obtain rfl := LogLineValue.str.inj hs'
      exact hs

theorem expectEnd_eq_ok {type : String} {name : Option String} {startSpan : Span}
    {params : List (String × LogLineValue)} {tokens : List Token} {span : LogLineSpan}
    (h : expectEnd (type, name, startSpan) params tokens = .ok span) :
    span.name = name ∧ span.params = params := by
  unfold expectEnd at h
  dsimp only at h
  split at h
  · obtain rfl := Except.ok.inj h
    exact ⟨rfl, rfl⟩
  · cases h

/-- A line that is not read makes the document unreadable. -/
theorem params_fail {params : List (String × LogLineValue)}
    (hparams : ∀ p ∈ params, IsKey p.1 ∧ ∃ s, p.2 = .str s)
    (hno : ∃ p ∈ params, ∃ s, p.2 = .str s ∧ ¬ ∃ kinds, TextLine std s kinds) (cs : List Char) :
    Fails std true (serializeParams std (written false) params ++ cs) := by
  induction params with
  | nil => obtain ⟨p, hp, -⟩ := hno; cases hp
  | cons p params ih =>
    obtain ⟨key, value⟩ := p
    obtain ⟨⟨hkey, s, rfl⟩, hrests⟩ := List.forall_mem_cons.mp hparams
    have hkey : IsKey key := hkey
    have hvalue : serializeValue std (written false) 1 (.str s) = serializeText false s := by
      rw [serializeValue]
      rfl
    have htext : serializeParams std (written false) ((key, .str s) :: params) ++ cs =
        List.replicate 2 ' ' ++ (upperKey key ++ ':' :: ' ' ::
          (serializeText false s ++ '\n' ::
            (serializeParams std (written false) params ++ cs))) := by
      simp [serializeParams, indent_written, serializeKeyword_written hkey, hvalue]
    rw [htext]
    rcases textLine_or_fails std s with ⟨kinds, hline⟩ | ⟨hfails, -⟩
    · refine .reads (reads_line (by decide) hkey hline.reads (.nil _ _)) (ih hrests ?_)
      obtain ⟨p, hp, s', hs', hno⟩ := hno
      rcases List.mem_cons.mp hp with rfl | hp
      · obtain rfl := LogLineValue.str.inj hs'
        exact absurd ⟨kinds, hline⟩ hno
      · exact ⟨p, hp, s', hs', hno⟩
    · exact .reads (reads_lineStart (by decide) hkey _) (hfails _).space

section Documents

variable {span : LogLineSpan} (htype : IsKey span.type)
  (hparams : ∀ p ∈ span.params, IsKey p.1 ∧ ∃ s, p.2 = .str s)

/-- Every line of the document has its tokens. -/
structure HasLines (std : RustStd) (span : LogLineSpan) (nameKinds : List TokenKind)
    (kinds : LogLineValue → List TokenKind) : Prop where
  name : NameLine std span.name nameKinds
  params : ∀ p ∈ span.params, ∀ s, p.2 = .str s → TextLine std s (kinds p.2)

theorem fieldsEq_strings {params : List (String × LogLineValue)}
    (h : ∀ p ∈ params, ∃ s, p.2 = .str s) : fieldsEq params params := by
  induction params with
  | nil => rfl
  | cons p params ih =>
    obtain ⟨⟨s, hs⟩, hrest⟩ := List.forall_mem_cons.mp h
    obtain ⟨key, value⟩ := p
    obtain rfl : value = .str s := hs
    simp [fieldsEq, LogLineValue.eq, ih hrest]

include htype hparams

theorem HasLines.reads {nameKinds : List TokenKind} {kinds : LogLineValue → List TokenKind}
    (h : HasLines std span nameKinds kinds) :
    Reads std true (serializeLogline std span).toList (documentKinds span nameKinds kinds) false
      [] := by
  refine reads_document (q := false) htype h.name.readsAs (fun p hp => (hparams p hp).1)
    fun p hp => ?_
  obtain ⟨s, hs⟩ := (hparams p hp).2
  have hreads := (h.params p hp s hs).reads
  rwa [hs] at hreads ⊢

/-- Where all strings come back, so does the document. -/
theorem HasLines.settles {nameKinds : List TokenKind} {kinds : LogLineValue → List TokenKind}
    (h : HasLines std span nameKinds kinds) (hback : SpanReadsBack std span) :
    ∃ span', Settles (fun fuel => parseLogline std fuel (serializeLogline std span)) (.ok span') ∧
      span'.SameContent span := by
  have hreads : ∀ p ∈ span.params,
      ReadsAs std (serializeValue std (written false) 1 p.2) (kinds p.2) := by
    intro p hp
    obtain ⟨s, hs⟩ := (hparams p hp).2
    have := (h.params p hp s hs).reads
    rwa [hs] at this ⊢
  have hparses : ∀ p ∈ span.params, ParsesLine std (kinds p.2) (id p.2) := by
    intro p hp
    obtain ⟨s, hs⟩ := (hparams p hp).2
    have := (h.params p hp s hs).parsesLine (hback.2 p hp s hs)
    rwa [hs] at this ⊢
  have hnamed : NamedAs std nameKinds span.name := by
    intro tokens rest newline htokens
    obtain ⟨hname, hrest⟩ := h.name.parse tokens rest newline htokens
    exact Prod.ext (hname.mpr hback.1) (hrest hback.1)
  obtain ⟨position, hsettles⟩ := parseLogline_settles (q := false) htype
    (fun p hp => (hparams p hp).1) h.name.readsAs hnamed hreads hparses
  refine ⟨_, hsettles, rfl, rfl, ?_⟩
  have hmap : span.params.map (Prod.map id id) = span.params := by simp
  rw [hmap]
  exact fieldsEq_strings fun p hp => (hparams p hp).2

/-- Where the document comes back, so do all strings. -/
theorem HasLines.readsBack {nameKinds : List TokenKind} {kinds : LogLineValue → List TokenKind}
    (h : HasLines std span nameKinds kinds) {span' : LogLineSpan}
    (hsettles : Settles (fun fuel => parseLogline std fuel (serializeLogline std span)) (.ok span'))
    (hsame : span'.SameContent span) : SpanReadsBack std span := by
  obtain ⟨tokens, ⟨n, htokenize⟩, htokens⟩ := (h.reads htype hparams).tokenize lexes_eof
    ⟨0, 1, 1, true⟩ rfl
  obtain ⟨n', hparse⟩ := hsettles
  replace hparse := hparse _ (le_max_right n n')
  replace htokenize := htokenize _ (le_max_left n n')
  have hblank : trim (serializeLogline std span).toList ≠ [] := trim_document (q := false) htype
  simp only [parseLogline, if_neg hblank, Tokenizer.new, htokenize, bind_ok] at hparse
  -- the header, the name and what stands behind it
  simp only [documentKinds, List.cons_append, List.append_assoc] at htokens
  obtain ⟨word, ts₁, rfl, h₁⟩ := OfKinds.cons htokens
  obtain ⟨colon, ts₂, rfl, h₂⟩ := h₁.cons
  obtain ⟨tsn, ts₃, rfl, hn, h₃⟩ := h₂.append
  obtain ⟨newline, ts₄, rfl, h₄⟩ := h₃.cons
  obtain ⟨tsp, ts₅, rfl, hp, -⟩ := h₄.append
  obtain ⟨hname, hrest⟩ := h.name.parse tsn (tsp ++ ts₅) newline hn
  obtain ⟨q, hq, hparse⟩ := bind_eq_ok.mp hparse
  obtain ⟨q', hq', hparse⟩ := bind_eq_ok.mp hparse
  have hheader : q = ((std.toLowercase (String.ofList (upperKey span.type)),
      (parseOptionalName std (tsn ++ ⟨.newline, newline⟩ :: (tsp ++ ts₅))).1, word),
      (parseOptionalName std (tsn ++ ⟨.newline, newline⟩ :: (tsp ++ ts₅))).2) :=
    (Except.ok.inj hq).symm
  subst hheader
  obtain ⟨params', tokens'⟩ := q'
  obtain ⟨hspanName, hspanParams⟩ := expectEnd_eq_ok hparse
  obtain ⟨-, hsameName, hsameParams⟩ := hsame
  have hback := hname.mp (hspanName.symm.trans hsameName)
  rw [hrest hback] at hq'
  exact ⟨hback, readsBack_of_parseParams hparams h.params hp hq' (hspanParams ▸ hsameParams)⟩

/-- A document has its lines, or it is not read; not all its strings come back then. -/
theorem hasLines_or_fails (std : RustStd) :
    (∃ nameKinds kinds, HasLines std span nameKinds kinds) ∨
      Fails std true (serializeLogline std span).toList ∧ ¬ SpanReadsBack std span := by
  have htext := @toList_serializeWithOptions std false _ htype
  change (serializeLogline std span).toList = _ at htext
  rw [htext]
  by_cases hname : ∃ nameKinds, NameLine std span.name nameKinds
  · obtain ⟨nameKinds, hname⟩ := hname
    by_cases hvalues : ∃ p ∈ span.params, ∃ s, p.2 = .str s ∧ ¬ ∃ kinds, TextLine std s kinds
    · refine .inr ⟨.reads (reads_header htype _) (.reads (hname.readsAs _)
        (params_fail hparams hvalues _)), fun hback => ?_⟩
      obtain ⟨p, hp, s, hs, hno⟩ := hvalues
      exact ((textLine_or_fails std s).resolve_left hno).2.1 (hback.2 p hp s hs)
    · push Not at hvalues
      have hkinds : ∀ v : LogLineValue, ∃ kinds, ∀ s, v = .str s →
          (∃ p ∈ span.params, p.2 = v) → TextLine std s kinds := by
        intro v
        cases v with
        | str s =>
          by_cases hp : ∃ p ∈ span.params, p.2 = .str s
          · obtain ⟨p, hp, hs⟩ := hp
            obtain ⟨kinds, h⟩ := hvalues p hp s hs
            exact ⟨kinds, fun s' hs' _ => LogLineValue.str.inj hs' ▸ h⟩
          · exact ⟨[], fun _ _ h => absurd h hp⟩
        | _ => exact ⟨[], fun s hs => by cases hs⟩
      choose kinds hkinds using hkinds
      exact .inl ⟨nameKinds, kinds, hname, fun p hp s hs => hkinds p.2 s hs ⟨p, hp, rfl⟩⟩
  · cases hspan : span.name with
    | none => exact absurd ⟨[], by rw [hspan]; rfl⟩ hname
    | some s =>
      have hno : ¬ ∃ kinds, TextLine std s kinds :=
        fun ⟨kinds, h⟩ => hname ⟨kinds, by rw [hspan]; exact h⟩
      obtain ⟨hfails, -, hback⟩ := (textLine_or_fails std s).resolve_left hno
      refine .inr ⟨.reads (reads_header htype _) ?_, fun h => hback (h.1 s hspan)⟩
      rw [serializeName]
      exact (hfails _).space

end Documents

/-- A document that is read back has strings that come back only. -/
theorem spanReadsBack_of_parse {std : RustStd} {span : LogLineSpan} (htype : IsKey span.type)
    (hparams : ∀ p ∈ span.params, IsKey p.1 ∧ ∃ s, p.2 = .str s)
    (h : ∃ span', Settles (fun fuel => parseLogline std fuel (serializeLogline std span))
      (.ok span') ∧ span'.SameContent span) : SpanReadsBack std span := by
  obtain ⟨span', hsettles, hsame⟩ := h
  rcases hasLines_or_fails htype hparams std with ⟨nameKinds, kinds, h⟩ | ⟨hfails, -⟩
  · exact h.readsBack htype hparams hsettles hsame
  · obtain ⟨n, hsettles⟩ := hsettles
    have hparse := hsettles n le_rfl
    have hblank : trim (serializeLogline std span).toList ≠ [] := trim_document (q := false) htype
    simp only [parseLogline, if_neg hblank] at hparse
    obtain ⟨tokens, htokens, -⟩ := bind_eq_ok.mp hparse
    exact absurd htokens (hfails ⟨0, 1, 1, true⟩ rfl n tokens)

/-- The document is read back, with the same type, name and params, exactly when its name and its
values are strings that come back. -/
theorem serialize_parse_default_iff (std : RustStd) (span : LogLineSpan) (htype : IsKey span.type)
    (hparams : ∀ p ∈ span.params, IsKey p.1 ∧ ∃ s, p.2 = .str s) :
    (∃ span', Settles (fun fuel => parseLogline std fuel (serializeLogline std span)) (.ok span') ∧
      span'.SameContent span) ↔ SpanReadsBack std span := by
  refine ⟨spanReadsBack_of_parse htype hparams, fun hback => ?_⟩
  rcases hasLines_or_fails htype hparams std with ⟨nameKinds, kinds, h⟩ | ⟨-, hnot⟩
  · exact h.settles htype hparams hback
  · exact absurd hback hnot

/-- Two words with a space between them. -/
theorem serialize_parse_default_sample :
    ∃ span', Settles (fun fuel => parseLogline .ascii fuel (serializeLogline .ascii
        ⟨"task", none, [("title", .str "two words")], none⟩)) (.ok span') ∧
      span'.SameContent ⟨"task", none, [("title", .str "two words")], none⟩ := by
  have hkey : ∀ key ∈ ["task", "title"], IsKey key := by
    simp only [List.forall_mem_cons, List.not_mem_nil, false_implies, implies_true, and_true]
    exact ⟨⟨by simp, by simp [isKeyChar], by simp⟩, ⟨by simp, by simp [isKeyChar], by simp⟩⟩
  have htwo : IsWord .ascii ['t', 'w', 'o'] :=
    ⟨isIdentifier_letters (by simp) (by simp), by decide +kernel⟩
  have hwords : IsWord .ascii ['w', 'o', 'r', 'd', 's'] :=
    ⟨isIdentifier_letters (by simp) (by simp), by decide +kernel⟩
  refine (serialize_parse_default_iff .ascii ⟨"task", none, [("title", .str "two words")], none⟩
    (hkey "task" (by simp)) (by simp [hkey])).mpr ⟨by simp, ?_⟩
  rintro p hp s hs
  obtain rfl := List.mem_singleton.mp hp
  obtain rfl := LogLineValue.str.inj hs
  exact .inr (.phrase htwo (.part (.inl hwords)))

/-- A string of digits comes back as a number. -/
theorem digits_do_not_come_back :
    ¬ ∃ span', Settles (fun fuel => parseLogline .ascii fuel (serializeLogline .ascii
        ⟨"task", none, [("title", .str "12")], none⟩)) (.ok span') ∧
      span'.SameContent ⟨"task", none, [("title", .str "12")], none⟩ := by
  have hkey : ∀ key ∈ ["task", "title"], IsKey key := by
    simp only [List.forall_mem_cons, List.not_mem_nil, false_implies, implies_true, and_true]
    exact ⟨⟨by simp, by simp [isKeyChar], by simp⟩, ⟨by simp, by simp [isKeyChar], by simp⟩⟩
  intro h
  have hback := spanReadsBack_of_parse (hkey "task" (by simp)) (by simp [hkey]) h
  have hnumber : startsNumber .ascii "12".toList := by decide
  rcases hback.2 _ List.mem_cons_self "12" rfl with hquoted | hbare
  · revert hquoted
    decide
  · generalize "12".toList = cs at hnumber hbare
    cases hbare with
    | word h =>
      rw [← List.append_nil cs, startsNumber_identifier h.1] at hnumber
      cases hnumber
    | rest h =>
      cases cs with
      | nil => exact h.1
      | cons c cs =>
        rw [h.1.2.1] at hnumber
        cases hnumber
    | phrase h _ =>
      rw [startsNumber_identifier h.1] at hnumber
      cases hnumber

end Ubl.Logline
