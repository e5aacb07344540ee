import Ubl.Logline.Numerals
import Ubl.Logline.Walk

/-!
# When `parse_logline` returns

A call returns unless the walk over the tokens of the document comes to a `:`, a `}` or END where
the next item of an array should begin, or the build checks `usize` arithmetic and a line is
indented by tabs too early in the text:

    ReturnsOn std input ↔ blank input ∨ ¬ Overflows … ∧ ¬ Stalls …     (parseLogline_returns_iff)
-/

namespace Ubl.Logline

open ExceptLemmas Fueled

theorem parseHeader_error {std : RustStd} {tokens : List Token} {e : Halt}
    (h : parseHeader std tokens = .error e) : e = .error .invalidHeader := by
  unfold parseHeader at h
  split at h
  · split at h
    · cases h
    · exact (Except.error.inj h).symm
  · exact (Except.error.inj h).symm

theorem expectEnd_returns (header : String × Option String × Span)
    (params : List (String × LogLineValue)) (tokens : List Token) :
    Returns (fun _ => True) (expectEnd header params tokens) := by
  unfold expectEnd
  dsimp only
  split <;> trivial

theorem Returns.ne {α : Type} {P : α → Prop} {x : Except Halt α} (h : Returns P x) :
    x ≠ .error .spent ∧ x ≠ .error .panic := by
  constructor <;> rintro rfl <;> exact h

/-- The tokens have a header, and the walk over what follows stalls. -/
def BodyStalls (std : RustStd) (tokens : List Token) : Prop :=
  ∃ header body, parseHeader std (skipWhitespace tokens) = .ok (header, body) ∧
    stalls [] .item body

/-- What the parser makes of the tokens of a document. -/
theorem parse_fate (std : RustStd) (tokens : List Token) :
    (∃ r, Fate .spent (fun fuel => parse std fuel tokens) (some r) ∧ r ≠ .error .panic ∧
        ¬ BodyStalls std tokens) ∨
      Fate .spent (fun fuel => parse std fuel tokens) none ∧ BodyStalls std tokens := by
  cases hheader : parseHeader std (skipWhitespace tokens) with
  | error e =>
    obtain rfl := parseHeader_error hheader
    have hturn : (fun fuel => parse std fuel tokens) = fun _ => .error (.error .invalidHeader) := by
      funext fuel
      rw [parse, hheader]
      rfl
    refine .inl ⟨.error (.error .invalidHeader), hturn ▸ .const (by simp), by simp, ?_⟩
    rintro ⟨header, body, h, -⟩
    rw [hheader] at h
    cases h
  | ok p =>
    obtain ⟨header, body⟩ := p
    have hturn : (fun fuel => parse std fuel tokens) = fun fuel =>
        parseParams std (((tokens.getLast?).map (·.span.stop)).getD ⟨0, 0, 0⟩) fuel body >>=
          fun q => expectEnd header q.1 q.2 := by
      funext fuel
      rw [parse, hheader]
      rfl
    have hstalls : BodyStalls std tokens ↔ stalls [] .item body := by
      constructor
      · rintro ⟨header', body', h, hw⟩
        obtain ⟨-, rfl⟩ := Prod.mk.inj (Except.ok.inj (hheader.symm.trans h))
        exact hw
      · exact fun hw => ⟨header, body, hheader, hw⟩
    rw [hturn, hstalls]
    rcases parseParams_tracks std (((tokens.getLast?).map (·.span.stop)).getD ⟨0, 0, 0⟩) body with
      ⟨r, hr, hpanic, hw⟩ | ⟨hr, hw⟩
    · rw [hw]
      cases r with
      | ok q =>
        have hend := (expectEnd_returns header q.1 q.2).ne
        exact .inl ⟨_, hr.bind (.const hend.1), hend.2, Bool.false_ne_true⟩
      | error e =>
        refine .inl ⟨_, hr.bind_error, ?_, Bool.false_ne_true⟩
        exact fun heq => hpanic (congrArg Except.error (Except.error.inj heq))
    · exact .inr ⟨hr.bind_never, hw⟩

/-- The input is a sequence of tokens, and the walk over them stalls. -/
def Stalls (std : RustStd) (input : String) : Prop :=
  ∃ fuel tokens, tokenize std fuel (Tokenizer.new input) = .ok tokens ∧ BodyStalls std tokens

/-- `parse_logline` returns `Ok` or `Err`. -/
def ReturnsOn (std : RustStd) (input : String) : Prop :=
  ∃ fuel, Returns (fun _ => True) (parseLogline std fuel input)

/-- The text is one that `parse_logline` comes to an end with. -/
def Finishes (std : RustStd) (input : String) : Prop :=
  trim input.toList = [] ∨ ¬ Overflows std (Tokenizer.new input) ∧ ¬ Stalls std input

theorem returns_of_ne {α : Type} {r : Except Halt α} (hspent : r ≠ .error .spent)
    (hpanic : r ≠ .error .panic) : Returns (fun _ => True) r := by
  cases r with
  | ok a => trivial
  | error e =>
    cases e with
    | error e => trivial
    | panic => exact hpanic rfl
    | spent => exact hspent rfl

theorem parseLogline_fate (std : RustStd) (input : String) :
    ∃ o, Fate .spent (fun fuel => parseLogline std fuel input) o ∧
      ((∃ r, o = some r ∧ Returns (fun _ => True) r) ↔ Finishes std input) := by
  by_cases hblank : trim input.toList = []
  · have hturn : (fun fuel => parseLogline std fuel input) = fun _ => .error (.error .emptyInput) := by
      funext fuel
      rw [parseLogline, if_pos hblank]
    rw [hturn]
    exact ⟨some (.error (.error .emptyInput)), .const (by simp), fun _ => .inl hblank,
      fun _ => ⟨_, rfl, trivial⟩⟩
  have hturn : (fun fuel => parseLogline std fuel input) = fun fuel =>
      tokenize std fuel (Tokenizer.new input) >>= fun tokens => parse std fuel tokens := by
    funext fuel
    rw [parseLogline, if_neg hblank]
  have hfinishes : Finishes std input ↔
      ¬ Overflows std (Tokenizer.new input) ∧ ¬ Stalls std input :=
    ⟨fun h => h.resolve_left hblank, .inr⟩
  rw [hturn, hfinishes]
  obtain ⟨r, hfate, hpanic⟩ := tokenize_fate std (Tokenizer.new input)
  rw [← hpanic]
  -- whatever the fuel, the tokens are those of `r`
  have hstalls : Stalls std input ↔ ∃ tokens, r = .ok tokens ∧ BodyStalls std tokens := by
    cases hfate with
    | ends hr hstable hsettles =>
      constructor
      · rintro ⟨fuel, tokens, htokens, hbody⟩
        rcases hstable fuel with h | h
        · exact ⟨tokens, h.symm.trans htokens, hbody⟩
        · cases h.symm.trans htokens
      · rintro ⟨tokens, rfl, hbody⟩
        obtain ⟨n, hn⟩ := hsettles
        exact ⟨n, tokens, hn n le_rfl, hbody⟩
  rw [hstalls]
  cases r with
  | error e =>
    refine ⟨_, hfate.bind_error, ?_⟩
    cases hfate with
    | ends hr _ _ =>
      constructor
      · rintro ⟨r, hr', hreturns⟩
        obtain rfl := Option.some.inj hr'
        exact ⟨fun h => by obtain rfl := Except.error.inj h; exact hreturns,
          fun ⟨tokens, h, _⟩ => (by cases h)⟩
      · rintro ⟨hpanic, -⟩
        exact ⟨_, rfl, returns_of_ne (fun h => hr (congrArg Except.error (Except.error.inj h)))
          fun h => hpanic (congrArg Except.error (Except.error.inj h))⟩
  | ok tokens =>
    have hbody : (∃ tokens', (.ok tokens : Except Halt (List Token)) = .ok tokens' ∧
        BodyStalls std tokens') ↔ BodyStalls std tokens :=
      ⟨fun ⟨_, h, hb⟩ => Except.ok.inj h ▸ hb, fun hb => ⟨tokens, rfl, hb⟩⟩
    rw [hbody]
    rcases parse_fate std tokens with ⟨r, hr, hne, hw⟩ | ⟨hr, hw⟩
    · refine ⟨some r, hfate.bind hr, fun _ => ⟨by simp, hw⟩, fun _ => ⟨r, rfl, ?_⟩⟩
      cases hr with
      | ends hspent _ _ => exact returns_of_ne hspent hne
    · exact ⟨none, hfate.bind hr, fun ⟨r, h, _⟩ => (by cases h), fun h => absurd hw h.2⟩

/-- **When the parser comes to an end.** -/
theorem parseLogline_returns_iff (std : RustStd) (input : String) :
    ReturnsOn std input ↔ Finishes std input := by
  obtain ⟨o, hfate, ho⟩ := parseLogline_fate std input
  exact (hfate.exists_iff (P := Returns fun _ => True) id).trans ho

/-- The walk over the tokens that so much fuel gives. -/
def stallsWithin (std : RustStd) (fuel : Nat) (input : String) : Bool :=
  match tokenize std fuel (Tokenizer.new input) with
  | .error _ => false
  | .ok tokens =>
    match parseHeader std (skipWhitespace tokens) with
    | .error _ => false
    | .ok (_, body) => stalls [] .item body

theorem stalls_of_within {std : RustStd} {fuel : Nat} {input : String}
    (h : stallsWithin std fuel input) : Stalls std input := by
  unfold stallsWithin at h
  split at h
  · cases h
  · next tokens htokens =>
    split at h
    · cases h
    · next header body hheader => exact ⟨fuel, tokens, htokens, header, body, hheader, h⟩

/-- An array without its closing bracket. -/
def openArray : String := "JOB: x\n  TAGS: [1\nEND"

/-- The parser adds empty strings to the array for ever. -/
theorem openArray_never_returns : ¬ ReturnsOn .ascii openArray := by
  obtain ⟨o, hfate, ho⟩ := parseLogline_fate .ascii openArray
  have hstalls : Stalls .ascii openArray :=
    @stalls_of_within _ 30 _ (by decide +kernel)
  rw [ReturnsOn, hfate.exists_iff (P := Returns fun _ => True) id, ho]
  rintro (hblank | ⟨-, h⟩)
  · exact absurd hblank (by decide +kernel)
  · exact h hstalls

end Ubl.Logline
