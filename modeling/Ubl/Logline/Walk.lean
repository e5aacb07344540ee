import Ubl.Logline.Parser
import Ubl.Logline.Progress

/-!
# Where the parser does not come to an end

`stalls` walks over the tokens of a document once, with a stack of the containers that are open.
It finds the one kind of place at which the parser makes no progress: an array in which the next
item should begin, and a `:`, a `}` or END stands instead.  `parse_value` makes `""` of any of
these and leaves it where it is, so `parse_array` adds empty strings for ever.
-/

namespace Ubl.Logline

open ExceptLemmas Fueled

/-- A container that is open. -/
inductive Frame where
  | object
  | array
deriving DecidableEq

/-- What is expected next: a turn of the innermost loop, what follows a key, a value, or more of
a text without quotes. -/
inductive Mode where
  | item
  | key
  | value
  | text
deriving DecidableEq

inductive Move where
  | halt
  | stall
  | go (stack : List Frame) (mode : Mode)
deriving DecidableEq

/-- The token that begins a value; `otherwise` for one that begins none. -/
def startMove (stack : List Frame) (otherwise : Move) : TokenKind → Move
  | .string _ | .number _ | .boolean _ => .go stack .item
  | .identifier _ => .go stack .text
  | .leftBrace => .go (.object :: stack) .item
  | .leftBracket => .go (.array :: stack) .item
  | _ => otherwise

/-- A token where a value is expected. -/
def valueMove (stack : List Frame) (otherwise : Move) (kind : TokenKind) : Move :=
  if maxNestingDepth < stack.length then .halt else startMove stack otherwise kind

/-- A token at the head of the innermost loop. -/
def itemMove : List Frame → TokenKind → Move
  | stack, .newline | stack, .indent _ => .go stack .item
  | _, .eof => .halt
  | [], .endMarker | [], .rightBrace => .halt
  | .object :: outer, .rightBrace => .go outer .item
  | .array :: outer, .rightBracket => .go outer .item
  | .array :: outer, .comma => valueMove (.array :: outer) (.go (.array :: outer) .item) .comma
  | .array :: outer, kind => valueMove (.array :: outer) .stall kind
  | stack, .identifier _ => .go stack .key
  | stack, _ => .go stack .item

/-- A text goes on up to the end of the line or a delimiter. -/
def endsText : TokenKind → Bool
  | .newline | .endMarker | .eof | .leftBrace | .leftBracket | .rightBrace | .rightBracket
  | .comma => true
  | _ => false

def move (stack : List Frame) : Mode → TokenKind → Move
  | .item, kind => itemMove stack kind
  | .key, .colon => .go stack .value
  | .key, kind => itemMove stack kind
  | .value, kind => valueMove stack (itemMove stack kind) kind
  | .text, kind => if endsText kind then itemMove stack kind else .go stack .text

/-- The walk comes to a place where the parser stalls. -/
def stalls : List Frame → Mode → List Token → Bool
  | _, _, [] => false
  | stack, mode, token :: tokens =>
    match move stack mode token.kind with
    | .halt => false
    | .stall => true
    | .go stack mode => stalls stack mode tokens

variable {std : RustStd} {tail : Position}

/-! ## What the walk passes over -/

theorem stalls_skipWhitespace (stack : List Frame) (tokens : List Token) :
    stalls stack .item (skipWhitespace tokens) = stalls stack .item tokens := by
  induction tokens with
  | nil => rfl
  | cons token tokens ih =>
    obtain ⟨kind, span⟩ := token
    unfold skipWhitespace at ih ⊢
    cases kind <;> first | rfl | (rw [List.dropWhile_cons_of_pos rfl, ih]; simp [stalls, move, itemMove])

theorem skipWhitespace_length_le (tokens : List Token) :
    (skipWhitespace tokens).length ≤ tokens.length :=
  (List.dropWhile_suffix _).length_le

theorem optionalComma_length_le (tokens : List Token) :
    (optionalComma tokens).length ≤ tokens.length := by
  unfold optionalComma
  have hle := skipWhitespace_length_le tokens
  dsimp only
  split
  · exact (List.tail_suffix _).length_le.trans hle
  · exact hle

/-- Where a comma may follow, the walk passes over it. -/
theorem stalls_optionalComma {stack : List Frame}
    (hcomma : itemMove stack .comma = .go stack .item) (tokens : List Token) :
    stalls stack .item (optionalComma tokens) = stalls stack .item tokens := by
  rw [← stalls_skipWhitespace stack tokens]
  unfold optionalComma
  dsimp only
  split
  · next h =>
    cases hskip : skipWhitespace tokens with
    | nil => rfl
    | cons token rest =>
      rw [hskip] at h
      have hkind : token.kind = .comma := Option.some.inj h
      simp [stalls, move, hkind, hcomma]
  · rfl

theorem textPart_eq_none_iff (kind : TokenKind) : textPart std kind = none ↔ endsText kind := by
  cases kind <;> simp [textPart, endsText]

/-- The walk over a text stops where the text does. -/
theorem stalls_textParts (stack : List Frame) (tokens : List Token) :
    stalls stack .text tokens = stalls stack .item (textParts std tokens).2 ∧
      (textParts std tokens).2.length ≤ tokens.length := by
  induction tokens with
  | nil => exact ⟨rfl, le_rfl⟩
  | cons token tokens ih =>
    rw [textParts]
    cases hpart : textPart std token.kind with
    | none =>
      have hends := (textPart_eq_none_iff token.kind).mp hpart
      exact ⟨by simp only [stalls, move, if_pos hends], le_rfl⟩
    | some part =>
      have hends : ¬ endsText token.kind := fun h => by
        rw [(textPart_eq_none_iff token.kind).mpr h] at hpart
        cases hpart
      refine ⟨?_, ih.2.trans (Nat.le_succ _)⟩
      rw [stalls, move, if_neg hends]
      exact ih.1

/-! ## The walk and the parser -/

/-- `w` is what the walk finds from where `X` begins to read: whether `X` goes on for ever, or
else what is found behind the tokens that it has read. -/
inductive Tracks {α : Type} (X : Nat → Except Halt (α × List Token)) (stack : List Frame) (n : Nat)
    (w : Bool) : Prop
  | never (h : Fate .spent X none) (hw : w = true)
  | error (e : ParseError) (h : Fate .spent X (some (.error (.error e)))) (hw : w = false)
  | ok (a : α) (rest : List Token) (h : Fate .spent X (some (.ok (a, rest))))
      (hrest : rest.length ≤ n) (hw : w = stalls stack .item rest)

namespace Tracks

variable {α β : Type} {X Y : Nat → Except Halt (α × List Token)} {stack stack' : List Frame}
  {n n' : Nat} {w w' : Bool}

theorem of_ok {a : α} {rest : List Token} (hrest : rest.length ≤ n)
    (hw : w = stalls stack .item rest) : Tracks (fun _ => .ok (a, rest)) stack n w :=
  .ok a rest (.const (by simp)) hrest hw

theorem of_error {e : ParseError} (hw : w = false) :
    Tracks (fun _ => (.error (.error e) : Except Halt (α × List Token))) stack n w :=
  .error e (.const (by simp)) hw

theorem succ (h : Tracks Y stack n w) (hzero : X 0 = .error .spent)
    (hX : ∀ fuel, X (fuel + 1) = Y fuel) : Tracks X stack n w := by
  cases h with
  | never h hw => exact .never (h.succ hzero hX) hw
  | error e h hw => exact .error e (h.succ hzero hX) hw
  | ok a rest h hrest hw => exact .ok a rest (h.succ hzero hX) hrest hw

theorem bind {F : Nat → α × List Token → Except Halt (β × List Token)} (h : Tracks X stack n w)
    (hF : ∀ a rest, rest.length ≤ n →
      Tracks (fun fuel => F fuel (a, rest)) stack' n' (stalls stack .item rest)) :
    Tracks (fun fuel => X fuel >>= F fuel) stack' n' w := by
  cases h with
  | never h hw => exact .never h.bind_never hw
  | error e h hw => exact .error e h.bind_error hw
  | ok a rest h hrest hw =>
    subst hw
    cases hF a rest hrest with
    | never h' hw => exact .never (h.bind h') hw
    | error e h' hw => exact .error e (h.bind h') hw
    | ok b rest' h' hrest' hw => exact .ok b rest' (h.bind h') hrest' hw

/-- The first part is known to come to one result. -/
theorem bind_ok {F : Nat → α × List Token → Except Halt (β × List Token)} {a : α}
    {rest : List Token} (h : Fate .spent X (some (.ok (a, rest))))
    (hF : Tracks (fun fuel => F fuel (a, rest)) stack n w) :
    Tracks (fun fuel => X fuel >>= F fuel) stack n w := by
  cases hF with
  | never h' hw => exact .never (h.bind h') hw
  | error e h' hw => exact .error e (h.bind h') hw
  | ok b rest' h' hrest' hw => exact .ok b rest' (h.bind h') hrest' hw

theorem mono (h : Tracks X stack n w) (hn : n ≤ n') : Tracks X stack n' w := by
  cases h with
  | never h hw => exact .never h hw
  | error e h hw => exact .error e h hw
  | ok a rest h hrest hw => exact .ok a rest h (hrest.trans hn) hw

end Tracks

/-- The two loops, on fewer than `n` tokens. -/
def LoopsTrack (std : RustStd) (tail : Position) (n : Nat) : Prop :=
  ∀ (outer : List Frame) (tokens : List Token), tokens.length < n →
    Tracks (fun fuel => objectLoop std tail fuel (outer.length + 1) tokens) outer tokens.length
      (stalls (.object :: outer) .item tokens) ∧
    Tracks (fun fuel => arrayLoop std tail fuel (outer.length + 1) tokens) outer tokens.length
      (stalls (.array :: outer) .item tokens)

/-- Below the greatest depth a value is not refused. -/
theorem valueMove_shallow {stack : List Frame} (h : ¬ maxNestingDepth < stack.length)
    (otherwise : Move) {kind : TokenKind} (hstart : kind.isValueStart = false) :
    valueMove stack otherwise kind = otherwise := by
  rw [valueMove, if_neg h]
  cases kind <;> first | rfl | cases hstart

theorem valueMove_start (stack : List Frame) (o o' : Move) {kind : TokenKind}
    (hstart : kind.isValueStart) : valueMove stack o kind = valueMove stack o' kind := by
  cases kind <;> first | rfl | cases hstart

theorem valueMove_deep {stack : List Frame} (h : maxNestingDepth < stack.length)
    (otherwise : Move) (kind : TokenKind) : valueMove stack otherwise kind = .halt := if_pos h

/-- What begins no value is the empty string, and stays. -/
theorem parsePlain_empty {token : Token} (hstart : token.kind.isValueStart = false)
    (tokens : List Token) : parsePlain std (token :: tokens) = (.str "", token :: tokens) := by
  obtain ⟨kind, span⟩ := token
  cases kind <;> first | rfl | cases hstart

theorem parseValue_empty {depth : Nat} (h : ¬ maxNestingDepth < depth) {token : Token}
    (hstart : token.kind.isValueStart = false) (tokens : List Token) (fuel : Nat) :
    parseValue std tail (fuel + 1) depth (token :: tokens) = .ok (.str "", token :: tokens) := by
  have hne : ∀ kind : TokenKind, kind.isValueStart → currentKind (token :: tokens) ≠ some kind := by
    rintro kind hkind heq
    obtain rfl := Option.some.inj heq
    exact Bool.false_ne_true (hstart.symm.trans hkind)
  rw [parseValue_plain h (hne _ rfl) (hne _ rfl), parsePlain_empty hstart]

/-- A value takes the tokens that begin it. -/
theorem parseValue_tracks {n : Nat} (hloops : LoopsTrack std tail n) (stack : List Frame)
    {token : Token} {tokens : List Token} (hlen : tokens.length < n)
    (hstart : token.kind.isValueStart) :
    Tracks (fun fuel => parseValue std tail fuel stack.length (token :: tokens)) stack
      tokens.length (stalls stack .value (token :: tokens)) := by
  by_cases hdeep : maxNestingDepth < stack.length
  · refine Tracks.succ (Tracks.of_error ?_) rfl fun _ => parseValue_deep hdeep
    rw [stalls, move, valueMove_deep hdeep]
  · obtain ⟨kind, span⟩ := token
    have hwalk : stalls stack .value (⟨kind, span⟩ :: tokens) =
        match valueMove stack (itemMove stack kind) kind with
        | .halt => false
        | .stall => true
        | .go stack mode => stalls stack mode tokens := rfl
    rw [hwalk, valueMove, if_neg hdeep]
    have hplain : kind ≠ .leftBrace → kind ≠ .leftBracket →
        ∀ fuel, parseValue std tail (fuel + 1) stack.length (⟨kind, span⟩ :: tokens) =
          .ok (parsePlain std (⟨kind, span⟩ :: tokens)) := fun hbrace hbracket _ =>
      parseValue_plain hdeep (fun h => hbrace (Option.some.inj h))
        fun h => hbracket (Option.some.inj h)
    cases kind with
    | string s => exact Tracks.succ (Tracks.of_ok le_rfl rfl) rfl (hplain (by simp) (by simp))
    | number v => exact Tracks.succ (Tracks.of_ok le_rfl rfl) rfl (hplain (by simp) (by simp))
    | boolean b => exact Tracks.succ (Tracks.of_ok le_rfl rfl) rfl (hplain (by simp) (by simp))
    | identifier s =>
      obtain ⟨hstalls, hle⟩ := @stalls_textParts std stack tokens
      exact Tracks.succ (Tracks.of_ok hle hstalls) rfl (hplain (by simp) (by simp))
    | leftBrace =>
      have hobject := (hloops stack tokens hlen).1.succ
        (X := fun fuel => parseObject std tail fuel (stack.length + 1) (⟨.leftBrace, span⟩ :: tokens))
        rfl fun _ => rfl
      exact (hobject.bind (F := fun _ p => .ok (.object p.1, p.2)) fun fields rest hrest =>
        Tracks.of_ok hrest rfl).succ rfl fun _ => parseValue_leftBrace hdeep
    | leftBracket =>
      have harray := (hloops stack tokens hlen).2.succ
        (X := fun fuel => parseArray std tail fuel (stack.length + 1) (⟨.leftBracket, span⟩ :: tokens))
        rfl fun _ => rfl
      exact (harray.bind (F := fun _ p => .ok (.list p.1, p.2)) fun items rest hrest =>
        Tracks.of_ok hrest rfl).succ rfl fun _ => parseValue_leftBracket hdeep
    | _ => cases hstart

/-- A value after a key may take nothing at all. -/
theorem parseValue_tracks_le {n : Nat} (hloops : LoopsTrack std tail n) (stack : List Frame)
    {tokens : List Token} (hlen : tokens.length ≤ n) :
    Tracks (fun fuel => parseValue std tail fuel stack.length tokens) stack
      tokens.length (stalls stack .value tokens) := by
  cases tokens with
  | nil =>
    by_cases hdeep : maxNestingDepth < stack.length
    · exact Tracks.succ (Tracks.of_error rfl) rfl fun _ => parseValue_deep hdeep
    · exact Tracks.succ (Tracks.of_ok le_rfl rfl) rfl fun _ =>
        parseValue_plain hdeep (by simp [currentKind]) (by simp [currentKind])
  | cons token tokens =>
    cases hstart : token.kind.isValueStart with
    | true => exact (parseValue_tracks hloops stack hlen hstart).mono (Nat.le_succ _)
    | false =>
      by_cases hdeep : maxNestingDepth < stack.length
      · refine Tracks.succ (Tracks.of_error ?_) rfl fun _ => parseValue_deep hdeep
        rw [stalls, move, valueMove_deep hdeep]
      · refine Tracks.succ (Tracks.of_ok le_rfl ?_) rfl (parseValue_empty hdeep hstart tokens)
        rw [stalls, stalls, move, move, valueMove_shallow hdeep _ hstart]

/-- A parameter takes its key. -/
theorem parseParam_tracks {n : Nat} (hloops : LoopsTrack std tail n) (stack : List Frame)
    {s : String} {span : Span} {tokens : List Token} (hlen : tokens.length ≤ n) :
    Tracks (fun fuel => parseParam std tail fuel stack.length (⟨.identifier s, span⟩ :: tokens))
      stack tokens.length (stalls stack .key tokens) := by
  by_cases hcolon : currentKind tokens = some .colon
  · cases tokens with
    | nil => cases hcolon
    | cons token tokens =>
      obtain ⟨kind, span'⟩ := token
      obtain rfl : kind = .colon := Option.some.inj hcolon
      have hvalue := parseValue_tracks_le hloops stack ((Nat.le_succ _).trans hlen)
      exact (hvalue.bind (F := fun _ p => .ok ((std.toLowercase s, p.1), p.2))
        fun value rest hrest => Tracks.of_ok (hrest.trans (Nat.le_succ _)) rfl).succ rfl
          fun _ => parseParam_colon
  · refine Tracks.succ (Tracks.of_ok le_rfl ?_) rfl fun _ => parseParam_bare hcolon
    cases tokens with
    | nil => rfl
    | cons token tokens =>
      obtain ⟨kind, span'⟩ := token
      cases kind <;> first | rfl | exact absurd rfl hcolon

/-! ## The loops -/

theorem isBlank_of_skipWhitespace {tokens ts : List Token} {token : Token}
    (h : skipWhitespace tokens = token :: ts) : isBlank token = false := by
  by_contra hne
  rw [Bool.not_eq_false] at hne
  have hidem := List.dropWhile_idempotent isBlank tokens
  unfold skipWhitespace at h
  rw [h, List.dropWhile_cons_of_pos hne] at hidem
  have hle := (List.dropWhile_suffix isBlank (l := ts)).length_le
  rw [hidem, List.length_cons] at hle
  exact absurd hle (Nat.not_succ_le_self _)

theorem objectLoop_tracks {n : Nat} (hloops : LoopsTrack std tail n) (outer : List Frame)
    {tokens : List Token} (hlen : tokens.length ≤ n) :
    Tracks (fun fuel => objectLoop std tail fuel (outer.length + 1) tokens) outer tokens.length
      (stalls (.object :: outer) .item tokens) := by
  have hle := skipWhitespace_length_le tokens
  rw [← stalls_skipWhitespace]
  have hturn : ∀ fuel, objectLoop std tail (fuel + 1) (outer.length + 1) tokens = _ :=
    fun fuel => by rw [objectLoop]
  cases hskip : skipWhitespace tokens with
  | nil =>
    simp only [hskip] at hturn
    exact (Tracks.of_error rfl).succ rfl hturn
  | cons token ts =>
    have hblank := isBlank_of_skipWhitespace hskip
    rw [hskip, List.length_cons] at hle
    simp only [hskip] at hturn
    obtain ⟨kind, span⟩ := token
    have hlt : ts.length < n := hle.trans hlen
    cases kind with
    | newline => cases hblank
    | indent k => cases hblank
    | rightBrace => exact (Tracks.of_ok ((Nat.le_succ _).trans hle) rfl).succ rfl hturn
    | eof => exact (Tracks.of_error rfl).succ rfl hturn
    | identifier s =>
      have hparam := @parseParam_tracks _ _ _ hloops (.object :: outer) s span _ hlt.le
      refine (hparam.bind fun field rest hrest => ?_).succ rfl hturn
      have hcomma := optionalComma_length_le rest
      have hloop := (hloops outer (optionalComma rest) ((hcomma.trans hrest).trans_lt hlt)).1
      rw [stalls_optionalComma rfl] at hloop
      exact hloop.bind fun fields rest' hrest' =>
        Tracks.of_ok ((hrest'.trans (hcomma.trans hrest)).trans ((Nat.le_succ _).trans hle)) rfl
    | _ => exact ((hloops outer ts hlt).1.mono ((Nat.le_succ _).trans hle)).succ rfl hturn

/-- `parse_array` in front of a token that begins no value, ends no array and is no comma. -/
theorem arrayLoop_stuck {depth : Nat} (h : ¬ maxNestingDepth < depth) {kind : TokenKind}
    (hkind : kind = .colon ∨ kind = .rightBrace ∨ kind = .endMarker) (span : Span)
    (tokens : List Token) :
    Never .spent fun fuel => arrayLoop std tail fuel depth (⟨kind, span⟩ :: tokens) := by
  intro fuel
  have hstart : kind.isValueStart = false := by rcases hkind with rfl | rfl | rfl <;> rfl
  induction fuel with
  | zero => rfl
  | succ fuel ih =>
    have hturn : arrayLoop std tail (fuel + 1) depth (⟨kind, span⟩ :: tokens) =
        parseValue std tail fuel depth (⟨kind, span⟩ :: tokens) >>= fun p =>
          arrayLoop std tail fuel depth (optionalComma p.2) >>= fun q =>
            .ok (p.1 :: q.1, q.2) := by
      rcases hkind with rfl | rfl | rfl <;> rfl
    have hcomma : optionalComma (⟨kind, span⟩ :: tokens) = ⟨kind, span⟩ :: tokens := by
      rcases hkind with rfl | rfl | rfl <;> rfl
    simp only [hturn]
    cases fuel with
    | zero => rfl
    | succ fuel =>
      rw [parseValue_empty h hstart, ExceptLemmas.bind_ok, hcomma]
      simp only [ih]
      rfl

theorem arrayLoop_tracks {n : Nat} (hloops : LoopsTrack std tail n) (outer : List Frame)
    {tokens : List Token} (hlen : tokens.length ≤ n) :
    Tracks (fun fuel => arrayLoop std tail fuel (outer.length + 1) tokens) outer tokens.length
      (stalls (.array :: outer) .item tokens) := by
  have hle := skipWhitespace_length_le tokens
  rw [← stalls_skipWhitespace]
  have hturn : ∀ fuel, arrayLoop std tail (fuel + 1) (outer.length + 1) tokens = _ :=
    fun fuel => by rw [arrayLoop]
  cases hskip : skipWhitespace tokens with
  | nil =>
    simp only [hskip] at hturn
    exact (Tracks.of_error rfl).succ rfl hturn
  | cons token ts =>
    have hblank := isBlank_of_skipWhitespace hskip
    rw [hskip, List.length_cons] at hle
    simp only [hskip] at hturn
    obtain ⟨kind, span⟩ := token
    have hlt : ts.length < n := hle.trans hlen
    have hts : ts.length ≤ tokens.length := (Nat.le_succ _).trans hle
    by_cases hclose : kind = .rightBracket
    · subst hclose
      exact (Tracks.of_ok hts rfl).succ rfl hturn
    by_cases heof : kind = .eof
    · subst heof
      exact (Tracks.of_error rfl).succ rfl hturn
    have hgo : ∀ fuel, arrayLoop std tail (fuel + 1) (outer.length + 1) tokens =
        parseValue std tail fuel (outer.length + 1) (⟨kind, span⟩ :: ts) >>= fun p =>
          arrayLoop std tail fuel (outer.length + 1) (optionalComma p.2) >>= fun q =>
            .ok (p.1 :: q.1, q.2) := by
      intro fuel
      rw [hturn]
      cases kind <;> first | rfl | exact absurd rfl hclose | exact absurd rfl heof
    by_cases hdeep : maxNestingDepth < outer.length + 1
    · -- the first item is refused
      have hwalk : stalls (.array :: outer) .item (⟨kind, span⟩ :: ts) = false := by
        have hdeep' : maxNestingDepth < (Frame.array :: outer).length := hdeep
        have hhalt : itemMove (.array :: outer) kind = .halt := by
          cases kind <;> first
            | exact valueMove_deep hdeep' _ _
            | exact absurd rfl hclose
            | rfl
            | cases hblank
        rw [stalls, move, hhalt]
      have hrefused : Fate .spent
          (fun fuel => parseValue std tail fuel (outer.length + 1) (⟨kind, span⟩ :: ts)) _ :=
        (Fate.const (by simp)).succ rfl fun _ => parseValue_deep hdeep
      exact .error _ (hrefused.bind_error.succ rfl hgo) hwalk
    have hshallow : ¬ maxNestingDepth < (Frame.array :: outer).length := hdeep
    have hcomma : itemMove (.array :: outer) .comma = .go (.array :: outer) .item :=
      valueMove_shallow hshallow _ rfl
    have hnext : ∀ (after : List Token) (value : LogLineValue), after.length ≤ ts.length →
        Tracks (fun fuel => arrayLoop std tail fuel (outer.length + 1) after >>= fun q =>
          .ok (value :: q.1, q.2)) outer tokens.length (stalls (.array :: outer) .item after) :=
      fun after value hafter => (hloops outer after (hafter.trans_lt hlt)).2.bind
        fun items rest hrest => Tracks.of_ok ((hrest.trans hafter).trans hts) rfl
    cases hstart : kind.isValueStart with
    | true =>
      have hvalue := @parseValue_tracks _ _ _ hloops (.array :: outer) ⟨kind, span⟩ _ hlt hstart
      have hwalk : stalls (.array :: outer) .item (⟨kind, span⟩ :: ts) =
          stalls (.array :: outer) .value (⟨kind, span⟩ :: ts) := by
        have hmove : itemMove (.array :: outer) kind = valueMove (.array :: outer) .stall kind := by
          cases kind <;> first | exact rfl | cases hstart
        rw [stalls, stalls, move, move, hmove,
          valueMove_start _ (valueMove (.array :: outer) .stall kind) .stall hstart]
      rw [hwalk]
      refine (hvalue.bind fun value rest hrest => ?_).succ rfl hgo
      rw [← stalls_optionalComma hcomma]
      exact hnext _ value ((optionalComma_length_le rest).trans hrest)
    | false =>
      by_cases hkind : kind = .comma
      · subst hkind
        have hempty : Fate .spent
            (fun fuel => parseValue std tail fuel (outer.length + 1) (⟨.comma, span⟩ :: ts)) _ :=
          (Fate.const (by simp)).succ rfl (parseValue_empty hdeep rfl ts)
        have hwalk : stalls (.array :: outer) .item (⟨.comma, span⟩ :: ts) =
            stalls (.array :: outer) .item ts := by rw [stalls, move, hcomma]
        rw [hwalk]
        exact (Tracks.bind_ok hempty (hnext ts (.str "") le_rfl)).succ rfl hgo
      · have hstuck : kind = .colon ∨ kind = .rightBrace ∨ kind = .endMarker := by
          cases kind <;> first
            | exact .inl rfl
            | exact .inr (.inl rfl)
            | exact .inr (.inr rfl)
            | exact absurd rfl hclose
            | exact absurd rfl heof
            | exact absurd rfl hkind
            | exact absurd hstart.symm Bool.false_ne_true
            | exact absurd hblank.symm Bool.false_ne_true
        have hwalk : stalls (.array :: outer) .item (⟨kind, span⟩ :: ts) = true := by
          have hmove : itemMove (.array :: outer) kind = .stall := by
            rcases hstuck with rfl | rfl | rfl <;> exact valueMove_shallow hshallow _ rfl
          rw [stalls, move, hmove]
        have hnever : Never .spent fun fuel =>
            arrayLoop std tail fuel (outer.length + 1) (⟨kind, span⟩ :: ts) :=
          arrayLoop_stuck hdeep hstuck span ts
        refine .never (.never fun fuel => ?_) hwalk
        cases fuel with
        | zero => rfl
        | succ fuel =>
          simp only [hgo]
          rcases hstuck with rfl | rfl | rfl <;> exact hnever (fuel + 1)

theorem loopsTrack (std : RustStd) (tail : Position) (n : Nat) : LoopsTrack std tail n := by
  induction n with
  | zero => exact fun _ _ h => absurd h (Nat.not_lt_zero _)
  | succ n ih =>
    exact fun outer tokens hlen => ⟨objectLoop_tracks ih outer (Nat.le_of_lt_succ hlen),
      arrayLoop_tracks ih outer (Nat.le_of_lt_succ hlen)⟩

theorem parseParams_tracks (std : RustStd) (tail : Position) (tokens : List Token) :
    (∃ r, Fate .spent (fun fuel => parseParams std tail fuel tokens) (some r) ∧
        r ≠ .error .panic ∧ stalls [] .item tokens = false) ∨
      Fate .spent (fun fuel => parseParams std tail fuel tokens) none ∧
        stalls [] .item tokens = true := by
  induction hn : tokens.length using Nat.strong_induction_on generalizing tokens with
  | _ n ih =>
    have hle := skipWhitespace_length_le tokens
    rw [← stalls_skipWhitespace]
    have hturn : ∀ fuel, parseParams std tail (fuel + 1) tokens = _ :=
      fun fuel => by rw [parseParams]
    cases hskip : skipWhitespace tokens with
    | nil =>
      simp only [hskip] at hturn
      exact .inl ⟨_, (Fate.const (by simp)).succ rfl hturn, by simp, rfl⟩
    | cons token ts =>
      have hblank := isBlank_of_skipWhitespace hskip
      rw [hskip, List.length_cons] at hle
      simp only [hskip] at hturn
      obtain ⟨kind, span⟩ := token
      have hlt : ts.length < n := hn ▸ hle
      cases kind with
      | newline => cases hblank
      | indent k => cases hblank
      | endMarker => exact .inl ⟨_, (Fate.const (by simp)).succ rfl hturn, by simp, rfl⟩
      | eof => exact .inl ⟨_, (Fate.const (by simp)).succ rfl hturn, by simp, rfl⟩
      | rightBrace => exact .inl ⟨_, (Fate.const (by simp)).succ rfl hturn, by simp, rfl⟩
      | identifier s =>
        have hwalk : stalls [] .item (⟨.identifier s, span⟩ :: ts) = stalls [] .key ts := rfl
        rw [hwalk]
        cases @parseParam_tracks _ _ _ (loopsTrack std tail n) [] s span _ hlt.le with
        | never h hw => exact .inr ⟨h.bind_never.succ rfl hturn, hw⟩
        | error e h hw => exact .inl ⟨_, h.bind_error.succ rfl hturn, by simp, hw⟩
        | ok param rest h hrest hw =>
          rw [hw]
          rcases ih rest.length (hrest.trans_lt hlt) rest rfl with ⟨r, hr, hpanic, hw'⟩ | ⟨hr, hw'⟩
          · cases r with
            | ok p =>
              have hok : Fate Halt.spent (fun _ => Except.ok (param :: p.1, p.2)) _ :=
                .const (by simp)
              have hmore := hr.bind (F := fun _ q => .ok (param :: q.1, q.2)) hok
              exact .inl ⟨_, (h.bind hmore).succ rfl hturn, by simp, hw'⟩
            | error e =>
              refine .inl ⟨_, (h.bind hr.bind_error).succ rfl hturn, ?_, hw'⟩
              exact fun heq => hpanic (congrArg Except.error (Except.error.inj heq))
          · exact .inr ⟨(h.bind hr.bind_never).succ rfl hturn, hw'⟩
      | _ =>
        rcases ih ts.length hlt ts rfl with ⟨r, hr, hpanic, hw⟩ | ⟨hr, hw⟩
        · exact .inl ⟨r, hr.succ rfl hturn, hpanic, hw⟩
        · exact .inr ⟨hr.succ rfl hturn, hw⟩

end Ubl.Logline
