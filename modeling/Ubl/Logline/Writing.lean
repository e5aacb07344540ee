import Ubl.Logline.Lexing
import Ubl.Logline.Parser

/-!
# What the serializer writes, token by token

Keys are lowercase identifiers of ASCII and are written in upper case.  A document is written as
its header, a line for each parameter and END; `writes_document` puts the tokens of the parts
together, whatever the values are.
-/

namespace Ubl.Logline

open ExceptLemmas Fueled

variable {std : RustStd}

/-- Lowercase letters, digits, `_` and `-`. -/
def isKeyChar (c : Char) : Bool := c.isLower || c.isDigit || c = '_' || c = '-'

/-- A lowercase identifier of ASCII that is none of the three words. -/
structure IsKey (key : String) : Prop where
  starts : ∃ c ∈ key.toList.head?, c.isLower ∨ c = '_'
  chars : ∀ c ∈ key.toList, isKeyChar c
  word : key ≠ "end" ∧ key ≠ "true" ∧ key ≠ "false"

theorem toNat_lt_of_isKeyChar {c : Char} (h : isKeyChar c) : c.toNat < 128 := by
  simp only [isKeyChar, Char.isLower, Char.isDigit, Bool.or_eq_true, Bool.and_eq_true,
    decide_eq_true_eq] at h
  rcases h with ((h | h) | rfl) | rfl
  · exact lt_of_le_of_lt (UInt32.le_iff_toNat_le.mp h.2) (by decide)
  · exact lt_of_le_of_lt (UInt32.le_iff_toNat_le.mp h.2) (by decide)
  · decide
  · decide

/-- The upper case of a character of a key. -/
theorem toUpper_spec {c : Char} (h : isKeyChar c) :
    c.toUpper.toUpper = c.toUpper ∧ c.toUpper.toLower = c ∧ c.toUpper.toNat < 128 ∧
      (c.toUpper.isAlpha || c.toUpper.isDigit || c.toUpper = '_' || c.toUpper = '-') ∧
      (c.isLower → c.toUpper.isAlpha ∧ c.toUpper.isDigit = false) := by
  have hall : ∀ n < 128, isKeyChar (Char.ofNat n) →
      let c := Char.ofNat n
      c.toUpper.toUpper = c.toUpper ∧ c.toUpper.toLower = c ∧ c.toUpper.toNat < 128 ∧
        (c.toUpper.isAlpha || c.toUpper.isDigit || c.toUpper = '_' || c.toUpper = '-') ∧
        (c.isLower → c.toUpper.isAlpha ∧ c.toUpper.isDigit = false) := by decide
  have hc := hall c.toNat (toNat_lt_of_isKeyChar h)
  rw [Char.ofNat_toNat] at hc
  exact hc h

/-- A key in upper case. -/
def upperKey (key : String) : List Char := key.toList.map Char.toUpper

theorem toList_strToUppercase {cs : List Char} (h : ∀ c ∈ cs, c.toNat < 128) :
    (std.strToUppercase (String.ofList cs)).toList = cs.map Char.toUpper := by
  rw [RustStd.strToUppercase, String.toList_ofList, String.toList_ofList]
  induction cs with
  | nil => rfl
  | cons c cs ih =>
    rw [List.flatMap_cons, std.toUppercase_ascii c (h c List.mem_cons_self),
      ih fun c hc => h c (List.mem_cons_of_mem _ hc)]
    rfl

theorem strToUppercase_key {key : String} (h : IsKey key) :
    (std.strToUppercase key).toList = upperKey key := by
  have := @toList_strToUppercase std _ fun c hc => toNat_lt_of_isKeyChar (h.chars c hc)
  rwa [String.ofList_toList] at this

theorem toNat_lt_of_mem_upperKey {key : String} (h : IsKey key) :
    ∀ c ∈ upperKey key, c.toNat < 128 := by
  intro c hc
  obtain ⟨d, hd, rfl⟩ := List.mem_map.mp hc
  exact (toUpper_spec (h.chars d hd)).2.2.1

theorem map_toUpper_upperKey {key : String} (h : IsKey key) :
    (upperKey key).map Char.toUpper = upperKey key := by
  rw [upperKey, List.map_map]
  exact List.map_congr_left fun c hc => (toUpper_spec (h.chars c hc)).1

theorem map_toLower_upperKey {key : String} (h : IsKey key) :
    (upperKey key).map Char.toLower = key.toList := by
  rw [upperKey, List.map_map]
  conv_rhs => rw [← List.map_id key.toList]
  exact List.map_congr_left fun c hc => (toUpper_spec (h.chars c hc)).2.1

/-- A key in upper case is a word. -/
theorem isIdentifier_upperKey {key : String} (h : IsKey key) : IsIdentifier std (upperKey key) := by
  refine ⟨?_, fun c hc => ?_⟩
  · obtain ⟨c, hc, hstarts⟩ := h.starts
    refine ⟨c.toUpper, by simpa [upperKey] using ⟨c, hc, rfl⟩, ?_⟩
    have hmem := List.mem_of_mem_head? hc
    obtain ⟨-, -, hascii, -, halpha⟩ := toUpper_spec (h.chars c hmem)
    rw [startsWord, std.isAlphabetic_ascii _ hascii, std.isNumeric_ascii _ hascii]
    rcases hstarts with hlower | rfl
    · simp [halpha hlower]
    · decide
  · have hascii := toNat_lt_of_mem_upperKey h c hc
    obtain ⟨d, hd, rfl⟩ := List.mem_map.mp hc
    have := (toUpper_spec (h.chars d hd)).2.2.2.1
    rwa [isIdentifierChar, RustStd.isAlphanumeric, std.isAlphabetic_ascii _ hascii,
      std.isNumeric_ascii _ hascii]

/-- It is read as an identifier, and the key is its lower case. -/
theorem wordKind_upperKey {key : String} (h : IsKey key) :
    wordKind std (String.ofList (upperKey key)) = .identifier (String.ofList (upperKey key)) := by
  have hupper : std.strToUppercase (String.ofList (upperKey key)) =
      String.ofList (upperKey key) := by
    rw [← String.ofList_toList (s := std.strToUppercase _),
      toList_strToUppercase (toNat_lt_of_mem_upperKey h), map_toUpper_upperKey h]
  have hword : ∀ w : String, String.ofList (upperKey key) = w →
      key = String.ofList (w.toList.map Char.toLower) := by
    rintro _ rfl
    rw [String.toList_ofList, map_toLower_upperKey h, String.ofList_toList]
  unfold wordKind
  rw [hupper]
  split
  · next heq => exact absurd (hword _ heq) h.word.1
  · next heq => exact absurd (hword _ heq) h.word.2.1
  · next heq => exact absurd (hword _ heq) h.word.2.2
  · rfl

theorem toLowercase_upperKey {key : String} (h : IsKey key) :
    std.toLowercase (String.ofList (upperKey key)) = key := by
  rw [std.toLowercase_ascii _ (by simpa using toNat_lt_of_mem_upperKey h), String.toList_ofList,
    map_toLower_upperKey h, String.ofList_toList]

/-! ## Documents -/

/-- Two spaces and upper case, as `SerializeOptions::default()` has them. -/
def written (quoteStrings : Bool) : SerializeOptions := { SerializeOptions.default with quoteStrings }

theorem indent_written (q : Bool) : (written q).indent.toList = [' ', ' '] := by
  decide +revert

theorem indentBy_written (q : Bool) (n : Nat) :
    indentBy (written q) n = List.replicate (2 * n) ' ' := by
  induction n with
  | zero => rfl
  | succ n ih =>
    rw [indentBy, List.replicate_succ, List.flatten_cons] at *
    rw [ih, show 2 * (n + 1) = 2 + 2 * n by omega, List.replicate_add, indent_written]
    rfl

theorem serializeKeyword_written {q : Bool} {key : String} (h : IsKey key) :
    serializeKeyword std (written q) key = upperKey key := strToUppercase_key h

/-- The tokens of a line that is indented by `n`: a key, and a value that is read as `kinds`. -/
def lineKinds (n : Nat) (key : String) (kinds : List TokenKind) : List TokenKind :=
  [.indent n, .identifier (String.ofList (upperKey key)), .colon] ++ kinds ++ [.newline]

/-- The text is read as these tokens up to the end of the line. -/
def ReadsAs (std : RustStd) (text : List Char) (kinds : List TokenKind) : Prop :=
  ∀ cs, Reads std false (text ++ '\n' :: cs) (kinds ++ [.newline]) true cs

theorem lexes_upperKey {key : String} (h : IsKey key) (text : List Char) :
    Lexes std false (upperKey key ++ ':' :: text) (wordKind std (String.ofList (upperKey key)))
      false (':' :: text) :=
  lexes_word (isIdentifier_upperKey h) (stopsAt_structural rfl text)

/-- The first character of a key is not structural. -/
theorem upperKey_eq_cons {key : String} (h : IsKey key) :
    ∃ c cs, upperKey key = c :: cs ∧ c ≠ ' ' ∧ c ≠ '\t' ∧ c ≠ '\n' := by
  cases hkey : upperKey key with
  | nil =>
    obtain ⟨c, hc, -⟩ := h.starts
    rw [List.map_eq_nil_iff.mp hkey] at hc
    cases hc
  | cons c cs =>
    have hident := (@isIdentifier_upperKey RustStd.ascii _ h).chars c
      (hkey ▸ List.mem_cons_self)
    have hstructural := isStructural_of_identifierChar hident
    refine ⟨c, cs, rfl, ?_, ?_, ?_⟩ <;> rintro rfl <;> cases hstructural

/-- A key and its colon, in front of any text. -/
theorem reads_key {key : String} (h : IsKey key) (text : List Char) :
    Reads std false (upperKey key ++ ':' :: text)
      [.identifier (String.ofList (upperKey key)), .colon] false text := by
  have hword := @lexes_upperKey std _ h text
  rw [wordKind_upperKey h] at hword
  exact .cons (by simp) hword (.one (by simp) (lexes_punctuation rfl text))

/-- At the start of a line. -/
theorem reads_header {key : String} (h : IsKey key) (text : List Char) :
    Reads std true (upperKey key ++ ':' :: text)
      [.identifier (String.ofList (upperKey key)), .colon] false text := by
  have hkey := @reads_key std _ h text
  obtain ⟨c, cs, hcons, hc⟩ := upperKey_eq_cons h
  rw [hcons] at hkey ⊢
  cases hkey with
  | cons hkind hlex hs => exact .cons hkind (hlex.fresh hc) hs

/-- In a line that is indented. -/
theorem reads_lineStart {n : Nat} (hn : 0 < n) {key : String} (h : IsKey key) (text : List Char) :
    Reads std true (List.replicate n ' ' ++ (upperKey key ++ ':' :: text))
      [.indent n, .identifier (String.ofList (upperKey key)), .colon] false text := by
  have hkey := @reads_key std _ h text
  obtain ⟨c, cs, hcons, hc⟩ := upperKey_eq_cons h
  rw [hcons] at hkey ⊢
  exact .cons (by simp) (lexes_indent hn hc _) hkey

theorem reads_newline {cs : List Char} : Reads std false ('\n' :: cs) [.newline] true cs :=
  .one (by simp) (lexes_punctuation rfl cs)

/-- An indented line, and what follows it. -/
theorem reads_line {n : Nat} (hn : 0 < n) {key : String} (hkey : IsKey key) {text cs cs' : List Char}
    {kinds kinds' : List TokenKind} {fresh : Bool} (htext : ReadsAs std text kinds)
    (hcs : Reads std true cs kinds' fresh cs') :
    Reads std true (List.replicate n ' ' ++ (upperKey key ++ ':' :: ' ' :: (text ++ '\n' :: cs)))
      (lineKinds n key kinds ++ kinds') fresh cs' := by
  have hline := ((htext cs).append hcs).space (by simp)
  have hread := (reads_lineStart hn hkey _).append hline
  simpa [lineKinds] using hread

/-- The tokens of the lines of the parameters, where `kinds` is how a value is read. -/
def paramsKinds (kinds : LogLineValue → List TokenKind) (params : List (String × LogLineValue)) :
    List TokenKind :=
  params.flatMap fun p => lineKinds 2 p.1 (kinds p.2)

/-- The lines of the parameters. -/
theorem reads_params {q : Bool} {kinds : LogLineValue → List TokenKind}
    {params : List (String × LogLineValue)} (hkeys : ∀ p ∈ params, IsKey p.1)
    (h : ∀ p ∈ params, ReadsAs std (serializeValue std (written q) 1 p.2) (kinds p.2))
    (cs : List Char) :
    Reads std true (serializeParams std (written q) params ++ cs) (paramsKinds kinds params) true
      cs := by
  induction params with
  | nil => exact .nil _ _
  | cons p params ih =>
    obtain ⟨key, value⟩ := p
    have hkey : IsKey key := hkeys _ List.mem_cons_self
    have hrest := ih (fun p hp => hkeys p (List.mem_cons_of_mem _ hp))
      fun p hp => h p (List.mem_cons_of_mem _ hp)
    have hline := reads_line (n := 2) (by decide) hkey (h _ List.mem_cons_self) hrest
    rw [serializeParams, paramsKinds, List.flatMap_cons, indent_written,
      serializeKeyword_written hkey]
    simpa [paramsKinds] using hline

theorem wordKind_end : wordKind std (String.ofList ['E', 'N', 'D']) = .endMarker := by
  have hlist := @toList_strToUppercase std ['E', 'N', 'D'] (by simp)
  have hupper : std.strToUppercase (String.ofList ['E', 'N', 'D']) = "END" := by
    rw [← String.toList_inj, hlist]
    decide
  unfold wordKind
  rw [hupper]
  rfl

/-- Letters of ASCII are a word. -/
theorem isIdentifier_letters {w : List Char} (hne : w ≠ [])
    (h : ∀ c ∈ w, c.toNat < 128 ∧ c.isAlpha ∧ c.isDigit = false) : IsIdentifier std w := by
  have hchar : ∀ c ∈ w, std.isAlphabetic c ∧ std.isNumeric c = false := by
    intro c hc
    obtain ⟨hascii, halpha, hdigit⟩ := h c hc
    rw [std.isAlphabetic_ascii c hascii, std.isNumeric_ascii c hascii]
    exact ⟨halpha, hdigit⟩
  refine ⟨⟨w.head hne, List.head?_eq_some_head hne, ?_, (hchar _ (List.head_mem hne)).2⟩,
    fun c hc => ?_⟩
  · simp [startsWord, (hchar _ (List.head_mem hne)).1]
  · simp [isIdentifierChar, RustStd.isAlphanumeric, (hchar c hc).1]

theorem reads_end : Reads std true ['E', 'N', 'D'] [.endMarker] false [] := by
  have hident : IsIdentifier std ['E', 'N', 'D'] := isIdentifier_letters (by simp) (by simp)
  have hlex := @lexes_word std _ [] hident fun c hc => by cases hc
  rw [wordKind_end, List.append_nil] at hlex
  exact .one (by simp) (hlex.fresh (by decide))

/-- The tokens of a document but the last. -/
def documentKinds (span : LogLineSpan) (nameKinds : List TokenKind)
    (kinds : LogLineValue → List TokenKind) : List TokenKind :=
  .identifier (String.ofList (upperKey span.type)) :: .colon :: (nameKinds ++ .newline ::
    (paramsKinds kinds span.params ++ [.endMarker]))

theorem toList_serializeWithOptions {q : Bool} {span : LogLineSpan} (htype : IsKey span.type) :
    (serializeWithOptions std (written q) span).toList =
      upperKey span.type ++ ':' :: (serializeName span.name ++ '\n' ::
        (serializeParams std (written q) span.params ++ ['E', 'N', 'D'])) := by
  simp [serializeWithOptions, serializeKeyword_written htype]

/-- The whole document. -/
theorem reads_document {q : Bool} {span : LogLineSpan} {nameKinds : List TokenKind}
    {kinds : LogLineValue → List TokenKind} (htype : IsKey span.type)
    (hname : ReadsAs std (serializeName span.name) nameKinds)
    (hkeys : ∀ p ∈ span.params, IsKey p.1)
    (hparams : ∀ p ∈ span.params,
      ReadsAs std (serializeValue std (written q) 1 p.2) (kinds p.2)) :
    Reads std true (serializeWithOptions std (written q) span).toList
      (documentKinds span nameKinds kinds) false [] := by
  have hbody := (hname _).append ((reads_params hkeys hparams _).append reads_end)
  rw [List.append_assoc] at hbody
  rw [toList_serializeWithOptions htype]
  exact (reads_header htype _).append hbody

/-! ## The parser over such tokens -/

/-- Tokens of the given kinds. -/
def OfKinds (tokens : List Token) (kinds : List TokenKind) : Prop := tokens.map Token.kind = kinds

theorem OfKinds.cons {tokens : List Token} {kind : TokenKind} {kinds : List TokenKind}
    (h : OfKinds tokens (kind :: kinds)) :
    ∃ span tokens', tokens = ⟨kind, span⟩ :: tokens' ∧ OfKinds tokens' kinds := by
  cases tokens with
  | nil => cases h
  | cons token tokens =>
    obtain ⟨rfl, hrest⟩ := List.cons.inj h
    exact ⟨token.span, tokens, rfl, hrest⟩

theorem OfKinds.append {tokens : List Token} {kinds kinds' : List TokenKind}
    (h : OfKinds tokens (kinds ++ kinds')) :
    ∃ ts ts', tokens = ts ++ ts' ∧ OfKinds ts kinds ∧ OfKinds ts' kinds' :=
  List.map_eq_append_iff.mp h

/-- Behind a key and its colon the tokens are parsed as the value. -/
def ParsesAs (std : RustStd) (depth : Nat) (kinds : List TokenKind) (value : LogLineValue) : Prop :=
  ∀ (tail : Position) (tokens rest : List Token), OfKinds tokens kinds →
    Settles (fun fuel => parseValue std tail fuel depth (tokens ++ rest)) (.ok (value, rest))

/-- The same at the end of a line, outside of any container. -/
def ParsesLine (std : RustStd) (kinds : List TokenKind) (value : LogLineValue) : Prop :=
  ∀ (tail : Position) (tokens rest : List Token) (newline : Span), OfKinds tokens kinds →
    Settles (fun fuel => parseValue std tail fuel 0 (tokens ++ ⟨.newline, newline⟩ :: rest))
      (.ok (value, ⟨.newline, newline⟩ :: rest))

theorem ParsesAs.parsesLine {kinds : List TokenKind} {value : LogLineValue}
    (h : ParsesAs std 0 kinds value) : ParsesLine std kinds value :=
  fun tail tokens _ _ htokens => h tail tokens _ htokens

theorem parseParam_settles {tail : Position} {depth : Nat} {key : String} (hkey : IsKey key)
    {value : LogLineValue} {tokens rest : List Token} {span span' : Span}
    (hvalue : Settles (fun fuel => parseValue std tail fuel depth tokens) (.ok (value, rest))) :
    Settles (fun fuel => parseParam std tail fuel depth
      (⟨.identifier (String.ofList (upperKey key)), span⟩ :: ⟨.colon, span'⟩ :: tokens))
      (.ok ((key, value), rest)) := by
  have hparam := hvalue.bind
    (F := fun _ p => .ok ((std.toLowercase (String.ofList (upperKey key)), p.1), p.2)) (.const _)
  rw [toLowercase_upperKey hkey] at hparam
  exact hparam.succ fun _ => by rw [parseParam_colon, toLowercase_upperKey hkey]

/-- The lines of the parameters, up to END. -/
theorem parseParams_settles (tail : Position) {kinds : LogLineValue → List TokenKind}
    {values : LogLineValue → LogLineValue} {params : List (String × LogLineValue)}
    (hkeys : ∀ p ∈ params, IsKey p.1)
    (h : ∀ p ∈ params, ParsesLine std (kinds p.2) (values p.2)) {tokens rest : List Token}
    {newline last : Span} (htokens : OfKinds tokens (paramsKinds kinds params)) :
    Settles (fun fuel => parseParams std tail fuel
        (⟨.newline, newline⟩ :: (tokens ++ ⟨.endMarker, last⟩ :: rest)))
      (.ok (params.map (Prod.map id values), ⟨.endMarker, last⟩ :: rest)) := by
  induction params generalizing tokens newline with
  | nil =>
    obtain rfl := List.map_eq_nil_iff.mp htokens
    exact (Settles.const _).succ fun _ => parseParams_end rfl
  | cons p params ih =>
    obtain ⟨key, value⟩ := p
    have hkey : IsKey key := hkeys _ List.mem_cons_self
    rw [paramsKinds, List.flatMap_cons, lineKinds] at htokens
    simp only [List.cons_append, List.nil_append, List.append_assoc] at htokens
    obtain ⟨indent, ts₁, rfl, h₁⟩ := htokens.cons
    obtain ⟨word, ts₂, rfl, h₂⟩ := h₁.cons
    obtain ⟨colon, ts₃, rfl, h₃⟩ := h₂.cons
    obtain ⟨tsv, ts₄, rfl, hvalue, h₄⟩ := h₃.append
    obtain ⟨newline', ts₅, rfl, h₅⟩ := h₄.cons
    have hparam := @parseParam_settles std tail 0 key hkey _ _ _ word colon
      (h _ List.mem_cons_self tail tsv (ts₅ ++ ⟨.endMarker, last⟩ :: rest) newline' hvalue)
    have hrest := @ih (fun p hp => hkeys p (List.mem_cons_of_mem _ hp))
      (fun p hp => h p (List.mem_cons_of_mem _ hp)) ts₅ newline' h₅
    have hturn := hparam.bind (F := fun fuel p => parseParams std tail fuel p.2 >>= fun q =>
      .ok (p.1 :: q.1, q.2)) (hrest.bind (.const _))
    simp only [List.append_assoc, List.cons_append]
    exact hturn.succ fun fuel => parseParams_param rfl

/-- Behind the colon of the header the tokens are parsed as the name. -/
def NamedAs (std : RustStd) (kinds : List TokenKind) (name : Option String) : Prop :=
  ∀ (tokens rest : List Token) (span : Span), OfKinds tokens kinds →
    parseOptionalName std (tokens ++ ⟨.newline, span⟩ :: rest) = (name, ⟨.newline, span⟩ :: rest)

section Document

variable {q : Bool} {span : LogLineSpan} {nameKinds : List TokenKind} {name : Option String}
  {kinds : LogLineValue → List TokenKind} {values : LogLineValue → LogLineValue}

theorem parse_settles (htype : IsKey span.type) (hname : NamedAs std nameKinds name)
    (hkeys : ∀ p ∈ span.params, IsKey p.1)
    (hparams : ∀ p ∈ span.params, ParsesLine std (kinds p.2) (values p.2)) {tokens : List Token}
    (htokens : OfKinds tokens (documentKinds span nameKinds kinds ++ [.eof])) :
    ∃ position, Settles (fun fuel => parse std fuel tokens)
      (.ok ⟨span.type, name, span.params.map (Prod.map id values), position⟩) := by
  simp only [documentKinds, List.cons_append, List.append_assoc] at htokens
  obtain ⟨word, ts₁, rfl, h₁⟩ := htokens.cons
  obtain ⟨colon, ts₂, rfl, h₂⟩ := h₁.cons
  obtain ⟨tsn, ts₃, rfl, hn, h₃⟩ := h₂.append
  obtain ⟨newline, ts₄, rfl, h₄⟩ := h₃.cons
  obtain ⟨tsp, ts₅, rfl, hp, h₅⟩ := h₄.append
  obtain ⟨last, ts₆, rfl, h₆⟩ := h₅.cons
  have hheader : ∀ rest, parseHeader std (skipWhitespace
      (⟨.identifier (String.ofList (upperKey span.type)), word⟩ :: ⟨.colon, colon⟩ ::
        (tsn ++ ⟨.newline, newline⟩ :: rest))) =
      .ok ((span.type, name, word), ⟨.newline, newline⟩ :: rest) := by
    intro rest
    change Except.ok ((std.toLowercase _, (parseOptionalName std (tsn ++ _)).1, word),
      (parseOptionalName std (tsn ++ _)).2) = _
    rw [hname tsn rest newline hn, toLowercase_upperKey htype]
  set tail := ((⟨.identifier (String.ofList (upperKey span.type)), word⟩ :: ⟨.colon, colon⟩ ::
    (tsn ++ ⟨.newline, newline⟩ :: (tsp ++ ⟨.endMarker, last⟩ :: ts₆)) : List Token).getLast?.map
      (·.span.stop)).getD ⟨0, 0, 0⟩ with htail
  have hrun := (@parseParams_settles std tail _ _ _ hkeys hparams tsp ts₆ newline last hp).bind
      (F := fun _ p => expectEnd (span.type, name, word) p.1 p.2) (.const _)
  refine ⟨_, hrun.congr fun fuel => ?_⟩
  rw [parse, hheader]
  rfl

theorem trim_document (htype : IsKey span.type) :
    trim (serializeWithOptions std (written q) span).toList ≠ [] := by
  intro h
  have hlast : 'D' ∈ (serializeWithOptions std (written q) span).toList := by
    simp [toList_serializeWithOptions htype]
  have := trim_eq_nil.mp h _ hlast
  revert this
  decide

/-- A document whose values and name are read as such is read as a whole. -/
theorem parseLogline_settles (htype : IsKey span.type) (hkeys : ∀ p ∈ span.params, IsKey p.1)
    (hname : ReadsAs std (serializeName span.name) nameKinds) (hnamed : NamedAs std nameKinds name)
    (hreads : ∀ p ∈ span.params, ReadsAs std (serializeValue std (written q) 1 p.2) (kinds p.2))
    (hparses : ∀ p ∈ span.params, ParsesLine std (kinds p.2) (values p.2)) :
    ∃ position, Settles
      (fun fuel => parseLogline std fuel (serializeWithOptions std (written q) span))
      (.ok ⟨span.type, name, span.params.map (Prod.map id values), position⟩) := by
  obtain ⟨tokens, htokens, hkinds⟩ := (reads_document htype hname hkeys hreads).tokenize
    lexes_eof ⟨0, 1, 1, true⟩ rfl
  obtain ⟨position, hparse⟩ := parse_settles htype hnamed hkeys hparses hkinds
  refine ⟨position, (htokens.bind hparse).congr fun fuel => ?_⟩
  rw [parseLogline, if_neg (trim_document htype)]
  rfl

end Document

end Ubl.Logline
