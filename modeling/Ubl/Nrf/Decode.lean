import Ubl.Lib.ExceptLemmas
import Ubl.Nrf.Encode

/-!
# `nrf.rs`: the NRF decoder

`decodeValue` reads one value off the front of the unread bytes; an array or a map
reads its elements with the loops `decodeItems` and `decodeEntries`.  The first
argument bounds the nesting; `decodeFromSlice` starts it at the length of the
input, which no value can exceed.  `nfc` is `unicode_normalization`'s `nfc()`.

    WellFormed v → TextOk nfc v → Fits v →
      ∃ b, encodeToVec v = .ok b ∧ decodeFromSlice nfc b = .ok v        (decode_encode)
-/

namespace Ubl.Nrf

open AssocMap BigEndian Utf8 ExceptLemmas

/-! ## Algorithm -/

/-- `s.chars().any(|c| c == '\u{feff}')`. -/
def hasBom (s : String) : Bool := s.toList.any (· == '\uFEFF')

def readExact (n : Nat) (bytes : List UInt8) : Except NrfError (List UInt8 × List UInt8) :=
  if n ≤ bytes.length then .ok (bytes.take n, bytes.drop n) else .error .unexpectedEof

/-- The length-prefixed bytes after a string or bytes tag. -/
def readPrefixed (bytes : List UInt8) : Except NrfError (List UInt8 × List UInt8) := do
  let (len, rest) ← decodeVarint32 bytes
  readExact len.toNat rest

def decodeString (nfc : String → String) (bytes : List UInt8) :
    Except NrfError (String × List UInt8) := do
  let (buf, rest) ← readPrefixed bytes
  match fromUtf8 buf with
  | none => throw .invalidUTF8
  | some s =>
    if hasBom s then throw .bomPresent
    if nfc s ≠ s then throw .notNFC
    pure (s, rest)

section Loops

variable (dec : List UInt8 → Except NrfError (NrfValue × List UInt8))

/-- `count` values one after the other. -/
def decodeItems : Nat → List UInt8 → Except NrfError (List NrfValue × List UInt8)
  | 0, bytes => .ok ([], bytes)
  | count + 1, bytes => do
    let (v, rest) ← dec bytes
    let (items, rest) ← decodeItems count rest
    pure (v :: items, rest)

/-- The key of the next map entry. -/
def decodeKey (bytes : List UInt8) : Except NrfError (String × List UInt8) := do
  match ← dec bytes with
  | (.string s, rest) => pure (s, rest)
  | _ => throw .nonStringKey

/-- `count` entries, inserted into the `BTreeMap` `map`. -/
def decodeEntries : Nat → List (String × NrfValue) → List UInt8 →
    Except NrfError (List (String × NrfValue) × List UInt8)
  | 0, map, bytes => .ok (map, bytes)
  | count + 1, map, bytes => do
    let (key, rest) ← decodeKey dec bytes
    if key ∈ keys map then throw (.duplicateKey key)
    let (value, rest) ← dec rest
    decodeEntries count (sortedInsert key value map) rest

end Loops

def decodeValue (nfc : String → String) : Nat → List UInt8 →
    Except NrfError (NrfValue × List UInt8)
  | 0, _ => .error .depth
  | _ + 1, [] => .error .unexpectedEof
  | fuel + 1, tag :: bytes =>
    if tag = TAG_NULL then .ok (.null, bytes)
    else if tag = TAG_FALSE then .ok (.bool false, bytes)
    else if tag = TAG_TRUE then .ok (.bool true, bytes)
    else if tag = TAG_INT64 then do
      let (buf, rest) ← readExact 8 bytes
      pure (.int (i64OfBE buf), rest)
    else if tag = TAG_STRING then do
      let (s, rest) ← decodeString nfc bytes
      pure (.string s, rest)
    else if tag = TAG_BYTES then do
      let (buf, rest) ← readPrefixed bytes
      pure (.bytes buf, rest)
    else if tag = TAG_ARRAY then do
      let (count, rest) ← decodeVarint32 bytes
      let (items, rest) ← decodeItems (decodeValue nfc fuel) count.toNat rest
      pure (.array items, rest)
    else if tag = TAG_MAP then do
      let (count, rest) ← decodeVarint32 bytes
      let (entries, rest) ← decodeEntries (decodeValue nfc fuel) count.toNat [] rest
      pure (.map entries, rest)
    else .error (.invalidTypeTag tag)

def decodeFromSlice (nfc : String → String) (bytes : List UInt8) : Except NrfError NrfValue := do
  let (magic, rest) ← readExact 4 bytes
  if magic ≠ MAGIC then throw .invalidMagic
  let (value, rest) ← decodeValue nfc bytes.length rest
  if rest ≠ [] then throw .trailingData
  pure value

/-! ## What each reader does on its writer's output -/

/-- Free of byte order marks and in NFC. -/
def TextClean (nfc : String → String) (s : String) : Prop := hasBom s = false ∧ nfc s = s

/-- Every string and every key of the value is clean. -/
def NrfValue.TextOk (nfc : String → String) (v : NrfValue) : Prop :=
  Everywhere (fun
    | .string s => TextClean nfc s
    | .map entries => ∀ e ∈ entries, TextClean nfc e.1
    | _ => True) v

theorem readExact_append (buf rest : List UInt8) :
    readExact buf.length (buf ++ rest) = .ok (buf, rest) := by
  unfold readExact
  rw [if_pos (by simp), List.take_left, List.drop_left]

theorem readPrefixed_encode (buf : List UInt8) (h : buf.length < 2 ^ 32) (rest : List UInt8) :
    readPrefixed (encodeVarint32 (UInt32.ofNat buf.length) ++ (buf ++ rest)) =
      .ok (buf, rest) := by
  simp only [readPrefixed, decodeVarint32_encode, bind_ok, toNat_ofNat_u32 h,
    readExact_append]

theorem decodeString_encode {nfc : String → String} {s : String} (hs : TextClean nfc s)
    (hl : s.utf8ByteSize < 2 ^ 32) (rest : List UInt8) :
    decodeString nfc (encodeVarint32 (UInt32.ofNat s.utf8ByteSize) ++ (utf8 s ++ rest)) =
      .ok (s, rest) := by
  have hb := readPrefixed_encode (utf8 s) (by simpa using hl) rest
  rw [length_utf8] at hb
  simp [decodeString, hb, hs.1, hs.2]

theorem decodeItems_encode (dec : List UInt8 → Except NrfError (NrfValue × List UInt8))
    (items : List NrfValue) (h : ∀ v ∈ items, ∀ rest, dec (encodeValue v ++ rest) = .ok (v, rest))
    (rest : List UInt8) :
    decodeItems dec items.length (encodeItems items ++ rest) = .ok (items, rest) := by
  induction items with
  | nil => rfl
  | cons v items ih =>
    have hv := h v List.mem_cons_self (encodeItems items ++ rest)
    have hitems := ih fun w hw => h w (List.mem_cons_of_mem _ hw)
    simp only [List.length_cons, encodeItems, List.append_assoc, decodeItems, hv, hitems, bind_ok,
      pure_eq_ok]

/-- The keys come in ascending order, so every entry goes to the end of the map. -/
theorem decodeEntries_encode (dec : List UInt8 → Except NrfError (NrfValue × List UInt8))
    (entries map : List (String × NrfValue)) (hasc : Ascending (map ++ entries))
    (hk : ∀ e ∈ entries, ∀ rest, dec (encodeString e.1 ++ rest) = .ok (.string e.1, rest))
    (hv : ∀ e ∈ entries, ∀ rest, dec (encodeValue e.2 ++ rest) = .ok (e.2, rest))
    (rest : List UInt8) :
    decodeEntries dec entries.length map (encodeEntries entries ++ rest) =
      .ok (map ++ entries, rest) := by
  induction entries generalizing map with
  | nil => simp [decodeEntries, encodeEntries]
  | cons e entries ih =>
    obtain ⟨k, v⟩ := e
    have hlt : ∀ f ∈ map, f.1 < k := fun f hf =>
      (List.pairwise_append.mp hasc).2.2 f hf (k, v) List.mem_cons_self
    have hnew : k ∉ keys map := by
      intro hmem
      obtain ⟨w, hw⟩ := mem_keys.mp hmem
      exact lt_irrefl k (hlt (k, w) hw)
    have hkey : decodeKey dec (encodeString k ++ (encodeValue v ++ (encodeEntries entries ++ rest)))
        = .ok (k, encodeValue v ++ (encodeEntries entries ++ rest)) := by
      simp only [decodeKey, hk (k, v) List.mem_cons_self, bind_ok, pure_eq_ok]
    have hval := hv (k, v) List.mem_cons_self (encodeEntries entries ++ rest)
    have hrest := ih (map ++ [(k, v)]) (by simpa using hasc)
      (fun f hf => hk f (List.mem_cons_of_mem _ hf)) (fun f hf => hv f (List.mem_cons_of_mem _ hf))
    simp only [List.length_cons, encodeEntries, List.append_assoc, decodeEntries, hkey, bind_ok,
      if_neg hnew, hval, sortedInsert_last v hlt, hrest, List.singleton_append]

theorem decodeValue_encodeString {nfc : String → String} {s : String} (hs : TextClean nfc s)
    (hl : s.utf8ByteSize < 2 ^ 32) (fuel : Nat) (rest : List UInt8) :
    decodeValue nfc (fuel + 1) (encodeString s ++ rest) = .ok (.string s, rest) := by
  have hread := decodeString_encode hs hl rest
  simp [encodeString, decodeValue, hread]

/-! ## Decode ∘ encode -/

/-- With at least as much nesting allowed as the encoding is long, the decoder reads
the value back and leaves what follows it. -/
theorem decodeValue_encode (nfc : String → String) (v : NrfValue) (hw : v.WellFormed)
    (ht : v.TextOk nfc) (hf : v.Fits) :
    ∀ fuel, (encodeValue v).length ≤ fuel → ∀ rest,
      decodeValue nfc fuel (encodeValue v ++ rest) = .ok (v, rest) := by
  induction v using NrfValue.ind with
  | null =>
    rintro (_ | fuel) hfuel rest
    · simp [encodeValue] at hfuel
    · rfl
  | bool b =>
    rintro (_ | fuel) hfuel rest
    · cases b <;> simp [encodeValue] at hfuel
    · cases b <;> rfl
  | int i =>
    rintro (_ | fuel) hfuel rest
    · simp [encodeValue] at hfuel
    · have hread := readExact_append (i64ToBE i) rest
      rw [i64ToBE, length_toBE, ← i64ToBE] at hread
      simp [encodeValue, decodeValue, hread, i64OfBE_i64ToBE]
  | string s =>
    rintro (_ | fuel) hfuel rest
    · simp [encodeValue, encodeString] at hfuel
    · simpa [encodeValue] using decodeValue_encodeString ht.here hf.here fuel rest
  | bytes b =>
    rintro (_ | fuel) hfuel rest
    · simp [encodeValue] at hfuel
    · have hread := readPrefixed_encode b hf.here rest
      simp [encodeValue, decodeValue, hread]
  | array items ih =>
    simp only [NrfValue.WellFormed, NrfValue.TextOk, NrfValue.Fits,
      NrfValue.everywhere_array] at hw ht hf
    rintro (_ | fuel) hfuel rest
    · simp [encodeValue] at hfuel
    · have hlen : items.length < 2 ^ 32 := hf.1
      have hsize : (encodeItems items).length ≤ fuel := by
        simp only [encodeValue, List.length_cons, List.length_append] at hfuel
        omega
      have hitems := decodeItems_encode (decodeValue nfc fuel) items
        (fun v hv => ih v hv (hw.2 v hv) (ht.2 v hv) (hf.2 v hv) fuel
          (le_trans (length_encodeValue_le_items hv) hsize)) rest
      simp [encodeValue, decodeValue, decodeVarint32_encode, toNat_ofNat_u32 hlen, hitems]
  | map entries ih =>
    simp only [NrfValue.WellFormed, NrfValue.TextOk, NrfValue.Fits,
      NrfValue.everywhere_map] at hw ht hf
    rintro (_ | fuel) hfuel rest
    · simp [encodeValue] at hfuel
    · have hlen := hf.1.1
      have hsize : (encodeEntries entries).length ≤ fuel := by
        simp only [encodeValue, List.length_cons, List.length_append] at hfuel
        omega
      have hentries := decodeEntries_encode (decodeValue nfc fuel) entries [] hw.1
        (fun e he rest => by
          have hle := length_encodeValue_le_entries he
          have hpos : 0 < (encodeString e.1).length := by simp [encodeString]
          obtain ⟨fuel', rfl⟩ : ∃ n, fuel = n + 1 := ⟨fuel - 1, by omega⟩
          exact decodeValue_encodeString (ht.1 e he) (hf.1.2 e he) fuel' rest)
        (fun e he => ih e he (hw.2 e he) (ht.2 e he) (hf.2 e he) fuel
          (by have := length_encodeValue_le_entries he; omega)) rest
      simp [encodeValue, decodeValue, decodeVarint32_encode, toNat_ofNat_u32 hlen, hentries]

/-- The whole input is one value and its encoding is read back, to the last byte. -/
theorem decodeFromSlice_encodeToVec (nfc : String → String) (v : NrfValue) (hw : v.WellFormed)
    (ht : v.TextOk nfc) (hf : v.Fits) :
    ∃ b, encodeToVec v = .ok b ∧ decodeFromSlice nfc b = .ok v ∧
      decodeValue nfc b.length (b.drop 4) = .ok (v, []) := by
  have hval := decodeValue_encode nfc v hw ht hf (MAGIC ++ encodeValue v).length (by simp) []
  rw [List.append_nil] at hval
  have hmagic : readExact 4 (MAGIC ++ encodeValue v) = .ok (MAGIC, encodeValue v) :=
    readExact_append MAGIC (encodeValue v)
  refine ⟨MAGIC ++ encodeValue v, rfl, ?_, hval⟩
  simp only [decodeFromSlice, hmagic, bind_ok, hval, ne_eq, not_true_eq_false, if_false,
    pure_eq_ok]

/-- A nested value with every kind of node. -/
def sampleValue : NrfValue :=
  .map [("arr", .array [.map [("x", .int (-42))], .null, .bytes [0, 255]]), ("flag", .bool true),
    ("name", .string "ubl")]

theorem decodeFromSlice_encodeToVec_sample :
    ∃ b, encodeToVec sampleValue = .ok b ∧ decodeFromSlice id b = .ok sampleValue ∧
      decodeValue id b.length (b.drop 4) = .ok (sampleValue, []) := by
  refine decodeFromSlice_encodeToVec id sampleValue ?_ ?_ ?_
  · simp only [sampleValue, NrfValue.WellFormed, NrfValue.everywhere_map, NrfValue.everywhere_array,
      NrfValue.everywhere_int, NrfValue.everywhere_null, NrfValue.everywhere_bytes,
      NrfValue.everywhere_bool, NrfValue.everywhere_string, List.forall_mem_cons]
    exact ⟨by decide, ⟨trivial, ⟨by decide, by simp⟩, by simp⟩, by simp⟩
  · simp [sampleValue, NrfValue.TextOk, TextClean]
    refine ⟨?_, by decide, by decide⟩
    rintro k v (⟨rfl, -⟩ | ⟨rfl, -⟩ | ⟨rfl, -⟩) <;> decide
  · simp [sampleValue, NrfValue.Fits]
    refine ⟨?_, by decide, by decide⟩
    rintro k v (⟨rfl, -⟩ | ⟨rfl, -⟩ | ⟨rfl, -⟩) <;> decide

end Ubl.Nrf
