import Ubl.Nrf.Decode

/-!
# Canonicity of the NRF decoder

The decoder refuses trailing bytes, long varints, duplicate keys, byte order marks and
strings out of NFC, but it inserts map entries in whatever order they come.  So an
accepted byte string is the encoding of its value exactly when its maps list their keys
in ascending order.  `wireTree` reads the bytes without any of the decoder's checks and
keeps map entries in wire order; `WireAscending` is the condition on what it reads.

    decodeFromSlice nfc b = .ok v → (encodeToVec v = .ok b ↔ WireAscending b)

The link between the two readings is `sortMaps`: the decoder returns the wire tree with
every map sorted (`decodeValue_sound`).
-/

namespace Ubl.Nrf

open AssocMap BigEndian Utf8 ExceptLemmas

/-! ## The wire tree of a byte string -/

/-- `count` entries in the order they stand on the wire. -/
def readWireEntries (dec : List UInt8 → Except NrfError (NrfValue × List UInt8)) :
    Nat → List UInt8 → Except NrfError (List (String × NrfValue) × List UInt8)
  | 0, bytes => .ok ([], bytes)
  | count + 1, bytes => do
    let (key, rest) ← decodeKey dec bytes
    let (value, rest) ← dec rest
    let (entries, rest) ← readWireEntries dec count rest
    pure ((key, value) :: entries, rest)

def readWire : Nat → List UInt8 → Except NrfError (NrfValue × List UInt8)
  | 0, _ => .error .depth
  | _ + 1, [] => .error .unexpectedEof
  | fuel + 1, tag :: bytes =>
    if tag = TAG_NULL then .ok (.null, bytes)
    else if tag = TAG_FALSE then .ok (.bool false, bytes)
    else if tag = TAG_TRUE then .ok (.bool true, bytes)
    else if tag = TAG_INT64 then do
      let (buf, rest) ← readExact 8 bytes
      pure (.int (i64OfBE buf), rest)
    else if tag = TAG_STRING then do
      let (buf, rest) ← readPrefixed bytes
      match fromUtf8 buf with
      | none => throw .invalidUTF8
      | some s => pure (.string s, rest)
    else if tag = TAG_BYTES then do
      let (buf, rest) ← readPrefixed bytes
      pure (.bytes buf, rest)
    else if tag = TAG_ARRAY then do
      let (count, rest) ← decodeVarint32 bytes
      let (items, rest) ← decodeItems (readWire fuel) count.toNat rest
      pure (.array items, rest)
    else if tag = TAG_MAP then do
      let (count, rest) ← decodeVarint32 bytes
      let (entries, rest) ← readWireEntries (readWire fuel) count.toNat rest
      pure (.map entries, rest)
    else .error (.invalidTypeTag tag)

/-- The value a byte string spells, with map entries in wire order. -/
def wireTree (bytes : List UInt8) : Except NrfError NrfValue := do
  let (value, _) ← readWire bytes.length (bytes.drop 4)
  pure value

/-- Every map of the byte string, at any depth, lists its keys in ascending order. -/
def WireAscending (bytes : List UInt8) : Prop := ∃ w, wireTree bytes = .ok w ∧ w.WellFormed

/-! ## Reading the wire tree off an encoding -/

theorem readWire_encodeString {s : String} (hl : s.utf8ByteSize < 2 ^ 32) (fuel : Nat)
    (rest : List UInt8) :
    readWire (fuel + 1) (encodeString s ++ rest) = .ok (.string s, rest) := by
  have hread := readPrefixed_encode (utf8 s) (by simpa using hl) rest
  rw [length_utf8] at hread
  simp [encodeString, readWire, hread]

theorem readWireEntries_encode (dec : List UInt8 → Except NrfError (NrfValue × List UInt8))
    (entries : List (String × NrfValue))
    (hk : ∀ e ∈ entries, ∀ rest, dec (encodeString e.1 ++ rest) = .ok (.string e.1, rest))
    (hv : ∀ e ∈ entries, ∀ rest, dec (encodeValue e.2 ++ rest) = .ok (e.2, rest))
    (rest : List UInt8) :
    readWireEntries dec entries.length (encodeEntries entries ++ rest) = .ok (entries, rest) := by
  induction entries with
  | nil => rfl
  | cons e entries ih =>
    obtain ⟨k, v⟩ := e
    have hkey : decodeKey dec (encodeString k ++ (encodeValue v ++ (encodeEntries entries ++ rest)))
        = .ok (k, encodeValue v ++ (encodeEntries entries ++ rest)) := by
      simp only [decodeKey, hk (k, v) List.mem_cons_self, bind_ok, pure_eq_ok]
    have hval := hv (k, v) List.mem_cons_self (encodeEntries entries ++ rest)
    have hrest := ih (fun f hf => hk f (List.mem_cons_of_mem _ hf))
      (fun f hf => hv f (List.mem_cons_of_mem _ hf))
    simp only [List.length_cons, encodeEntries, List.append_assoc, readWireEntries, hkey, bind_ok,
      hval, hrest, pure_eq_ok]

theorem readWire_encode (w : NrfValue) (hf : w.Fits) :
    ∀ fuel, (encodeValue w).length ≤ fuel → ∀ rest,
      readWire fuel (encodeValue w ++ rest) = .ok (w, rest) := by
  induction w using NrfValue.ind with
  | null =>
    rintro (_ | fuel) hfuel rest
    · simp [encodeValue] at hfuel
    · rfl
  | bool b =>
    rintro (_ | fuel) hfuel rest
    · cases b <;> simp [encodeValue] at hfuel
    · cases b <;> rfl
  | int i =>
    rintro (_ | fuel) hfuel rest
    · simp [encodeValue] at hfuel
    · have hread := readExact_append (i64ToBE i) rest
      rw [i64ToBE, length_toBE, ← i64ToBE] at hread
      simp [encodeValue, readWire, hread, i64OfBE_i64ToBE]
  | string s =>
    rintro (_ | fuel) hfuel rest
    · simp [encodeValue, encodeString] at hfuel
    · simpa [encodeValue] using readWire_encodeString hf.here fuel rest
  | bytes b =>
    rintro (_ | fuel) hfuel rest
    · simp [encodeValue] at hfuel
    · have hread := readPrefixed_encode b hf.here rest
      simp [encodeValue, readWire, hread]
  | array items ih =>
    simp only [NrfValue.Fits, NrfValue.everywhere_array] at hf
    rintro (_ | fuel) hfuel rest
    · simp [encodeValue] at hfuel
    · have hlen : items.length < 2 ^ 32 := hf.1
      have hsize : (encodeItems items).length ≤ fuel := by
        simp only [encodeValue, List.length_cons, List.length_append] at hfuel
        omega
      have hitems := decodeItems_encode (readWire fuel) items
        (fun v hv => ih v hv (hf.2 v hv) fuel
          (le_trans (length_encodeValue_le_items hv) hsize)) rest
      simp [encodeValue, readWire, decodeVarint32_encode, toNat_ofNat_u32 hlen, hitems]
  | map entries ih =>
    simp only [NrfValue.Fits, NrfValue.everywhere_map] at hf
    rintro (_ | fuel) hfuel rest
    · simp [encodeValue] at hfuel
    · have hlen := hf.1.1
      have hsize : (encodeEntries entries).length ≤ fuel := by
        simp only [encodeValue, List.length_cons, List.length_append] at hfuel
        omega
      have hentries := readWireEntries_encode (readWire fuel) entries
        (fun e he rest => by
          have hle := length_encodeValue_le_entries he
          have hpos : 0 < (encodeString e.1).length := by simp [encodeString]
          obtain ⟨fuel', rfl⟩ : ∃ n, fuel = n + 1 := ⟨fuel - 1, by omega⟩
          exact readWire_encodeString (hf.1.2 e he) fuel' rest)
        (fun e he => ih e he (hf.2 e he) fuel
          (by have := length_encodeValue_le_entries he; omega)) rest
      simp [encodeValue, readWire, decodeVarint32_encode, toNat_ofNat_u32 hlen, hentries]

theorem wireTree_encode (w : NrfValue) (hf : w.Fits) : wireTree (MAGIC ++ encodeValue w) = .ok w := by
  have h := readWire_encode w hf (MAGIC ++ encodeValue w).length (by simp) []
  rw [List.append_nil] at h
  have hd : (MAGIC ++ encodeValue w).drop 4 = encodeValue w := rfl
  simp only [wireTree, hd, h, bind_ok, pure_eq_ok]

/-! ## What the decoder accepts -/

mutual

/-- The tree with every map sorted, its entries inserted in wire order. -/
def sortMaps : NrfValue → NrfValue
  | .null => .null
  | .bool b => .bool b
  | .int i => .int i
  | .string s => .string s
  | .bytes b => .bytes b
  | .array items => .array (sortItems items)
  | .map entries => .map (sortEntries [] entries)

def sortItems : List NrfValue → List NrfValue
  | [] => []
  | v :: items => sortMaps v :: sortItems items

def sortEntries (map : List (String × NrfValue)) :
    List (String × NrfValue) → List (String × NrfValue)
  | [] => map
  | (k, v) :: entries => sortEntries (sortedInsert k (sortMaps v) map) entries

end

theorem sortItems_eq {items : List NrfValue} (h : ∀ v ∈ items, sortMaps v = v) :
    sortItems items = items := by
  induction items with
  | nil => rfl
  | cons v items ih =>
    rw [sortItems, h v List.mem_cons_self, ih fun w hw => h w (List.mem_cons_of_mem _ hw)]

theorem sortEntries_eq {entries map : List (String × NrfValue)} (hasc : Ascending (map ++ entries))
    (h : ∀ e ∈ entries, sortMaps e.2 = e.2) : sortEntries map entries = map ++ entries := by
  induction entries generalizing map with
  | nil => simp [sortEntries]
  | cons e entries ih =>
    obtain ⟨k, v⟩ := e
    have hlt : ∀ f ∈ map, f.1 < k := fun f hf =>
      (List.pairwise_append.mp hasc).2.2 f hf (k, v) List.mem_cons_self
    have hv : sortMaps v = v := h (k, v) List.mem_cons_self
    rw [sortEntries, hv, sortedInsert_last v hlt,
      ih (by simpa using hasc) fun f hf => h f (List.mem_cons_of_mem _ hf)]
    simp

/-- A tree whose maps ascend is not changed by sorting. -/
theorem sortMaps_eq (w : NrfValue) (h : w.WellFormed) : sortMaps w = w := by
  induction w using NrfValue.ind with
  | null => rfl
  | bool b => rfl
  | int i => rfl
  | string s => rfl
  | bytes b => rfl
  | array items ih =>
    simp only [NrfValue.WellFormed, NrfValue.everywhere_array] at h
    rw [sortMaps, sortItems_eq fun v hv => ih v hv (h.2 v hv)]
  | map entries ih =>
    simp only [NrfValue.WellFormed, NrfValue.everywhere_map] at h
    have hasc : Ascending ([] ++ entries) := h.1
    rw [sortMaps, sortEntries_eq hasc fun e he => ih e he (h.2 e he), List.nil_append]

theorem readExact_sound {n : Nat} {bs buf rest : List UInt8}
    (h : readExact n bs = .ok (buf, rest)) : bs = buf ++ rest ∧ buf.length = n := by
  unfold readExact at h
  split_ifs at h with hn
  simp only [Except.ok.injEq, Prod.mk.injEq] at h
  obtain ⟨rfl, rfl⟩ := h
  exact ⟨(List.take_append_drop n bs).symm, by simpa using hn⟩

theorem readPrefixed_sound {bs buf rest : List UInt8} (h : readPrefixed bs = .ok (buf, rest)) :
    bs = encodeVarint32 (UInt32.ofNat buf.length) ++ (buf ++ rest) ∧ buf.length < 2 ^ 32 := by
  obtain ⟨⟨len, rest'⟩, hlen, hread⟩ := bind_eq_ok.mp h
  obtain ⟨rfl, hbuf⟩ := readExact_sound hread
  have := len.toNat_lt
  refine ⟨?_, by omega⟩
  rw [decodeVarint32_sound hlen, hbuf, UInt32.ofNat_toNat]

theorem decodeString_sound {nfc : String → String} {bs rest : List UInt8} {s : String}
    (h : decodeString nfc bs = .ok (s, rest)) :
    bs = encodeVarint32 (UInt32.ofNat s.utf8ByteSize) ++ (utf8 s ++ rest) ∧
      s.utf8ByteSize < 2 ^ 32 := by
  obtain ⟨⟨buf, rest'⟩, hbuf, hs⟩ := bind_eq_ok.mp h
  obtain ⟨rfl, hlen⟩ := readPrefixed_sound hbuf
  simp only at hs
  split at hs
  · cases hs
  · next t ht =>
    simp only [throw_eq_error, bind_error, ite_error_eq_ok, pure_eq_ok, Except.ok.injEq,
      Prod.mk.injEq] at hs
    obtain ⟨-, -, rfl, rfl⟩ := hs
    obtain rfl := fromUtf8_eq_some.mp ht
    exact ⟨by rw [length_utf8], by simpa using hlen⟩

/-- What a reader of one value promises of the bytes it accepts. -/
def Sound (dec : List UInt8 → Except NrfError (NrfValue × List UInt8)) : Prop :=
  ∀ bs v rest, dec bs = .ok (v, rest) →
    ∃ w, bs = encodeValue w ++ rest ∧ v = sortMaps w ∧ w.Fits ∧ v.Fits ∧ v.WellFormed

theorem decodeItems_sound {dec : List UInt8 → Except NrfError (NrfValue × List UInt8)}
    (hdec : Sound dec) {count : Nat} {bs rest : List UInt8} {items : List NrfValue}
    (h : decodeItems dec count bs = .ok (items, rest)) :
    ∃ ws, bs = encodeItems ws ++ rest ∧ items = sortItems ws ∧ ws.length = count ∧
      items.length = count ∧ (∀ w ∈ ws, w.Fits) ∧ ∀ v ∈ items, v.Fits ∧ v.WellFormed := by
  induction count generalizing bs items with
  | zero =>
    simp only [decodeItems, Except.ok.injEq, Prod.mk.injEq] at h
    obtain ⟨rfl, rfl⟩ := h
    exact ⟨[], rfl, rfl, rfl, rfl, by simp, by simp⟩
  | succ count ih =>
    obtain ⟨⟨v, rest₁⟩, hv, h⟩ := bind_eq_ok.mp h
    obtain ⟨⟨items', rest₂⟩, hitems, h⟩ := bind_eq_ok.mp h
    simp only [pure_eq_ok, Except.ok.injEq, Prod.mk.injEq] at h
    obtain ⟨rfl, rfl⟩ := h
    obtain ⟨w, rfl, rfl, hwf, hvf, hvw⟩ := hdec _ _ _ hv
    obtain ⟨ws, rfl, rfl, rfl, hlen, hwsf, hvs⟩ := ih hitems
    refine ⟨w :: ws, by simp [encodeItems], rfl, rfl, by simpa using hlen, ?_, ?_⟩
    · simpa using ⟨hwf, hwsf⟩
    · intro u hu
      rcases List.mem_cons.mp hu with rfl | hu
      · exact ⟨hvf, hvw⟩
      · exact hvs u hu

theorem decodeKey_sound {dec : List UInt8 → Except NrfError (NrfValue × List UInt8)}
    (hdec : Sound dec) {bs rest : List UInt8} {key : String}
    (h : decodeKey dec bs = .ok (key, rest)) :
    bs = encodeString key ++ rest ∧ key.utf8ByteSize < 2 ^ 32 := by
  obtain ⟨⟨v, rest'⟩, hv, h⟩ := bind_eq_ok.mp h
  obtain ⟨w, rfl, hvw, hwf, -, -⟩ := hdec _ _ _ hv
  cases w <;> simp only [sortMaps] at hvw <;> subst hvw <;>
    simp only [throw_eq_error, reduceCtorEq, pure_eq_ok, Except.ok.injEq, Prod.mk.injEq] at h
  obtain ⟨rfl, rfl⟩ := h
  exact ⟨rfl, hwf.here⟩

theorem length_sortedInsert {k : String} {v : NrfValue} {map : List (String × NrfValue)}
    (h : k ∉ keys map) : (sortedInsert k v map).length = map.length + 1 := by
  rw [(sortedInsert_perm v h).length_eq, List.length_cons]

theorem decodeEntries_sound {dec : List UInt8 → Except NrfError (NrfValue × List UInt8)}
    (hdec : Sound dec) {count : Nat} {map es : List (String × NrfValue)} {bs rest : List UInt8}
    (hasc : Ascending map)
    (hmap : ∀ e ∈ map, e.1.utf8ByteSize < 2 ^ 32 ∧ e.2.Fits ∧ e.2.WellFormed)
    (h : decodeEntries dec count map bs = .ok (es, rest)) :
    ∃ ws, bs = encodeEntries ws ++ rest ∧ es = sortEntries map ws ∧ ws.length = count ∧
      es.length = map.length + count ∧ Ascending es ∧
      (∀ e ∈ ws, e.1.utf8ByteSize < 2 ^ 32 ∧ e.2.Fits) ∧
      ∀ e ∈ es, e.1.utf8ByteSize < 2 ^ 32 ∧ e.2.Fits ∧ e.2.WellFormed := by
  induction count generalizing map bs with
  | zero =>
    simp only [decodeEntries, Except.ok.injEq, Prod.mk.injEq] at h
    obtain ⟨rfl, rfl⟩ := h
    exact ⟨[], rfl, rfl, rfl, rfl, hasc, by simp, hmap⟩
  | succ count ih =>
    obtain ⟨⟨key, rest₁⟩, hkey, h⟩ := bind_eq_ok.mp h
    simp only [throw_eq_error, bind_error, ite_error_eq_ok] at h
    obtain ⟨hnew, h⟩ := h
    obtain ⟨⟨value, rest₂⟩, hvalue, h⟩ := bind_eq_ok.mp h
    obtain ⟨rfl, hks⟩ := decodeKey_sound hdec hkey
    obtain ⟨w, rfl, rfl, hwf, hvf, hvw⟩ := hdec _ _ _ hvalue
    obtain ⟨ws, rfl, rfl, rfl, hlen, hes, hws, hprops⟩ := ih
      (sortedInsert_ascending key (sortMaps w) hasc)
      (fun e he => by
        rcases mem_sortedInsert he with rfl | he
        · exact ⟨hks, hvf, hvw⟩
        · exact hmap e he) h
    refine ⟨(key, w) :: ws, by simp [encodeEntries], rfl, rfl, ?_, hes, ?_, hprops⟩
    · rw [hlen, length_sortedInsert hnew]
      ring
    · intro e he
      rcases List.mem_cons.mp he with rfl | he
      · exact ⟨hks, hwf⟩
      · exact hws e he

theorem decodeValue_sound (nfc : String → String) (fuel : Nat) :
    Sound (decodeValue nfc fuel) := by
  induction fuel with
  | zero =>
    intro bs v rest h
    cases h
  | succ fuel ih =>
    rintro (_ | ⟨tag, bytes⟩) v rest h
    · cases h
    rw [decodeValue] at h
    split_ifs at h with h0 h1 h2 h3 h4 h5 h6 h7
    · obtain ⟨rfl, rfl⟩ : .null = v ∧ bytes = rest := by simpa using h
      exact ⟨.null, by simp [encodeValue, h0], rfl, by simp [NrfValue.Fits],
        by simp [NrfValue.Fits], by simp [NrfValue.WellFormed]⟩
    · obtain ⟨rfl, rfl⟩ : .bool false = v ∧ bytes = rest := by simpa using h
      exact ⟨.bool false, by simp [encodeValue, h1], rfl, by simp [NrfValue.Fits],
        by simp [NrfValue.Fits], by simp [NrfValue.WellFormed]⟩
    · obtain ⟨rfl, rfl⟩ : .bool true = v ∧ bytes = rest := by simpa using h
      exact ⟨.bool true, by simp [encodeValue, h2], rfl, by simp [NrfValue.Fits],
        by simp [NrfValue.Fits], by simp [NrfValue.WellFormed]⟩
    · obtain ⟨⟨buf, rest₁⟩, hbuf, h⟩ := bind_eq_ok.mp h
      obtain ⟨rfl, rfl⟩ : .int (i64OfBE buf) = v ∧ rest₁ = rest := by simpa using h
      obtain ⟨rfl, hlen⟩ := readExact_sound hbuf
      exact ⟨.int (i64OfBE buf), by simp [encodeValue, h3, i64ToBE_i64OfBE hlen], rfl,
        by simp [NrfValue.Fits], by simp [NrfValue.Fits], by simp [NrfValue.WellFormed]⟩
    · obtain ⟨⟨s, rest₁⟩, hs, h⟩ := bind_eq_ok.mp h
      obtain ⟨rfl, rfl⟩ : .string s = v ∧ rest₁ = rest := by simpa using h
      obtain ⟨rfl, hlen⟩ := decodeString_sound hs
      exact ⟨.string s, by simp [encodeValue, encodeString, h4], rfl, by simpa [NrfValue.Fits],
        by simpa [NrfValue.Fits], by simp [NrfValue.WellFormed]⟩
    · obtain ⟨⟨buf, rest₁⟩, hbuf, h⟩ := bind_eq_ok.mp h
      obtain ⟨rfl, rfl⟩ : .bytes buf = v ∧ rest₁ = rest := by simpa using h
      obtain ⟨rfl, hlen⟩ := readPrefixed_sound hbuf
      exact ⟨.bytes buf, by simp [encodeValue, h5], rfl, by simpa [NrfValue.Fits],
        by simpa [NrfValue.Fits], by simp [NrfValue.WellFormed]⟩
    · obtain ⟨⟨count, rest₁⟩, hcount, h⟩ := bind_eq_ok.mp h
      obtain ⟨⟨items, rest₂⟩, hitems, h⟩ := bind_eq_ok.mp h
      obtain ⟨rfl, rfl⟩ : .array items = v ∧ rest₂ = rest := by simpa using h
      obtain ⟨ws, rfl, rfl, hws, hlen, hwf, hv⟩ := decodeItems_sound ih hitems
      have := count.toNat_lt
      refine ⟨.array ws, ?_, rfl, ?_, ?_, ?_⟩
      · rw [decodeVarint32_sound hcount]
        simp [encodeValue, h6, hws, UInt32.ofNat_toNat]
      · exact NrfValue.everywhere_array.mpr ⟨by simp only; omega, hwf⟩
      · exact NrfValue.everywhere_array.mpr ⟨by simp only; omega, fun u hu => (hv u hu).1⟩
      · exact NrfValue.everywhere_array.mpr ⟨trivial, fun u hu => (hv u hu).2⟩
    · obtain ⟨⟨count, rest₁⟩, hcount, h⟩ := bind_eq_ok.mp h
      obtain ⟨⟨es, rest₂⟩, hes, h⟩ := bind_eq_ok.mp h
      obtain ⟨rfl, rfl⟩ : .map es = v ∧ rest₂ = rest := by simpa using h
      obtain ⟨ws, rfl, rfl, hws, hlen, hasc, hwf, hv⟩ :=
        decodeEntries_sound ih List.Pairwise.nil (by simp) hes
      have := count.toNat_lt
      rw [List.length_nil, Nat.zero_add] at hlen
      refine ⟨.map ws, ?_, rfl, ?_, ?_, ?_⟩
      · rw [decodeVarint32_sound hcount]
        simp [encodeValue, h7, hws, UInt32.ofNat_toNat]
      · exact NrfValue.everywhere_map.mpr
          ⟨⟨by omega, fun e he => (hwf e he).1⟩, fun e he => (hwf e he).2⟩
      · exact NrfValue.everywhere_map.mpr
          ⟨⟨by omega, fun e he => (hv e he).1⟩, fun e he => (hv e he).2.1⟩
      · exact NrfValue.everywhere_map.mpr ⟨hasc, fun e he => (hv e he).2.2⟩

/-- An accepted byte string is the magic and one encoded wire tree, whose sorted form
is the value returned. -/
theorem decodeFromSlice_sound {nfc : String → String} {b : List UInt8} {v : NrfValue}
    (h : decodeFromSlice nfc b = .ok v) :
    ∃ w, b = MAGIC ++ encodeValue w ∧ v = sortMaps w ∧ w.Fits ∧ v.Fits ∧ v.WellFormed := by
  obtain ⟨⟨magic, rest⟩, hmagic, h⟩ := bind_eq_ok.mp h
  simp only [throw_eq_error, bind_error, ite_error_eq_ok, not_not] at h
  obtain ⟨rfl, h⟩ := h
  obtain ⟨⟨value, rest'⟩, hvalue, h⟩ := bind_eq_ok.mp h
  simp only [ite_error_eq_ok, not_not, pure_eq_ok, Except.ok.injEq] at h
  obtain ⟨rfl, rfl⟩ := h
  obtain ⟨rfl, -⟩ := readExact_sound hmagic
  obtain ⟨w, rfl, hv⟩ := decodeValue_sound nfc _ _ _ _ hvalue
  exact ⟨w, by simp, hv⟩

/-! ## Canonicity -/

/-- An accepted byte string is the encoding of its value exactly when its maps ascend,
and at most one such byte string decodes to a given value. -/
theorem decodeFromSlice_canonical_iff (nfc : String → String) (b : List UInt8) (v : NrfValue)
    (h : decodeFromSlice nfc b = .ok v) :
    (encodeToVec v = .ok b ↔ WireAscending b) ∧
      ∀ b', decodeFromSlice nfc b' = .ok v → WireAscending b → WireAscending b' → b' = b := by
  have canonical {b : List UInt8} (h : decodeFromSlice nfc b = .ok v) (hb : WireAscending b) :
      encodeToVec v = .ok b := by
    obtain ⟨w, rfl, rfl, hf, -, -⟩ := decodeFromSlice_sound h
    obtain ⟨w', hw', hasc⟩ := hb
    rw [wireTree_encode w hf] at hw'
    obtain rfl := Except.ok.inj hw'
    rw [sortMaps_eq w hasc, encodeToVec]
  refine ⟨⟨fun henc => ?_, canonical h⟩, fun b' h' hb hb' => ?_⟩
  · obtain ⟨w, -, -, -, hf, hw⟩ := decodeFromSlice_sound h
    obtain rfl := Except.ok.inj henc
    exact ⟨v, wireTree_encode v hf, hw⟩
  · exact Except.ok.inj ((canonical h' hb').symm.trans (canonical h hb))

/-- `{"a": null, "b": true}`, the keys in ascending order. -/
def ascendingBytes : List UInt8 :=
  MAGIC ++ [TAG_MAP, 2, TAG_STRING, 1, 0x61, TAG_NULL, TAG_STRING, 1, 0x62, TAG_TRUE]

/-- The same entries with the key `"b"` first. -/
def descendingBytes : List UInt8 :=
  MAGIC ++ [TAG_MAP, 2, TAG_STRING, 1, 0x62, TAG_TRUE, TAG_STRING, 1, 0x61, TAG_NULL]

def twoKeys : NrfValue := .map [("a", .null), ("b", .bool true)]

theorem decodeFromSlice_ascendingBytes : decodeFromSlice id ascendingBytes = .ok twoKeys := by
  with_unfolding_all rfl

theorem decodeFromSlice_canonical_iff_ascendingBytes :
    (encodeToVec twoKeys = .ok ascendingBytes ↔ WireAscending ascendingBytes) ∧
      ∀ b', decodeFromSlice id b' = .ok twoKeys → WireAscending ascendingBytes →
        WireAscending b' → b' = ascendingBytes :=
  decodeFromSlice_canonical_iff id ascendingBytes twoKeys decodeFromSlice_ascendingBytes

/-- Both spellings decode to one value; only one of them is its encoding. -/
theorem decodeFromSlice_descendingBytes_not_canonical :
    decodeFromSlice id descendingBytes = .ok twoKeys ∧
      encodeToVec twoKeys ≠ .ok descendingBytes ∧
      decodeFromSlice id ascendingBytes = .ok twoKeys ∧ ascendingBytes ≠ descendingBytes := by
  refine ⟨by with_unfolding_all rfl, ?_, decodeFromSlice_ascendingBytes, by decide⟩
  intro h
  have := Except.ok.inj h
  revert this
  decide +kernel

end Ubl.Nrf
