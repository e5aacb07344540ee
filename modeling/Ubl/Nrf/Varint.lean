import Mathlib

/-!
# `nrf.rs`: the varint of lengths and counts

`encodeVarint32` writes a `u32` in groups of seven bits, low group first, with the
continuation bit `0x80` on every byte but the last.  `decodeVarint32` reads at most
five bytes and refuses anything that does not fit 32 bits or is not minimal.

    decodeVarint32 (encodeVarint32 n ++ rest) = .ok (n, rest)                  (decodeVarint32_encode)
    decodeVarint32 bs = .ok (n, rest) → bs = encodeVarint32 n ++ rest          (decodeVarint32_sound)

Both go through `decodeVarint32Loop`, whose accumulator holds the groups read so far.  `AtByte` follows
that loop over any input; its shifts stay below the width of a `u32` and drop no bit (`varint32_codec`).
-/

namespace Ubl.Nrf

/-- The errors of the NRF codec; `text` is the message the source raises. -/
inductive NrfError where
  | unexpectedEof
  | invalidMagic
  | trailingData
  | varIntOverflow
  | nonMinimalVarint
  | invalidUTF8
  | bomPresent
  | notNFC
  | nonStringKey
  | duplicateKey (key : String)
  | invalidTypeTag (tag : UInt8)
  /-- recursion deeper than the input is long; never returned by `decodeFromSlice` -/
  | depth
deriving DecidableEq

def NrfError.text : NrfError → String
  | .unexpectedEof => "failed to fill whole buffer"
  | .invalidMagic => "InvalidMagic"
  | .trailingData => "TrailingData"
  | .varIntOverflow => "VarIntOverflow: value exceeds 32-bit limit"
  | .nonMinimalVarint => "NonMinimalVarint"
  | .invalidUTF8 => "InvalidUTF8"
  | .bomPresent => "BOMPresent"
  | .notNFC => "NotNFC"
  | .nonStringKey => "NonStringKey"
  | .duplicateKey key => "DuplicateKey(" ++ key ++ ")"
  | .invalidTypeTag tag => "InvalidTypeTag(" ++ toString tag ++ ")"
  | .depth => "stack overflow"

/-! ## Algorithm -/

def encodeVarint32 (n : UInt32) : List UInt8 :=
  let byte := (n &&& 0x7f).toUInt8
  let n' := n >>> 7
  if n' ≠ 0 then (byte ||| 0x80) :: encodeVarint32 n' else [byte]
termination_by n.toNat
decreasing_by
  have h : n'.toNat ≠ 0 := fun h0 => ‹n' ≠ 0› (UInt32.toNat_inj.mp (by simpa using h0))
  have e : n'.toNat = n.toNat / 128 := by
    simp only [n', UInt32.toNat_shiftRight, UInt32.reduceToNat, Nat.reduceMod]
    exact Nat.shiftRight_eq_div_pow _ 7
  rw [e] at h ⊢
  omega

/-- The loop of `decode_varint32`: the groups read so far, the shift of the next
one and the number of bytes read. -/
def decodeVarint32Loop (result : UInt32) (shift bytesRead : Nat) :
    List UInt8 → Except NrfError (UInt32 × Nat × List UInt8)
  | [] => .error .unexpectedEof
  | b :: rest =>
    let bytesRead := bytesRead + 1
    let val := (b &&& 0x7f).toUInt32
    -- on the fifth byte only four bits fit
    if shift = 28 ∧ 0x0f < val then .error .varIntOverflow
    else
      let result := result ||| (val <<< UInt32.ofNat shift)
      if b &&& 0x80 = 0 then .ok (result, bytesRead, rest)
      else
        let shift := shift + 7
        if 28 < shift ∨ 5 ≤ bytesRead then .error .nonMinimalVarint
        else decodeVarint32Loop result shift bytesRead rest

def decodeVarint32 (bytes : List UInt8) : Except NrfError (UInt32 × List UInt8) := do
  let (result, bytesRead, rest) ← decodeVarint32Loop 0 0 0 bytes
  if 1 < bytesRead ∧ result >>> UInt32.ofNat (7 * (bytesRead - 1)) = 0 then
    throw .nonMinimalVarint
  pure (result, rest)

/-! ## The bytes of a group -/

theorem low7 (n : UInt32) : ((n &&& 0x7f).toUInt8).toNat = n.toNat % 128 := by
  rw [UInt32.toNat_toUInt8, UInt32.toNat_and]
  have h : (0x7f : UInt32).toNat = 2 ^ 7 - 1 := rfl
  rw [h, Nat.and_two_pow_sub_one_eq_mod]
  omega

theorem shr7 (n : UInt32) : (n >>> 7).toNat = n.toNat / 128 := by
  rw [UInt32.toNat_shiftRight]
  exact Nat.shiftRight_eq_div_pow _ 7

theorem payload_toNat (b : UInt8) : ((b &&& 0x7f).toUInt32).toNat = b.toNat % 128 := by
  rw [UInt8.toNat_toUInt32, UInt8.toNat_and]
  have h : (0x7f : UInt8).toNat = 2 ^ 7 - 1 := rfl
  rw [h, Nat.and_two_pow_sub_one_eq_mod]

/-- The continuation bit. -/
theorem and80_eq_zero : ∀ b : UInt8, b &&& 0x80 = 0 ↔ b.toNat < 128 := by
  decide +kernel

theorem or80 : ∀ b : UInt8, b.toNat < 128 → (b ||| 0x80).toNat = b.toNat + 128 := by
  decide +kernel

/-- One group of the writer, on `Nat` values. -/
theorem encodeVarint32_eq (n : UInt32) :
    encodeVarint32 n = if n.toNat < 128 then [UInt8.ofNat n.toNat]
      else UInt8.ofNat (n.toNat % 128 + 128) :: encodeVarint32 (n >>> 7) := by
  rw [encodeVarint32]
  have hz : n >>> 7 = 0 ↔ n.toNat < 128 := by
    rw [← UInt32.toNat_inj, shr7]
    simp
  by_cases h : n.toNat < 128
  · rw [if_pos h, if_neg (by simpa using hz.mpr h)]
    congr 1
    apply UInt8.toNat_inj.mp
    rw [low7, UInt8.toNat_ofNat']
    omega
  · rw [if_neg h, if_pos (fun h0 => h (hz.mp h0))]
    congr 1
    apply UInt8.toNat_inj.mp
    rw [or80 _ (by rw [low7]; omega), low7, UInt8.toNat_ofNat']
    omega

/-! ## Reading one group -/

theorem pow_group (k : Nat) : 2 ^ (7 * (k + 1)) = 2 ^ (7 * k) * 128 := by
  rw [Nat.mul_add, pow_add]
  norm_num

/-- A value at weight `p` is its low group there and the rest one group higher. -/
theorem split_group (m p : Nat) : m * p = m % 128 * p + m / 128 * (p * 128) := by
  conv_lhs => rw [← Nat.mod_add_div m 128]
  ring

theorem group_lt {r v p : Nat} (hr : r < p) (hv : v < 128) : r + v * p < p * 128 := by
  have h : v * p ≤ 127 * p := Nat.mul_le_mul_right p (by omega)
  omega

/-- Adding the group `v` at `shift` to an accumulator below `2 ^ shift`. -/
theorem acc_group (result val : UInt32) (shift : Nat) (hs : shift < 32)
    (hr : result.toNat < 2 ^ shift) (hv : val.toNat * 2 ^ shift < 2 ^ 32) :
    (result ||| (val <<< UInt32.ofNat shift)).toNat = result.toNat + val.toNat * 2 ^ shift := by
  have hsh : (UInt32.ofNat shift).toNat % 32 = shift := by
    rw [UInt32.toNat_ofNat_of_lt' (by simp [UInt32.size]; omega), Nat.mod_eq_of_lt hs]
  rw [UInt32.toNat_or, UInt32.toNat_shiftLeft, hsh, Nat.shiftLeft_eq, Nat.mod_eq_of_lt hv,
    Nat.mul_comm, Nat.or_comm, ← Nat.two_pow_add_eq_or_of_lt hr, Nat.add_comm]

/-- What one byte does to the loop, on `Nat` values. -/
theorem decodeVarint32Loop_cons (result : UInt32) (shift bytesRead : Nat) (b : UInt8)
    (rest : List UInt8) :
    decodeVarint32Loop result shift bytesRead (b :: rest) =
      if shift = 28 ∧ 15 < b.toNat % 128 then .error .varIntOverflow
      else if b.toNat < 128 then
        .ok (result ||| ((b &&& 0x7f).toUInt32 <<< UInt32.ofNat shift), bytesRead + 1, rest)
      else if 28 < shift + 7 ∨ 5 ≤ bytesRead + 1 then .error .nonMinimalVarint
      else decodeVarint32Loop (result ||| ((b &&& 0x7f).toUInt32 <<< UInt32.ofNat shift))
        (shift + 7) (bytesRead + 1) rest := by
  have hov : (0x0f < (b &&& 0x7f).toUInt32) ↔ 15 < b.toNat % 128 := by
    rw [UInt32.lt_iff_toNat_lt, payload_toNat]
    rfl
  simp only [decodeVarint32Loop, hov, and80_eq_zero]

/-! ## Reader ∘ writer -/

/-- The loop reads the groups of `m` on top of the `k` groups it holds. -/
theorem decodeVarint32Loop_encode (rest : List UInt8) (m result : UInt32) (k : Nat) (hk : k ≤ 4)
    (hr : result.toNat < 2 ^ (7 * k)) (hm : m.toNat * 2 ^ (7 * k) < 2 ^ 32) :
    ∃ r, decodeVarint32Loop result (7 * k) k (encodeVarint32 m ++ rest) =
        .ok (r, k + (encodeVarint32 m).length, rest) ∧
      r.toNat = result.toNat + m.toNat * 2 ^ (7 * k) := by
  induction hn : m.toNat using Nat.strongRecOn generalizing m result k with
  | ind n ih =>
    subst hn
    rw [encodeVarint32_eq]
    by_cases h : m.toNat < 128
    · have hb : (UInt8.ofNat m.toNat).toNat = m.toNat := by
        rw [UInt8.toNat_ofNat']; omega
      have hval := payload_toNat (UInt8.ofNat m.toNat)
      rw [hb, Nat.mod_eq_of_lt h] at hval
      have hov : ¬ (7 * k = 28 ∧ 15 < m.toNat % 128) := by
        rintro ⟨h28, h15⟩
        rw [h28] at hm
        omega
      rw [if_pos h, List.singleton_append, decodeVarint32Loop_cons, hb, if_neg hov, if_pos h]
      refine ⟨_, rfl, ?_⟩
      rw [acc_group _ _ _ (by omega) hr (by rw [hval]; exact hm), hval]
    · -- a further group follows, so at most three have been read
      have hk3 : k ≤ 3 := by
        by_contra hcon
        obtain rfl : k = 4 := by omega
        norm_num at hm
        omega
      have hb : (UInt8.ofNat (m.toNat % 128 + 128)).toNat = m.toNat % 128 + 128 := by
        rw [UInt8.toNat_ofNat']; omega
      have hval := payload_toNat (UInt8.ofNat (m.toNat % 128 + 128))
      rw [hb] at hval
      have hsplit := split_group m.toNat (2 ^ (7 * k))
      have hval' : (m.toNat % 128 + 128) % 128 = m.toNat % 128 := by omega
      rw [hval'] at hval
      have hacc := acc_group result _ (7 * k) (by omega) hr (by rw [hval]; omega)
      rw [hval] at hacc
      rw [if_neg h, List.cons_append, decodeVarint32Loop_cons, hb, if_neg (by omega),
        if_neg (by omega), if_neg (by omega), show 7 * k + 7 = 7 * (k + 1) by ring]
      obtain ⟨r, hrun, hres⟩ := ih (m >>> 7).toNat (by rw [shr7]; omega) (m >>> 7) _ (k + 1)
        (by omega)
        (by rw [hacc, pow_group]; exact group_lt hr (Nat.mod_lt _ (by decide)))
        (by rw [shr7, pow_group]; omega) rfl
      refine ⟨r, ?_, ?_⟩
      · rw [hrun, List.length_cons, Nat.add_assoc, Nat.add_comm 1]
      · rw [hres, hacc, shr7, pow_group]
        omega

/-- A value of `k + 1` groups has a set bit in its last group. -/
theorem length_encodeVarint32 (m : UInt32) :
    (encodeVarint32 m).length = 1 ∨
      2 ^ (7 * ((encodeVarint32 m).length - 1)) ≤ m.toNat := by
  induction hn : m.toNat using Nat.strongRecOn generalizing m with
  | ind n ih =>
    subst hn
    rw [encodeVarint32_eq]
    by_cases h : m.toNat < 128
    · rw [if_pos h]
      exact Or.inl rfl
    · rw [if_neg h, List.length_cons, Nat.add_sub_cancel]
      right
      rcases ih (m >>> 7).toNat (by rw [shr7]; omega) (m >>> 7) rfl with h1 | h1
      · rw [h1]
        omega
      · rw [shr7] at h1
        have hlen : (encodeVarint32 (m >>> 7)).length =
            (encodeVarint32 (m >>> 7)).length - 1 + 1 := by
          rw [encodeVarint32_eq]
          split_ifs <;> simp
        rw [hlen, Nat.mul_add, pow_add]
        omega

theorem length_encodeVarint32_le (m : UInt32) : (encodeVarint32 m).length ≤ 5 := by
  rcases length_encodeVarint32 m with h | h
  · omega
  · by_contra hcon
    have h2 : 2 ^ (7 * 5) ≤ 2 ^ (7 * ((encodeVarint32 m).length - 1)) :=
      Nat.pow_le_pow_right (by decide) (by omega)
    have := m.toNat_lt
    omega

theorem length_encodeVarint32_pos (m : UInt32) : 0 < (encodeVarint32 m).length := by
  rw [encodeVarint32_eq]
  split_ifs <;> simp

/-- The shift of the minimality test, on `Nat` values. -/
theorem shr_groups_eq_zero (r : UInt32) (k : Nat) (hk : k ≤ 4) :
    r >>> UInt32.ofNat (7 * k) = 0 ↔ r.toNat < 2 ^ (7 * k) := by
  have hsh : (UInt32.ofNat (7 * k)).toNat % 32 = 7 * k := by
    rw [UInt32.toNat_ofNat_of_lt' (by simp [UInt32.size]; omega), Nat.mod_eq_of_lt (by omega)]
  rw [← UInt32.toNat_inj, UInt32.toNat_shiftRight, hsh, Nat.shiftRight_eq_div_pow]
  simp

theorem decodeVarint32_encode (n : UInt32) (rest : List UInt8) :
    decodeVarint32 (encodeVarint32 n ++ rest) = .ok (n, rest) := by
  obtain ⟨r, hrun, hres⟩ := decodeVarint32Loop_encode rest n 0 0 (by omega) (by simp)
    (by simpa using n.toNat_lt)
  obtain rfl : r = n := UInt32.toNat_inj.mp (by simpa using hres)
  have hmin : ¬ (1 < (encodeVarint32 r).length ∧
      r >>> UInt32.ofNat (7 * ((encodeVarint32 r).length - 1)) = 0) := by
    rintro ⟨h1, h2⟩
    have h5 := length_encodeVarint32_le r
    rw [shr_groups_eq_zero _ _ (by omega)] at h2
    rcases length_encodeVarint32 r with h | h <;> omega
  rw [Nat.mul_zero, Nat.zero_add] at hrun
  simp only [decodeVarint32, hrun, bind, Except.bind, if_neg hmin]
  rfl

/-! ## Writer ∘ reader -/

/-- What the loop accepts after `k` groups are the groups of one value `m`; they
are its writer's groups unless the last one is zero. -/
theorem decodeVarint32Loop_sound (bs rest : List UInt8) (result r : UInt32) (k l : Nat)
    (hk : k ≤ 4) (hr : result.toNat < 2 ^ (7 * k))
    (h : decodeVarint32Loop result (7 * k) k bs = .ok (r, l, rest)) :
    ∃ m : UInt32, k < l ∧ l ≤ 5 ∧ m.toNat * 2 ^ (7 * k) < 2 ^ 32 ∧
      r.toNat = result.toNat + m.toNat * 2 ^ (7 * k) ∧
      (l = k + 1 ∨ 2 ^ (7 * (l - k - 1)) ≤ m.toNat → bs = encodeVarint32 m ++ rest) := by
  induction bs generalizing result k with
  | nil => cases h
  | cons b bs ih =>
    have hb := b.toNat_lt
    rw [decodeVarint32Loop_cons] at h
    by_cases hov : 7 * k = 28 ∧ 15 < b.toNat % 128
    · rw [if_pos hov] at h
      cases h
    rw [if_neg hov] at h
    have hfit : b.toNat % 128 * 2 ^ (7 * k) < 2 ^ 32 := by
      interval_cases k <;> omega
    have hval := payload_toNat b
    have hacc := acc_group result _ (7 * k) (by omega) hr (by rw [hval]; exact hfit)
    rw [hval] at hacc
    by_cases hlast : b.toNat < 128
    · rw [if_pos hlast] at h
      simp only [Except.ok.injEq, Prod.mk.injEq] at h
      obtain ⟨rfl, rfl, rfl⟩ := h
      rw [Nat.mod_eq_of_lt hlast] at hfit hacc
      have hm : (UInt32.ofNat b.toNat).toNat = b.toNat :=
        UInt32.toNat_ofNat_of_lt' (by simp [UInt32.size]; omega)
      refine ⟨UInt32.ofNat b.toNat, by omega, by omega, by rw [hm]; exact hfit,
        by rw [hm]; exact hacc, fun _ => ?_⟩
      rw [encodeVarint32_eq, hm, if_pos hlast]
      simp
    · rw [if_neg hlast] at h
      by_cases hlong : 28 < 7 * k + 7 ∨ 5 ≤ k + 1
      · rw [if_pos hlong] at h
        cases h
      rw [if_neg hlong, show 7 * k + 7 = 7 * (k + 1) by ring] at h
      obtain ⟨m, hkl, hl5, hm32, hres, henc⟩ := ih _ (k + 1) (by omega)
        (by rw [hacc, pow_group]; exact group_lt hr (Nat.mod_lt _ (by decide))) h
      have hval : (b.toNat % 128 + 128 * m.toNat) * 2 ^ (7 * k) =
          b.toNat % 128 * 2 ^ (7 * k) + m.toNat * 2 ^ (7 * (k + 1)) := by
        rw [pow_group]
        ring
      have hr32 : (b.toNat % 128 + 128 * m.toNat) * 2 ^ (7 * k) < 2 ^ 32 := by
        have := r.toNat_lt
        omega
      have hm' : b.toNat % 128 + 128 * m.toNat < 2 ^ 32 :=
        lt_of_le_of_lt (Nat.le_mul_of_pos_right _ (Nat.two_pow_pos _)) hr32
      have hm : (UInt32.ofNat (b.toNat % 128 + 128 * m.toNat)).toNat =
          b.toNat % 128 + 128 * m.toNat :=
        UInt32.toNat_ofNat_of_lt' (by simpa [UInt32.size] using hm')
      refine ⟨UInt32.ofNat (b.toNat % 128 + 128 * m.toNat), by omega, hl5, ?_, ?_, ?_⟩
      · rw [hm]
        exact hr32
      · rw [hm, hres, hacc, hval, Nat.add_assoc]
      · rintro (h1 | h1)
        · omega
        · rw [hm, show l - k - 1 = l - (k + 1) - 1 + 1 by omega, Nat.mul_add, pow_add] at h1
          have hm1 : 2 ^ (7 * (l - (k + 1) - 1)) ≤ m.toNat := by omega
          have hpos : 0 < m.toNat := lt_of_lt_of_le (Nat.two_pow_pos _) hm1
          have hshr : UInt32.ofNat (b.toNat % 128 + 128 * m.toNat) >>> 7 = m := by
            apply UInt32.toNat_inj.mp
            rw [shr7, hm]
            omega
          have hbyte : UInt8.ofNat ((b.toNat % 128 + 128 * m.toNat) % 128 + 128) = b := by
            apply UInt8.toNat_inj.mp
            rw [UInt8.toNat_ofNat']
            omega
          rw [encodeVarint32_eq, hm, if_neg (by omega), hshr, hbyte, List.cons_append,
            ← henc (Or.inr hm1)]

theorem decodeVarint32_sound {bs rest : List UInt8} {n : UInt32}
    (h : decodeVarint32 bs = .ok (n, rest)) : bs = encodeVarint32 n ++ rest := by
  unfold decodeVarint32 at h
  cases hrun : decodeVarint32Loop 0 0 0 bs with
  | error e =>
    rw [hrun] at h
    cases h
  | ok t =>
    obtain ⟨r, l, rest'⟩ := t
    rw [hrun] at h
    simp only [bind, Except.bind] at h
    split_ifs at h with hmin
    obtain ⟨rfl, rfl⟩ : r = n ∧ rest' = rest := by
      simpa [pure, Except.pure] using h
    obtain ⟨m, hl, hl5, -, hres, henc⟩ := decodeVarint32Loop_sound bs rest' 0 r 0 l (by omega)
      (by simp) hrun
    obtain rfl : m = r := UInt32.toNat_inj.mp (by simpa using hres.symm)
    apply henc
    by_cases h1 : l = 0 + 1
    · exact Or.inl h1
    · right
      by_contra hcon
      refine hmin ⟨by omega, ?_⟩
      rw [shr_groups_eq_zero _ _ (by omega)]
      simpa using hcon

/-! ## What the loop shifts -/

/-- The loop over `bytes` is about to read `rest`, with what it has accumulated. -/
inductive AtByte (bytes : List UInt8) : UInt32 → Nat → Nat → List UInt8 → Prop
  | start : AtByte bytes 0 0 0 bytes
  | next {result shift bytesRead b rest} (h : AtByte bytes result shift bytesRead (b :: rest))
      (hfit : ¬ (shift = 28 ∧ 0x0f < (b &&& 0x7f).toUInt32)) (hmore : b &&& 0x80 ≠ 0)
      (hshort : ¬ (28 < shift + 7 ∨ 5 ≤ bytesRead + 1)) :
      AtByte bytes (result ||| ((b &&& 0x7f).toUInt32 <<< UInt32.ofNat shift)) (shift + 7)
        (bytesRead + 1) rest

section AtByte

variable {bytes rest : List UInt8} {result : UInt32} {shift bytesRead : Nat}

/-- These are the turns that `decode_varint32` takes. -/
theorem AtByte.loop_eq (h : AtByte bytes result shift bytesRead rest) :
    decodeVarint32Loop 0 0 0 bytes = decodeVarint32Loop result shift bytesRead rest := by
  induction h with
  | start => rfl
  | next _ hfit hmore hshort ih =>
    rw [ih, decodeVarint32Loop]
    simp only [if_neg hfit, if_neg hmore, if_neg hshort]

/-- A group that passes the overflow test keeps its bits where it is shifted to. -/
theorem group_fits {shift k : Nat} {b : UInt8} (hshift : shift = 7 * k) (hk : k ≤ 4)
    (hfit : ¬ (shift = 28 ∧ 0x0f < (b &&& 0x7f).toUInt32)) :
    (b &&& 0x7f).toUInt32.toNat * 2 ^ shift < 2 ^ 32 := by
  have hgroup : (0x0f < (b &&& 0x7f).toUInt32) ↔ 15 < b.toNat % 128 := by
    rw [UInt32.lt_iff_toNat_lt, payload_toNat]
    rfl
  rw [hgroup] at hfit
  rw [payload_toNat, hshift]
  interval_cases k <;> omega

/-- Before each byte: seven bits for each byte read, and nothing above them. -/
theorem AtByte.inv (h : AtByte bytes result shift bytesRead rest) :
    shift = 7 * bytesRead ∧ bytesRead ≤ 4 ∧ result.toNat < 2 ^ shift := by
  induction h with
  | start => exact ⟨rfl, Nat.zero_le 4, by decide⟩
  | @next result shift bytesRead b rest _ hfit _ hshort ih =>
    obtain ⟨hshift, hread, hresult⟩ := ih
    have hbits := group_fits hshift hread hfit
    have hgroup := payload_toNat b
    refine ⟨by omega, by omega, ?_⟩
    rw [acc_group result _ shift (by omega) hresult hbits, pow_add]
    exact group_lt hresult (by rw [hgroup]; omega)

end AtByte

/-- The reader takes back what the writer writes and nothing else, and its shifts are those of whole
groups inside 32 bits, for every input. -/
theorem varint32_codec :
    (∀ n rest, decodeVarint32 (encodeVarint32 n ++ rest) = .ok (n, rest)) ∧
    (∀ bytes n rest, decodeVarint32 bytes = .ok (n, rest) → bytes = encodeVarint32 n ++ rest) ∧
    (∀ bytes result shift bytesRead b rest, AtByte bytes result shift bytesRead (b :: rest) →
      decodeVarint32Loop 0 0 0 bytes = decodeVarint32Loop result shift bytesRead (b :: rest) ∧
      shift ≤ 31 ∧ (¬ (shift = 28 ∧ 0x0f < (b &&& 0x7f).toUInt32) →
        ((b &&& 0x7f).toUInt32 <<< UInt32.ofNat shift).toNat =
          (b &&& 0x7f).toUInt32.toNat * 2 ^ shift ∧
        (result ||| ((b &&& 0x7f).toUInt32 <<< UInt32.ofNat shift)).toNat =
          result.toNat + (b &&& 0x7f).toUInt32.toNat * 2 ^ shift)) ∧
    ∀ bytes result bytesRead rest,
      decodeVarint32Loop 0 0 0 bytes = .ok (result, bytesRead, rest) →
        1 ≤ bytesRead ∧ 7 * (bytesRead - 1) ≤ 31 := by
  refine ⟨decodeVarint32_encode, fun _ _ _ => decodeVarint32_sound, ?_, ?_⟩
  · intro bytes result shift bytesRead b rest h
    obtain ⟨hshift, hread, hresult⟩ := h.inv
    refine ⟨h.loop_eq, by omega, fun hfit => ?_⟩
    have hbits := group_fits hshift hread hfit
    have halone := acc_group 0 _ shift (by omega) (Nat.two_pow_pos shift) hbits
    rw [UInt32.zero_or, UInt32.toNat_zero, Nat.zero_add] at halone
    exact ⟨halone, acc_group result _ shift (by omega) hresult hbits⟩
  · intro bytes result bytesRead rest h
    obtain ⟨m, hpos, hle, -⟩ := decodeVarint32Loop_sound bytes rest 0 result 0 bytesRead
      (Nat.zero_le 4) (by decide) h
    omega

end Ubl.Nrf
