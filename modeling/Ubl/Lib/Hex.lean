import Mathlib

/-!
# Lower-case hexadecimal text of bytes

`encode` writes two digits for each byte; `decode` reads digits of either case.
-/

namespace Hex

inductive DecodeError where
  | oddLength
  /-- The byte that is no digit, and where it stands. -/
  | invalidHexCharacter (c : UInt8) (index : Nat)
deriving DecidableEq

def digit (n : Nat) : Char := "0123456789abcdef".toList.getD n '0'

def encode (bytes : List UInt8) : String :=
  String.ofList (bytes.flatMap fun b => [digit (b.toNat / 16), digit (b.toNat % 16)])

/-- The value of the byte of a digit. -/
def val (c : UInt8) : Option Nat :=
  if 48 ≤ c.toNat ∧ c.toNat ≤ 57 then some (c.toNat - 48)
  else if 97 ≤ c.toNat ∧ c.toNat ≤ 102 then some (c.toNat - 97 + 10)
  else if 65 ≤ c.toNat ∧ c.toNat ≤ 70 then some (c.toNat - 65 + 10)
  else none

def decodePairs (idx : Nat) : List UInt8 → Except DecodeError (List UInt8)
  | hi :: lo :: rest =>
    match val hi with
    | none => .error (.invalidHexCharacter hi idx)
    | some h =>
      match val lo with
      | none => .error (.invalidHexCharacter lo (idx + 1))
      | some l =>
        match decodePairs (idx + 2) rest with
        | .error e => .error e
        | .ok bytes => .ok (UInt8.ofNat (16 * h + l) :: bytes)
  | _ => .ok []

/-- `decode` works on the bytes of the text. -/
def decode (text : List UInt8) : Except DecodeError (List UInt8) :=
  if text.length % 2 ≠ 0 then .error .oddLength else decodePairs 0 text

theorem digit_ascii : ∀ n < 16, 0x20 ≤ (digit n).toNat ∧ (digit n).toNat < 0x80 := by
  decide

theorem digit_injective : ∀ m < 16, ∀ n < 16, digit m = digit n → m = n := by
  decide

/-- The characters of hex text are digits. -/
theorem mem_encode {bytes : List UInt8} {c : Char} (hc : c ∈ (encode bytes).toList) :
    ∃ n < 16, c = digit n := by
  rw [encode, String.toList_ofList, List.mem_flatMap] at hc
  obtain ⟨b, -, hc⟩ := hc
  have hb := b.toNat_lt
  simp only [List.mem_cons, List.not_mem_nil, or_false] at hc
  rcases hc with rfl | rfl
  · exact ⟨_, by omega, rfl⟩
  · exact ⟨_, by omega, rfl⟩

theorem encode_ascii (bytes : List UInt8) :
    ∀ c ∈ (encode bytes).toList, 0x20 ≤ c.toNat ∧ c.toNat < 0x80 := by
  intro c hc
  obtain ⟨n, hn, rfl⟩ := mem_encode hc
  exact digit_ascii n hn

theorem encode_injective : Function.Injective encode := by
  intro xs ys heq
  have h := congrArg String.toList heq
  clear heq
  simp only [encode, String.toList_ofList] at h
  induction xs generalizing ys with
  | nil =>
    cases ys with
    | nil => rfl
    | cons y ys => simp at h
  | cons x xs ih =>
    cases ys with
    | nil => simp at h
    | cons y ys =>
      simp only [List.flatMap_cons, List.cons_append, List.nil_append, List.cons.injEq] at h
      obtain ⟨h1, h2, h3⟩ := h
      have hx := x.toNat_lt
      have hy := y.toNat_lt
      have h1 := digit_injective _ (by omega) _ (by omega) h1
      have h2 := digit_injective _ (by omega) _ (by omega) h2
      rw [ih h3, UInt8.toNat_inj.mp (by omega : x.toNat = y.toNat)]

end Hex
