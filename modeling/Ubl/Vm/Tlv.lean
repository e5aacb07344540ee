import Ubl.Lib.BigEndian
import Ubl.Lib.ExceptLemmas

/-!
# `ubl_vm`: opcodes and the TLV stream

An instruction is an opcode and its payload; on the wire it is the opcode byte, the
payload length as a `u16` and the payload.  `tlvInstr` is the compiler's writer, which
cuts the length down to sixteen bits; `decodeStream` is the VM's reader.  They agree as
long as no payload passes 65535 bytes (`decodeStream_encode`).
-/

namespace Ubl.Vm

open BigEndian ExceptLemmas

inductive Opcode where
  | constI64
  | constBytes
  | jsonNormalize
  | jsonValidate
  | addI64
  | subI64
  | mulI64
  | cmpI64
  | assertTrue
  | hashBlake3
  | casPut
  | casGet
  | setRcBody
  | attachProof
  | signDefault
  | emitRc
  | drop
  | pushInput
  | jsonGetKey
  | dup
  | swap
  | verifySig
  | numFromDecimalStr
  | numFromF64Bits
  | numAdd
  | numSub
  | numMul
  | numDiv
  | numToDec
  | numToRat
  | numWithUnit
  | numAssertUnit
  | numCompare
  | jsonGetKeyBytes
  | jsonHasKey
  | eqBytes
  | pushBodySize
  | pushBool
  | boolNot
  | boolOr
  | boolAnd
  | boolToI64
  | divI64
  | pushTimestamp
  | cmpTimestamp
deriving DecidableEq

namespace Opcode

/-- The discriminant of the `repr(u8)` enumeration. -/
def toU8 : Opcode → UInt8
  | constI64 => 0x01
  | constBytes => 0x02
  | jsonNormalize => 0x03
  | jsonValidate => 0x04
  | addI64 => 0x05
  | subI64 => 0x06
  | mulI64 => 0x07
  | cmpI64 => 0x08
  | assertTrue => 0x09
  | hashBlake3 => 0x0A
  | casPut => 0x0B
  | casGet => 0x0C
  | setRcBody => 0x0D
  | attachProof => 0x0E
  | signDefault => 0x0F
  | emitRc => 0x10
  | drop => 0x11
  | pushInput => 0x12
  | jsonGetKey => 0x13
  | dup => 0x14
  | swap => 0x15
  | verifySig => 0x16
  | numFromDecimalStr => 0x17
  | numFromF64Bits => 0x18
  | numAdd => 0x19
  | numSub => 0x1A
  | numMul => 0x1B
  | numDiv => 0x1C
  | numToDec => 0x1D
  | numToRat => 0x1E
  | numWithUnit => 0x1F
  | numAssertUnit => 0x20
  | numCompare => 0x21
  | jsonGetKeyBytes => 0x22
  | jsonHasKey => 0x23
  | eqBytes => 0x24
  | pushBodySize => 0x25
  | pushBool => 0x26
  | boolNot => 0x27
  | boolOr => 0x28
  | boolAnd => 0x29
  | boolToI64 => 0x2A
  | divI64 => 0x2B
  | pushTimestamp => 0x2C
  | cmpTimestamp => 0x2D

/-- `Opcode::try_from(u8)`. -/
def tryFrom (v : UInt8) : Option Opcode :=
  match v.toNat with
  | 0x01 => some constI64
  | 0x02 => some constBytes
  | 0x03 => some jsonNormalize
  | 0x04 => some jsonValidate
  | 0x05 => some addI64
  | 0x06 => some subI64
  | 0x07 => some mulI64
  | 0x08 => some cmpI64
  | 0x09 => some assertTrue
  | 0x0A => some hashBlake3
  | 0x0B => some casPut
  | 0x0C => some casGet
  | 0x0D => some setRcBody
  | 0x0E => some attachProof
  | 0x0F => some signDefault
  | 0x10 => some emitRc
  | 0x11 => some drop
  | 0x12 => some pushInput
  | 0x13 => some jsonGetKey
  | 0x14 => some dup
  | 0x15 => some swap
  | 0x16 => some verifySig
  | 0x17 => some numFromDecimalStr
  | 0x18 => some numFromF64Bits
  | 0x19 => some numAdd
  | 0x1A => some numSub
  | 0x1B => some numMul
  | 0x1C => some numDiv
  | 0x1D => some numToDec
  | 0x1E => some numToRat
  | 0x1F => some numWithUnit
  | 0x20 => some numAssertUnit
  | 0x21 => some numCompare
  | 0x22 => some jsonGetKeyBytes
  | 0x23 => some jsonHasKey
  | 0x24 => some eqBytes
  | 0x25 => some pushBodySize
  | 0x26 => some pushBool
  | 0x27 => some boolNot
  | 0x28 => some boolOr
  | 0x29 => some boolAnd
  | 0x2A => some boolToI64
  | 0x2B => some divI64
  | 0x2C => some pushTimestamp
  | 0x2D => some cmpTimestamp
  | _ => none

theorem tryFrom_toU8 (op : Opcode) : tryFrom op.toU8 = some op := by
  cases op <;> rfl

end Opcode

structure Instr where
  op : Opcode
  payload : List UInt8
deriving DecidableEq

inductive DecodeError where
  | truncated
  | unknownOpcode (v : UInt8)
deriving DecidableEq

def DecodeError.text : DecodeError → String
  | .truncated => "truncated"
  | .unknownOpcode v => "unknown opcode 0x" ++ String.ofList (Nat.toDigits 16 v.toNat)

/-- One turn of the loop of `decode_stream`: the instruction at the front of the buffer
and the bytes behind it. -/
def decodeInstr : List UInt8 → Except DecodeError (Instr × List UInt8)
  | op :: hi :: lo :: buf =>
    let len := ofBE [hi, lo]
    if buf.length < len then .error .truncated
    else
      match Opcode.tryFrom op with
      | none => .error (.unknownOpcode op)
      | some o => .ok (⟨o, buf.take len⟩, buf.drop len)
  | _ => .error .truncated

theorem decodeInstr_shrinks {buf rest : List UInt8} {ins : Instr}
    (h : decodeInstr buf = .ok (ins, rest)) : rest.length < buf.length := by
  unfold decodeInstr at h
  split at h
  · simp only at h
    split_ifs at h
    split at h
    · cases h
    · simp only [Except.ok.injEq, Prod.mk.injEq] at h
      rw [← h.2]
      simp
      omega
  · cases h

def decodeStream (buf : List UInt8) : Except DecodeError (List Instr) :=
  if buf = [] then .ok []
  else
    match _h : decodeInstr buf with
    | .error e => .error e
    | .ok (ins, rest) => (decodeStream rest).map (ins :: ·)
termination_by buf.length
decreasing_by exact decodeInstr_shrinks _h

/-- `tlv_instr` of the silicon compiler; `payload.len() as u16` drops the high bits. -/
def tlvInstr (opcode : UInt8) (payload : List UInt8) : List UInt8 :=
  opcode :: toBE 2 payload.length ++ payload

/-- The bytes the compiler writes for a list of instructions. -/
def encode (code : List Instr) : List UInt8 :=
  code.flatMap fun ins => tlvInstr ins.op.toU8 ins.payload

@[simp] theorem encode_nil : encode [] = [] := rfl

@[simp] theorem encode_cons (ins : Instr) (code : List Instr) :
    encode (ins :: code) = tlvInstr ins.op.toU8 ins.payload ++ encode code := rfl

@[simp] theorem encode_append (xs ys : List Instr) : encode (xs ++ ys) = encode xs ++ encode ys :=
  List.flatMap_append

/-- The payload length survives the cut to sixteen bits. -/
def Instr.Short (ins : Instr) : Prop := ins.payload.length < 65536

instance (ins : Instr) : Decidable ins.Short := inferInstanceAs (Decidable (_ < _))

/-- A row of one instruction without a payload. -/
theorem short_row (op : Opcode) (n : Nat) :
    ∀ ins ∈ List.replicate n (⟨op, []⟩ : Instr), ins.Short := by
  intro ins hins
  obtain rfl := (List.mem_replicate.mp hins).2
  simp [Instr.Short]

theorem decodeInstr_tlvInstr {ins : Instr} (h : ins.Short) (rest : List UInt8) :
    decodeInstr (tlvInstr ins.op.toU8 ins.payload ++ rest) = .ok (ins, rest) := by
  have hlen : ofBE (toBE 2 ins.payload.length) = ins.payload.length :=
    ofBE_toBE_of_lt (by unfold Instr.Short at h; omega)
  obtain ⟨hi, lo, hhl⟩ : ∃ hi lo, toBE 2 ins.payload.length = [hi, lo] := by
    simp [toBE]
  rw [hhl] at hlen
  unfold tlvInstr decodeInstr
  simp [hhl, hlen, Opcode.tryFrom_toU8]

@[simp] theorem decodeStream_nil : decodeStream [] = .ok [] := by
  rw [decodeStream, if_pos rfl]

theorem decodeStream_of_decodeInstr {buf rest : List UInt8} {ins : Instr}
    (h : decodeInstr buf = .ok (ins, rest)) :
    decodeStream buf = (decodeStream rest).map (ins :: ·) := by
  have hne : buf ≠ [] := by
    rintro rfl
    simp [decodeInstr] at h
  rw [decodeStream, if_neg hne]
  split
  · rename_i e he
    rw [h] at he
    cases he
  · rename_i ins' rest' he
    rw [h] at he
    cases he
    rfl

/-- Reading past a block of short instructions. -/
theorem decodeStream_encode_append {code : List Instr} (h : ∀ ins ∈ code, ins.Short)
    (rest : List UInt8) :
    decodeStream (encode code ++ rest) = (decodeStream rest).map (code ++ ·) := by
  induction code with
  | nil =>
    rw [encode_nil, List.nil_append]
    cases decodeStream rest <;> rfl
  | cons ins code ih =>
    have hhead := decodeInstr_tlvInstr (h ins List.mem_cons_self) (encode code ++ rest)
    rw [encode_cons, List.append_assoc, decodeStream_of_decodeInstr hhead,
      ih fun i hi => h i (List.mem_cons_of_mem _ hi)]
    cases decodeStream rest <;> rfl

theorem decodeStream_encode {code : List Instr} (h : ∀ ins ∈ code, ins.Short) :
    decodeStream (encode code) = .ok code := by
  have hread := decodeStream_encode_append h []
  rw [List.append_nil, decodeStream_nil] at hread
  simpa [Except.map] using hread

/-- A block that decodes by itself decodes the same in front of other bytes. -/
theorem decodeStream_append {a : List UInt8} {xs : List Instr} (h : decodeStream a = .ok xs)
    (b : List UInt8) : decodeStream (a ++ b) = (decodeStream b).map (xs ++ ·) := by
  induction hn : a.length using Nat.strong_induction_on generalizing a xs with
  | _ n ih =>
    subst hn
    rw [decodeStream] at h
    split_ifs at h with ha
    · obtain rfl : [] = xs := by simpa using h
      rw [ha, List.nil_append]
      cases decodeStream b <;> rfl
    · split at h
      · cases h
      · rename_i ins rest hi
        cases hr : decodeStream rest with
        | error e =>
          rw [hr] at h
          cases h
        | ok ys =>
          rw [hr] at h
          obtain rfl : ins :: ys = xs := by simpa [Except.map] using h
          have hi' : decodeInstr (a ++ b) = .ok (ins, rest ++ b) := by
            unfold decodeInstr at hi ⊢
            split at hi
            · rename_i op hi₀ lo buf
              simp only at hi
              split_ifs at hi with hlt
              split at hi
              · cases hi
              · rename_i o ho
                simp only [Except.ok.injEq, Prod.mk.injEq] at hi
                obtain ⟨rfl, rfl⟩ := hi
                have hle : ofBE [hi₀, lo] ≤ buf.length := not_lt.mp hlt
                simp only [List.cons_append]
                rw [if_neg (by simp; omega), ho, List.take_append_of_le_length hle,
                  List.drop_append_of_le_length hle]
            · cases hi
          rw [decodeStream_of_decodeInstr hi', ih _ (decodeInstr_shrinks hi) hr rfl]
          cases decodeStream b <;> rfl

/-- The bytes written for `xs` are read as `ys`. -/
def Decodes (xs ys : List Instr) : Prop := decodeStream (encode xs) = .ok ys

theorem Decodes.of_short {xs : List Instr} (h : ∀ ins ∈ xs, ins.Short) : Decodes xs xs :=
  decodeStream_encode h

theorem Decodes.append {xs ys xs' ys' : List Instr} (hx : Decodes xs xs') (hy : Decodes ys ys') :
    Decodes (xs ++ ys) (xs' ++ ys') := by
  unfold Decodes at *
  rw [encode_append, decodeStream_append hx, hy]
  rfl

theorem Decodes.flatMap {α : Type} {l : List α} {f g : α → List Instr}
    (h : ∀ a ∈ l, Decodes (f a) (g a)) : Decodes (l.flatMap f) (l.flatMap g) := by
  induction l with
  | nil => exact decodeStream_nil
  | cons a l ih =>
    rw [List.flatMap_cons, List.flatMap_cons]
    exact (h a List.mem_cons_self).append (ih fun b hb => h b (List.mem_cons_of_mem _ hb))

end Ubl.Vm
