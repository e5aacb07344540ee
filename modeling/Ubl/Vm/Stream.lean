import Ubl.Vm.Tlv

/-!
# The TLV stream as a format

What is written is read back, what is read was written, and what cannot be read has a place
where it breaks off:

    b = encode code ++ tail,  tail a cut-off header, a cut-off payload or an unknown opcode
                                                                  (decodeStream_format)
-/

namespace Ubl.Vm

open BigEndian

theorem Opcode.toU8_of_tryFrom {v : UInt8} {op : Opcode} (h : tryFrom v = some op) :
    op.toU8 = v := by
  unfold tryFrom at h
  split at h
  all_goals first
    | cases h; done
    | (rename_i hv
       obtain rfl := Option.some.inj h
       exact UInt8.toNat_inj.mp hv.symm)

/-- The ways in which the bytes at hand are no instruction. -/
inductive Malformed : List UInt8 → DecodeError → Prop
  | header {tail : List UInt8} (hne : tail ≠ []) (hshort : tail.length < 3) :
      Malformed tail .truncated
  | payload {op hi lo : UInt8} {rest : List UInt8} (hshort : rest.length < ofBE [hi, lo]) :
      Malformed (op :: hi :: lo :: rest) .truncated
  | opcode {op hi lo : UInt8} {rest : List UInt8} (hlong : ofBE [hi, lo] ≤ rest.length)
      (hop : Opcode.tryFrom op = none) : Malformed (op :: hi :: lo :: rest) (.unknownOpcode op)

/-- One turn of the loop: an instruction and what follows it, or nothing to be read. -/
theorem decodeInstr_spec {buf : List UInt8} (hne : buf ≠ []) :
    match decodeInstr buf with
    | .ok (ins, rest) => ins.Short ∧ tlvInstr ins.op.toU8 ins.payload ++ rest = buf
    | .error e => Malformed buf e := by
  match buf, hne with
  | [a], _ => exact .header (by simp) (by simp)
  | [a, b], _ => exact .header (by simp) (by simp)
  | op :: hi :: lo :: rest, _ =>
    by_cases hlt : rest.length < ofBE [hi, lo]
    · rw [decodeInstr, if_pos hlt]
      exact .payload hlt
    · cases hop : Opcode.tryFrom op with
      | none =>
        simp only [decodeInstr, if_neg hlt, hop]
        exact .opcode (not_lt.mp hlt) hop
      | some o =>
        simp only [decodeInstr, if_neg hlt, hop]
        have htake : (rest.take (ofBE [hi, lo])).length = ofBE [hi, lo] := by
          rw [List.length_take]
          omega
        refine ⟨?_, ?_⟩
        · have hbound := ofBE_lt [hi, lo]
          rw [Instr.Short, htake]
          simpa using hbound
        · have hword : toBE 2 (ofBE [hi, lo]) = [hi, lo] := toBE_ofBE [hi, lo] rfl
          rw [tlvInstr, htake, hword, Opcode.toU8_of_tryFrom hop]
          simp

/-- The loop, from any place of the buffer on. -/
theorem decodeStream_spec (buf : List UInt8) :
    match decodeStream buf with
    | .ok code => (∀ ins ∈ code, ins.Short) ∧ encode code = buf
    | .error e => ∃ code tail, (∀ ins ∈ code, Instr.Short ins) ∧ buf = encode code ++ tail ∧
        Malformed tail e := by
  induction hn : buf.length using Nat.strong_induction_on generalizing buf with
  | _ n ih =>
    subst hn
    by_cases hne : buf = []
    · subst hne
      rw [decodeStream_nil]
      exact ⟨by simp, rfl⟩
    · have hspec := decodeInstr_spec hne
      cases hi : decodeInstr buf with
      | error e =>
        rw [hi] at hspec
        have hstream : decodeStream buf = .error e := by
          rw [decodeStream, if_neg hne]
          split
          · rename_i e' he'
            rw [hi] at he'
            exact congrArg Except.error (Except.error.inj he').symm
          · rename_i he'
            rw [hi] at he'
            cases he'
        rw [hstream]
        exact ⟨[], buf, by simp, rfl, hspec⟩
      | ok p =>
        obtain ⟨ins, rest⟩ := p
        rw [hi] at hspec
        obtain ⟨hshort, hbuf⟩ := hspec
        have hrest := ih rest.length (decodeInstr_shrinks hi) rest rfl
        rw [decodeStream_of_decodeInstr hi]
        cases hr : decodeStream rest with
        | error e =>
          rw [hr] at hrest
          obtain ⟨code, tail, hcode, hsplit, hbad⟩ := hrest
          refine ⟨ins :: code, tail, ?_, ?_, hbad⟩
          · exact List.forall_mem_cons.mpr ⟨hshort, hcode⟩
          · rw [encode_cons, List.append_assoc, ← hsplit, hbuf]
        | ok code =>
          rw [hr] at hrest
          obtain ⟨hcode, henc⟩ := hrest
          refine ⟨List.forall_mem_cons.mpr ⟨hshort, hcode⟩, ?_⟩
          rw [encode_cons, henc, hbuf]

/-- Writing and reading are inverse to each other, and every other byte string is malformed
somewhere. -/
theorem decodeStream_format :
    (∀ code : List Instr, (∀ ins ∈ code, ins.payload.length ≤ 65535) →
      decodeStream (encode code) = .ok code) ∧
    ∀ b : List UInt8,
      match decodeStream b with
      | .ok code => encode code = b
      | .error e => ∃ code tail, b = encode code ++ tail ∧ Malformed tail e := by
  refine ⟨fun code h => decodeStream_encode fun ins hins => ?_, fun b => ?_⟩
  · exact Nat.lt_succ_of_le (h ins hins)
  · have hspec := decodeStream_spec b
    cases hb : decodeStream b with
    | ok code =>
      rw [hb] at hspec
      exact hspec.2
    | error e =>
      rw [hb] at hspec
      obtain ⟨code, tail, -, hsplit, hbad⟩ := hspec
      exact ⟨code, tail, hsplit, hbad⟩

theorem decodeStream_format_sample :
    decodeStream (encode [⟨.pushInput, [0, 0]⟩, ⟨.emitRc, []⟩]) =
      .ok [⟨.pushInput, [0, 0]⟩, ⟨.emitRc, []⟩] :=
  decodeStream_format.1 [⟨.pushInput, [0, 0]⟩, ⟨.emitRc, []⟩] (by decide)

end Ubl.Vm
