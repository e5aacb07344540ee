import Mathlib

/-!
# Strings and their UTF-8 bytes

`utf8 s` is the byte string of `s` and `fromUtf8` reads it back; the two are
inverse to each other:

    fromUtf8 b = some s ↔ utf8 s = b              (fromUtf8_eq_some)
-/

namespace Utf8

def utf8 (s : String) : List UInt8 := s.toUTF8.data.toList

def fromUtf8 (b : List UInt8) : Option String := String.fromUTF8? ⟨b.toArray⟩

theorem fromUtf8_eq_some {b : List UInt8} {s : String} : fromUtf8 b = some s ↔ utf8 s = b := by
  unfold fromUtf8 String.fromUTF8? utf8
  constructor
  · intro h
    split_ifs at h with hv
    obtain rfl := Option.some.inj h
    rfl
  · rintro rfl
    have hb : (⟨s.toUTF8.data.toList.toArray⟩ : ByteArray) = s.toByteArray := rfl
    rw [hb, dif_pos s.isValidUTF8]
    rfl

@[simp] theorem fromUtf8_utf8 (s : String) : fromUtf8 (utf8 s) = some s :=
  fromUtf8_eq_some.mpr rfl

theorem utf8_injective : Function.Injective utf8 := by
  intro s t h
  have hs := fromUtf8_utf8 s
  rw [h, fromUtf8_utf8] at hs
  exact (Option.some.inj hs).symm

@[simp] theorem length_utf8 (s : String) : (utf8 s).length = s.utf8ByteSize := rfl

@[simp] theorem utf8_append (s t : String) : utf8 (s ++ t) = utf8 s ++ utf8 t := by
  simp [utf8, String.toByteArray_append]

/-- What follows a text in the bytes of a text are the bytes of a text. -/
theorem utf8_of_append {s t : String} {rest : List UInt8} (h : utf8 s ++ rest = utf8 t) :
    ∃ u, t = s ++ u ∧ rest = utf8 u := by
  have hbytes : s.toList.utf8Encode ++ (⟨rest.toArray⟩ : ByteArray) = t.toList.utf8Encode := by
    rw [String.utf8Encode_toList, String.utf8Encode_toList]
    apply ByteArray.ext
    apply Array.toList_inj.mp
    rw [ByteArray.data_append, Array.toList_append]
    exact h
  obtain ⟨us, hus⟩ := List.isPrefix_of_utf8Encode_append_eq_utf8Encode _ hbytes
  have ht : t = s ++ String.ofList us := by
    apply String.toList_injective
    rw [String.toList_append, String.toList_ofList, hus]
  refine ⟨String.ofList us, ht, ?_⟩
  rw [ht, utf8_append] at h
  exact List.append_cancel_left h

/-- Of an ASCII text the bytes are the characters. -/
theorem utf8_ascii {cs : List Char} (h : ∀ c ∈ cs, c.toNat < 128) :
    utf8 (String.ofList cs) = cs.map fun c => UInt8.ofNat c.toNat := by
  induction cs with
  | nil => rfl
  | cons c cs ih =>
    have hc : c.utf8Size = 1 := by
      have hval : c.val ≤ 127 := UInt32.le_iff_toNat_le.mpr (Nat.le_of_lt_succ (h c List.mem_cons_self))
      simp [Char.utf8Size, hval]
    have hone : utf8 (String.ofList [c]) = [UInt8.ofNat c.toNat] := by
      have hbytes := String.utf8EncodeChar_eq_singleton hc
      simp only [utf8, String.toUTF8, String.toByteArray_ofList, List.utf8Encode]
      simp [hbytes]
      rfl
    rw [← List.singleton_append, String.ofList_append, utf8_append, hone,
      ih fun c hc => h c (List.mem_cons_of_mem _ hc)]
    rfl

end Utf8
