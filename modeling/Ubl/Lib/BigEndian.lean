import Mathlib

/-!
# Big-endian words

`toBE w n` is the `w`-byte big-endian text of `n` modulo `256 ^ w`, `ofBE` reads
a byte string back.  They are inverse to each other on strings of `w` bytes:

    ofBE (toBE w n) = n % 256 ^ w                 (ofBE_toBE)
    l.length = w → toBE w (ofBE l) = l            (toBE_ofBE)
-/

namespace BigEndian

def toBE : Nat → Nat → List UInt8
  | 0, _ => []
  | w + 1, n => toBE w (n / 256) ++ [UInt8.ofNat n]

def ofBE (l : List UInt8) : Nat := l.foldl (fun acc b => acc * 256 + b.toNat) 0

@[simp] theorem length_toBE (w n : Nat) : (toBE w n).length = w := by
  induction w generalizing n with
  | zero => rfl
  | succ w ih => simp [toBE, ih]

@[simp] theorem ofBE_nil : ofBE [] = 0 := rfl

@[simp] theorem ofBE_append_singleton (l : List UInt8) (b : UInt8) :
    ofBE (l ++ [b]) = ofBE l * 256 + b.toNat := by
  simp [ofBE]

theorem ofBE_toBE (w n : Nat) : ofBE (toBE w n) = n % 256 ^ w := by
  induction w generalizing n with
  | zero => simp [toBE, Nat.mod_one]
  | succ w ih =>
    have hb : (UInt8.ofNat n).toNat = n % 256 := by simp
    rw [toBE, ofBE_append_singleton, ih, hb, pow_succ, Nat.mul_comm (256 ^ w), Nat.mod_mul]
    ring

theorem ofBE_toBE_of_lt {w n : Nat} (h : n < 256 ^ w) : ofBE (toBE w n) = n := by
  rw [ofBE_toBE, Nat.mod_eq_of_lt h]

theorem ofBE_lt (l : List UInt8) : ofBE l < 256 ^ l.length := by
  induction l using List.reverseRecOn with
  | nil => simp
  | append_singleton l b ih =>
    have hb := b.toNat_lt
    rw [ofBE_append_singleton, List.length_append, List.length_singleton, pow_succ]
    omega

theorem toBE_ofBE {w : Nat} (l : List UInt8) (h : l.length = w) : toBE w (ofBE l) = l := by
  subst h
  induction l using List.reverseRecOn with
  | nil => rfl
  | append_singleton l b ih =>
    have hb := b.toNat_lt
    have hdiv : (ofBE l * 256 + b.toNat) / 256 = ofBE l := by omega
    have hmod : UInt8.ofNat (ofBE l * 256 + b.toNat) = b := by
      apply UInt8.toNat_inj.mp
      rw [UInt8.toNat_ofNat']
      omega
    rw [List.length_append, List.length_singleton, toBE, ofBE_append_singleton, hdiv, hmod, ih]

theorem toBE_mod (w n : Nat) : toBE w (n % 256 ^ w) = toBE w n := by
  rw [← ofBE_toBE, toBE_ofBE _ (length_toBE w n)]

end BigEndian
