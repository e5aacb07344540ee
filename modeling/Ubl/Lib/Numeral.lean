import Mathlib.Algebra.Group.Nat.Defs
import Mathlib.Data.Int.Notation
import Mathlib.Data.List.DropRight
import Mathlib.Tactic.SplitIfs

/-!
# Decimal numerals

The numeral of an integer is its digits, after a minus sign where it is negative
(`toList_toString_int`).  `readInt` reads it back, and more: leading zeros are allowed.  Numerals
filled up to one width (`pad`) stand in the order of their values, and a fraction is as good
without its trailing zeros (`take_trimZeros`).
-/

namespace Numeral

theorem isDigit_of_mem_toDigits {n : Nat} {c : Char} (hc : c ∈ Nat.toDigits 10 n) : c.isDigit :=
  Nat.isDigit_of_mem_toDigits (by decide) (by decide) hc

theorem isDigit_bounds {c : Char} (hc : c.isDigit) : 48 ≤ c.toNat ∧ c.toNat ≤ 57 := by
  simpa [Char.isDigit, UInt32.le_iff_toNat_le] using hc

/-- The numeral of an integer: its digits, after a minus sign where it is negative. -/
theorem toList_toString_int (i : Int) :
    (toString i).toList =
      if 0 ≤ i then Nat.toDigits 10 i.natAbs else '-' :: Nat.toDigits 10 i.natAbs := by
  rw [Int.toString_eq_repr, Int.repr_eq_if]
  split_ifs with h
  · rw [Nat.toList_repr, show i.toNat = i.natAbs by omega]
  · rw [String.toList_append, Nat.toList_repr, show (-i).toNat = i.natAbs by omega]
    rfl

/-- An integer read off its numeral. -/
def readInt (cs : List Char) : Option Int :=
  match cs with
  | '-' :: cs => if cs.all Char.isDigit then some (-(Nat.ofDigitChars 10 cs 0 : Int)) else none
  | cs => if cs.all Char.isDigit then some (Nat.ofDigitChars 10 cs 0 : Int) else none

theorem readInt_minus {cs : List Char} (h : cs.all Char.isDigit) :
    readInt ('-' :: cs) = some (-(Nat.ofDigitChars 10 cs 0 : Int)) := by
  rw [readInt, if_pos h]

theorem readInt_digits {cs : List Char} (h : cs.all Char.isDigit) :
    readInt cs = some (Nat.ofDigitChars 10 cs 0 : Int) := by
  unfold readInt
  split
  · simp at h
  · rw [if_pos h]

theorem readInt_toString (i : Int) : readInt (toString i).toList = some i := by
  have hall : (Nat.toDigits 10 i.natAbs).all Char.isDigit :=
    List.all_eq_true.mpr fun _ => isDigit_of_mem_toDigits
  rw [toList_toString_int]
  split_ifs with h
  · rw [readInt_digits hall, Nat.ofDigitChars_ten_toDigits, Int.natAbs_of_nonneg h]
  · rw [readInt_minus hall, Nat.ofDigitChars_ten_toDigits]
    congr 1
    omega

/-- Digits are worth nothing just if they are all zero. -/
theorem ofDigitChars_eq_zero {cs : List Char} (h : cs.all Char.isDigit) :
    Nat.ofDigitChars 10 cs 0 = 0 ↔ cs.all (· == '0') := by
  induction cs with
  | nil => simp
  | cons c cs ih =>
    obtain ⟨hc, hcs⟩ : c.isDigit ∧ cs.all Char.isDigit := by simpa using h
    have hzero : c.toNat - '0'.toNat = 0 ↔ c = '0' := by
      constructor
      · intro hle
        have hge : '0'.toNat ≤ c.toNat := (isDigit_bounds hc).1
        exact Char.toNat_inj.mp (by omega)
      · rintro rfl
        rfl
    have hpow : 10 ^ cs.length * (c.toNat - '0'.toNat) = 0 ↔ c.toNat - '0'.toNat = 0 := by
      rw [Nat.mul_eq_zero]
      simp
    rw [Nat.ofDigitChars_cons, Nat.mul_zero, Nat.zero_add, Nat.ofDigitChars_eq_ofDigitChars_zero,
      Nat.add_eq_zero_iff, hpow, hzero, ih hcs]
    simp

theorem ofDigitChars_cons (d : Char) (ds : List Char) :
    Nat.ofDigitChars 10 (d :: ds) 0 =
      10 ^ ds.length * (d.toNat - 48) + Nat.ofDigitChars 10 ds 0 := by
  rw [Nat.ofDigitChars_cons, Nat.mul_zero, Nat.zero_add, Nat.ofDigitChars_eq_ofDigitChars_zero]
  rfl

theorem ofDigitChars_lt {ds : List Char} (h : ds.all Char.isDigit) :
    Nat.ofDigitChars 10 ds 0 < 10 ^ ds.length := by
  induction ds with
  | nil => decide
  | cons d ds ih =>
    obtain ⟨hd, hds⟩ : d.isDigit ∧ ds.all Char.isDigit := by simpa using h
    have hle : d.toNat - 48 ≤ 9 := Nat.sub_le_sub_right (isDigit_bounds hd).2 48
    have hvalue := ih hds
    have hscaled := Nat.mul_le_mul_left (10 ^ ds.length) hle
    rw [ofDigitChars_cons, List.length_cons, Nat.pow_succ]
    omega

/-- Digits of one length stand in the order of their values, whatever order-preserving code `f` the
digits are written in. -/
theorem map_digits_lt_iff {α : Type} [LT α] (f : Char → α)
    (hlt : ∀ c d : Char, c.isDigit → d.isDigit → (f c < f d ↔ c.toNat < d.toNat))
    (heq : ∀ c d : Char, c.isDigit → d.isDigit → (f c = f d ↔ c.toNat = d.toNat))
    {ds es : List Char} (hds : ds.all Char.isDigit) (hes : es.all Char.isDigit)
    (h : ds.length = es.length) :
    ds.map f < es.map f ↔ Nat.ofDigitChars 10 ds 0 < Nat.ofDigitChars 10 es 0 := by
  induction ds generalizing es with
  | nil =>
    obtain rfl := List.eq_nil_of_length_eq_zero h.symm
    simp
  | cons d ds ih =>
    cases es with
    | nil => cases h
    | cons e es =>
      obtain ⟨hd, hds⟩ : d.isDigit ∧ ds.all Char.isDigit := by simpa using hds
      obtain ⟨he, hes⟩ : e.isDigit ∧ es.all Char.isDigit := by simpa using hes
      have hlen := Nat.succ.inj h
      rw [List.map_cons, List.map_cons, List.cons_lt_cons_iff, ih hds hes hlen,
        ofDigitChars_cons, ofDigitChars_cons, ← hlen, hlt d e hd he, heq d e hd he]
      have hd := isDigit_bounds hd
      have he := isDigit_bounds he
      have hvalue := ofDigitChars_lt hds
      have hvalue' := ofDigitChars_lt hes
      rw [← hlen] at hvalue'
      constructor
      · rintro (h | ⟨h, hrest⟩)
        · have := Nat.mul_le_mul_left (10 ^ ds.length) (by omega : d.toNat - 48 + 1 ≤ e.toNat - 48)
          rw [Nat.mul_add] at this
          omega
        · rw [h]
          omega
      · intro hlt
        rcases Nat.lt_trichotomy d.toNat e.toNat with h | h | h
        · exact .inl h
        · rw [h] at hlt
          exact .inr ⟨h, by omega⟩
        · have := Nat.mul_le_mul_left (10 ^ ds.length) (by omega : e.toNat - 48 + 1 ≤ d.toNat - 48)
          rw [Nat.mul_add] at this
          omega

section

variable {ds es : List Char} (hds : ds.all Char.isDigit) (hes : es.all Char.isDigit)
  (h : ds.length = es.length)

include hds hes h

theorem digits_lt_iff :
    (ds.map fun c => UInt8.ofNat c.toNat) < (es.map fun c => UInt8.ofNat c.toNat) ↔
      Nat.ofDigitChars 10 ds 0 < Nat.ofDigitChars 10 es 0 := by
  have hbyte {c : Char} (hc : c.isDigit) : (UInt8.ofNat c.toNat).toNat = c.toNat := by
    have := isDigit_bounds hc
    rw [UInt8.toNat_ofNat']
    omega
  refine map_digits_lt_iff _ (fun c d hc hd => ?_) (fun c d hc hd => ?_) hds hes h
  · rw [UInt8.lt_iff_toNat_lt, hbyte hc, hbyte hd]
  · rw [← UInt8.toNat_inj, hbyte hc, hbyte hd]

theorem chars_lt_iff : ds < es ↔ Nat.ofDigitChars 10 ds 0 < Nat.ofDigitChars 10 es 0 := by
  have hmap := map_digits_lt_iff id (fun c d _ _ => Char.lt_def.trans UInt32.lt_iff_toNat_lt)
    (fun c d _ _ => Char.toNat_inj.symm) hds hes h
  rwa [List.map_id, List.map_id] at hmap

/-- Digits of one length are told apart by their values. -/
theorem chars_inj (hvalue : Nat.ofDigitChars 10 ds 0 = Nat.ofDigitChars 10 es 0) : ds = es := by
  have hlt : ¬ ds < es := fun hlt => absurd ((chars_lt_iff hds hes h).mp hlt) (by omega)
  have hgt : ¬ es < ds := fun hlt => absurd ((chars_lt_iff hes hds h.symm).mp hlt) (by omega)
  exact List.le_antisymm (List.not_lt.mp hgt) (List.not_lt.mp hlt)

end

/-! ## Numerals of a fixed width -/

/-- The numeral of `n`, with zeros before it. -/
def pad (width n : Nat) : List Char := (Nat.toDigits 10 n).leftpad width '0'

theorem isDigit_pad (width n : Nat) : (pad width n).all Char.isDigit := by
  have hzero (k : Nat) : (List.replicate k '0').all Char.isDigit := by
    rw [List.all_eq_true]
    intro c hc
    rw [List.eq_of_mem_replicate hc]
    rfl
  rw [pad, List.leftpad, List.all_append, hzero, Bool.true_and, List.all_eq_true]
  exact fun _ => isDigit_of_mem_toDigits

theorem length_pad {width n : Nat} (hwidth : 0 < width) (h : n < 10 ^ width) :
    (pad width n).length = width := by
  have hlength := (Nat.length_toDigits_le_iff (by decide) hwidth).mpr h
  rw [pad, List.leftpad, List.length_append, List.length_replicate]
  omega

theorem ofDigitChars_pad (width n : Nat) : Nat.ofDigitChars 10 (pad width n) 0 = n := by
  rw [pad, List.leftpad, Nat.ofDigitChars_append, Nat.ofDigitChars_replicate_zero, Nat.mul_zero,
    Nat.ofDigitChars_ten_toDigits]

/-! ## Trailing zeros -/

def trimZeros (ds : List Char) : List Char := ds.rdropWhile (· == '0')

theorem trimZeros_append (ds : List Char) :
    trimZeros ds ++ List.replicate (ds.length - (trimZeros ds).length) '0' = ds := by
  have hsplit : trimZeros ds ++ ds.rtakeWhile (· == '0') = ds :=
    List.rdropWhile_append_rtakeWhile
  have hzeros : ds.rtakeWhile (· == '0') = List.replicate (ds.rtakeWhile (· == '0')).length '0' := by
    refine List.eq_replicate_of_mem fun c hc => ?_
    exact eq_of_beq (List.mem_rtakeWhile_imp (p := fun x => x == '0') hc)
  have hlength := congrArg List.length hsplit
  rw [List.length_append] at hlength
  rw [show ds.length - (trimZeros ds).length = (ds.rtakeWhile (· == '0')).length by omega,
    ← hzeros]
  exact hsplit

/-- The first digits can be had back by putting zeros behind. -/
theorem take_trimZeros {ds : List Char} {n : Nat} (h : n ≤ ds.length) :
    (trimZeros ds ++ List.replicate n '0').take n = ds.take n := by
  conv_rhs => rw [← trimZeros_append ds]
  rw [List.take_append, List.take_append, List.take_replicate, List.take_replicate]
  congr 2
  omega

theorem trimZeros_inj {ds es : List Char} (h : ds.length = es.length)
    (heq : trimZeros ds = trimZeros es) : ds = es := by
  rw [← trimZeros_append ds, ← trimZeros_append es, heq, h]

end Numeral
