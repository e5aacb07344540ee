import Ubl.Eventstore.Store
import Ubl.Lib.Numeral

/-!
# The order of the index keys

From the epoch on the padded times stand in the order of time (`pad20_lt_iff`), and so do the keys
behind one value, those of one millisecond in the order of their ids (`timeIndexKey_lt_iff`).  The
id is read off a key if there is no separator in it (`extract_append`).
-/

namespace Ubl.Eventstore

open Utf8 Numeral KeyTree

/-! ## Padded times -/

variable {i j ms ms' start : Int64} {id id' : String}

/-- The digits of a time that is not negative. -/
def digits20 (i : Int64) : List Char := (Nat.toDigits 10 i.toInt.natAbs).leftpad 20 '0'

theorem pad20_of_nonneg (h : 0 ≤ i) : pad20 i = String.ofList (digits20 i) := by
  rw [pad20, if_neg (Int64.not_lt.mpr h), digits20]

theorem isDigit_digits20 : (digits20 i).all Char.isDigit := isDigit_pad ..

/-- No time has more than twenty digits. -/
theorem length_digits20 : (digits20 i).length = 20 := by
  refine length_pad (by decide) ?_
  have := i.toInt_lt
  have := i.le_toInt
  omega

theorem ofDigitChars_digits20 : Nat.ofDigitChars 10 (digits20 i) 0 = i.toInt.natAbs :=
  ofDigitChars_pad ..

theorem utf8_digits20 : utf8 (String.ofList (digits20 i)) =
    (digits20 i).map fun c => UInt8.ofNat c.toNat := by
  refine utf8_ascii fun c hc => ?_
  have hbounds := isDigit_bounds (List.all_eq_true.mp isDigit_digits20 c hc)
  omega

theorem length_pad20 (h : 0 ≤ i) : (utf8 (pad20 i)).length = 20 := by
  rw [pad20_of_nonneg h, utf8_digits20, List.length_map, length_digits20]

/-- Times that are not negative stand in their order. -/
theorem pad20_lt_iff (hi : 0 ≤ i) (hj : 0 ≤ j) : utf8 (pad20 i) < utf8 (pad20 j) ↔ i < j := by
  rw [pad20_of_nonneg hi, pad20_of_nonneg hj, utf8_digits20, utf8_digits20,
    digits_lt_iff isDigit_digits20 isDigit_digits20
      (length_digits20.trans length_digits20.symm),
    ofDigitChars_digits20, ofDigitChars_digits20, Int64.lt_iff_toInt_lt]
  rw [Int64.le_iff_toInt_le] at hi hj
  have hzero : Int64.toInt 0 = 0 := rfl
  omega

theorem pad20_inj (hi : 0 ≤ i) (hj : 0 ≤ j) (h : utf8 (pad20 i) = utf8 (pad20 j)) : i = j := by
  have hij : ¬ i < j := fun hlt => lt_irrefl _ (h ▸ (pad20_lt_iff hi hj).mpr hlt)
  have hji : ¬ j < i := fun hlt => lt_irrefl _ (h ▸ (pad20_lt_iff hj hi).mpr hlt)
  exact Int64.le_antisymm (Int64.not_lt.mp hji) (Int64.not_lt.mp hij)

/-- A minus sign stands before the digits. -/
theorem pad20_lt_of_neg (hi : i < 0) (hj : 0 ≤ j) (xs ys : List UInt8) :
    utf8 (pad20 i) ++ xs < utf8 (pad20 j) ++ ys := by
  obtain ⟨c, cs, hdigits⟩ : ∃ c cs, digits20 j = c :: cs :=
    List.exists_cons_of_length_eq_add_one length_digits20
  have hbounds : 48 ≤ c.toNat ∧ c.toNat ≤ 57 :=
    isDigit_bounds (List.all_eq_true.mp isDigit_digits20 c (hdigits ▸ List.mem_cons_self))
  have hminus : (45 : UInt8) < UInt8.ofNat c.toNat := by
    rw [UInt8.lt_iff_toNat_lt, UInt8.toNat_ofNat']
    show 45 < c.toNat % 2 ^ 8
    omega
  have hpad : pad20 i = String.ofList (['-'] ++ (Nat.toDigits 10 i.toInt.natAbs).leftpad 19 '0') := by
    rw [pad20, if_pos hi]
    rfl
  have hdash : utf8 (String.ofList ['-']) = [45] := rfl
  rw [hpad, pad20_of_nonneg hj, utf8_digits20, hdigits, String.ofList_append, utf8_append, hdash]
  exact List.cons_lt_cons_iff.mpr (.inl hminus)

/-! ## Keys -/

/-- A dimension stands before the time. -/
theorem dimIndexKey_eq (value : String) (ms : Int64) (id : String) :
    dimIndexKey value ms id = utf8 (value ++ "\x1f") ++ timeIndexKey ms id := by
  simp [dimIndexKey, timeIndexKey]

theorem timeIndexKey_lt_iff (hms : 0 ≤ ms) (hms' : 0 ≤ ms') :
    timeIndexKey ms id < timeIndexKey ms' id' ↔ ms < ms' ∨ ms = ms' ∧ utf8 id < utf8 id' := by
  have hlength : (utf8 (pad20 ms)).length = (utf8 (pad20 ms')).length :=
    (length_pad20 hms).trans (length_pad20 hms').symm
  simp only [timeIndexKey, utf8_append, List.append_assoc]
  rw [append_lt_append_iff hlength, pad20_lt_iff hms hms', append_lt_append_left_iff]
  have heq : utf8 (pad20 ms) = utf8 (pad20 ms') ↔ ms = ms' :=
    ⟨pad20_inj hms hms', fun h => by rw [h]⟩
  rw [heq]

/-- The start of a scan, be it negative or not. -/
theorem start_le_timeIndexKey (hms : 0 ≤ ms) :
    utf8 (pad20 start ++ "\x1f") ≤ timeIndexKey ms id ↔ start ≤ ms := by
  by_cases hstart : 0 ≤ start
  · have hkey : utf8 (pad20 start ++ "\x1f") = timeIndexKey start "" := by
      rw [timeIndexKey, String.append_empty]
    have hempty : utf8 "" = [] := rfl
    rw [hkey, ← not_lt, timeIndexKey_lt_iff hms hstart, hempty]
    simp
  · have hneg : start < 0 := Int64.not_le.mp hstart
    refine iff_of_true (le_of_lt ?_) (Int64.le_trans (Int64.le_of_lt hneg) hms)
    simp only [timeIndexKey, utf8_append, List.append_assoc]
    exact pad20_lt_of_neg hneg hms _ _

theorem extract_append {front : String} (h : '\x1f' ∉ id.toList) :
    extractEventIdFromIndexKey (utf8 (front ++ "\x1f" ++ id)) = some id := by
  have hreverse : (front ++ "\x1f" ++ id).toList.reverse =
      id.toList.reverse ++ '\x1f' :: front.toList.reverse := by
    simp
  have hwhile : (id.toList.reverse ++ '\x1f' :: front.toList.reverse).takeWhile (· ≠ '\x1f') =
      id.toList.reverse := by
    rw [List.takeWhile_append_of_pos fun c hc => by
      simpa using ne_of_mem_of_not_mem (List.mem_reverse.mp hc) h]
    simp
  rw [extractEventIdFromIndexKey, fromUtf8_utf8, Option.map_some, hreverse, hwhile,
    List.reverse_reverse, String.ofList_toList]

end Ubl.Eventstore
