import Mathlib

/-!
# Numerals that keep their leading zeros, and base 58

`rebase a b` takes a numeral, most significant digit first, from base `a` to base `b`: the number
is the same, and there are as many zeros in front as before.  Nothing is lost:

    rebase b a (rebase a b ds) = ds                                        (rebase_rebase)

Base 58 writes the digits of a byte string to that base in an alphabet without look-alikes.
-/

namespace Base58

/-! ## Numerals -/

def leading (ds : List Nat) : List Nat := ds.takeWhile (· == 0)

/-- The number without its leading zeros. -/
def significant (ds : List Nat) : List Nat := ds.dropWhile (· == 0)

def rebase (a b : Nat) (ds : List Nat) : List Nat :=
  leading ds ++ (Nat.digits b (Nat.ofDigits a (significant ds).reverse)).reverse

theorem head_significant_ne_zero {ds : List Nat} (h : significant ds ≠ []) :
    (significant ds).head h ≠ 0 := by
  have hhead : ((significant ds).head h == 0) = false := List.head_dropWhile_not (· == 0) h
  exact beq_eq_false_iff_ne.mp hhead

/-- The leading zeros of a numeral end at the first other digit. -/
theorem leading_append {zs ds : List Nat} (hzs : ∀ d ∈ zs, d = 0) (hds : ∀ h : ds ≠ [], ds.head h ≠ 0) :
    leading (zs ++ ds) = zs ∧ significant (zs ++ ds) = ds := by
  have hzero : ∀ d ∈ zs, (d == 0) = true := fun d hd => beq_iff_eq.mpr (hzs d hd)
  rw [leading, significant, List.takeWhile_append_of_pos hzero, List.dropWhile_append_of_pos hzero]
  cases ds with
  | nil => simp
  | cons d ds =>
    have hd : d ≠ 0 := hds (List.cons_ne_nil _ _)
    simp [hd]

theorem leading_eq_zero {ds : List Nat} : ∀ d ∈ leading ds, d = 0 := by
  intro d hd
  have hzero : (d == 0) = true := List.mem_takeWhile_imp (p := (· == 0)) hd
  exact beq_iff_eq.mp hzero

/-- The first digit of a number is not zero. -/
theorem head_digits_ne_zero (b n : Nat) (h : (Nat.digits b n).reverse ≠ []) :
    (Nat.digits b n).reverse.head h ≠ 0 := by
  have hn : n ≠ 0 := by
    rintro rfl
    simp at h
  rw [List.head_reverse]
  exact Nat.getLast_digit_ne_zero b hn

theorem rebase_rebase {a b : Nat} (ha : 1 < a) {ds : List Nat} (hds : ∀ d ∈ ds, d < a) :
    rebase b a (rebase a b ds) = ds := by
  set n := Nat.ofDigits a (significant ds).reverse with hn
  obtain ⟨hleading, hsignificant⟩ :=
    leading_append (@leading_eq_zero ds) (head_digits_ne_zero b n)
  -- the digits of the number are the significant digits of the numeral
  have hdigits : Nat.digits a n = (significant ds).reverse := by
    refine Nat.digits_ofDigits a ha _ (fun d hd => hds d ?_) fun hne => ?_
    · exact List.dropWhile_subset _ (List.mem_reverse.mp hd)
    · rw [List.getLast_reverse]
      exact head_significant_ne_zero _
  rw [rebase, rebase, ← hn, hleading, hsignificant, List.reverse_reverse, Nat.ofDigits_digits, hdigits,
    List.reverse_reverse]
  exact List.takeWhile_append_dropWhile

theorem rebase_lt {a b : Nat} (hb : 1 < b) {ds : List Nat} : ∀ d ∈ rebase a b ds, d < b := by
  intro d hd
  rcases List.mem_append.mp hd with h | h
  · rw [leading_eq_zero d h]
    exact hb.trans' Nat.zero_lt_one
  · exact Nat.digits_lt_base hb (List.mem_reverse.mp h)

/-! ## The alphabet -/

def alphabet : List Char := "123456789ABCDEFGHJKLMNPQRSTUVWXYZabcdefghijkmnopqrstuvwxyz".toList

def encode (bytes : List UInt8) : String :=
  String.ofList ((rebase 256 58 (bytes.map UInt8.toNat)).map fun d => alphabet.getD d '1')

def decode (s : String) : Option (List UInt8) :=
  (s.toList.mapM alphabet.idxOf?).map fun ds => (rebase 58 256 ds).map UInt8.ofNat

theorem idxOf?_alphabet : ∀ d < 58, alphabet.idxOf? (alphabet.getD d '1') = some d := by
  decide +kernel

theorem alphabet_mem (d : Nat) : alphabet.getD d '1' ∈ alphabet := by
  rw [List.getD_eq_getElem?_getD]
  cases h : alphabet[d]? with
  | none => decide
  | some c => exact List.mem_of_getElem? h

theorem mem_encode {bytes : List UInt8} {c : Char} (h : c ∈ (encode bytes).toList) : c ∈ alphabet := by
  rw [encode, String.toList_ofList] at h
  obtain ⟨d, -, rfl⟩ := List.mem_map.mp h
  exact alphabet_mem d

theorem decode_encode (bytes : List UInt8) : decode (encode bytes) = some bytes := by
  have hread : ∀ ds : List Nat, (∀ d ∈ ds, d < 58) →
      (ds.map fun d => alphabet.getD d '1').mapM alphabet.idxOf? = some ds := by
    intro ds hds
    induction ds with
    | nil => rfl
    | cons d ds ih =>
      rw [List.map_cons, List.mapM_cons, idxOf?_alphabet d (hds d List.mem_cons_self),
        ih fun e he => hds e (List.mem_cons_of_mem _ he)]
      rfl
  have hbytes : ∀ d ∈ bytes.map UInt8.toNat, d < 256 := by
    intro d hd
    obtain ⟨byte, -, rfl⟩ := List.mem_map.mp hd
    exact byte.toNat_lt
  rw [decode, encode, String.toList_ofList, hread _ (rebase_lt (by decide)), Option.map_some,
    rebase_rebase (by decide) hbytes, List.map_map]
  simp [Function.comp_def]

end Base58
