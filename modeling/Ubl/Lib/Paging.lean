import Mathlib

/-!
# Pages of lists that are sorted anew

A long list is handed out in pages.  The pages of one list together are its beginning
(`flatMap_page`).  Where each page is cut from a list of its own, with the same members and in the
order of the same key, members with one key may stand in another order on another page:

    no page ends between members with one key  →  the pages together have each member once
                                                                        (flatMap_page_perm)
    some page does  →  for some order of these a member comes twice     (exists_not_perm)
-/

namespace Paging

variable {α : Type}

def page (limit k : ℕ) (l : List α) : List α := (l.drop (k * limit)).take limit

theorem flatMap_page (limit n : ℕ) (l : List α) :
    (List.range n).flatMap (fun k => page limit k l) = l.take (n * limit) := by
  induction n with
  | zero => simp
  | succ n ih =>
    rw [List.range_succ, List.flatMap_append, ih, Nat.succ_mul, List.take_add]
    simp [page]

variable {κ : Type} [LinearOrder κ] (key : α → κ)

/-- The greatest key first. -/
def Sorted (l : List α) : Prop := l.Pairwise fun a b => key b ≤ key a

/-- The members with some key stand on both sides of position `m` of the sorted list. -/
def TieAt (l : List α) (m : ℕ) : Prop :=
  ∃ t, l.countP (fun a => t < key a) < m ∧ m < l.countP (fun a => t ≤ key a)

variable {key} {l l' : List α} {m : ℕ}

theorem TieAt.perm (h : l.Perm l') (ht : TieAt key l m) : TieAt key l' m := by
  obtain ⟨t, hlt, hle⟩ := ht
  exact ⟨t, h.countP_eq _ ▸ hlt, h.countP_eq _ ▸ hle⟩

/-- Where no two members have one key, there is none. -/
theorem not_tieAt_of_nodup (h : (l.map key).Nodup) : ¬ TieAt key l m := by
  have hsplit (t : κ) : l.countP (fun a => t ≤ key a) =
      l.countP (fun a => t < key a) + (l.map key).count t := by
    clear h
    induction l with
    | nil => rfl
    | cons a l ih =>
      simp only [List.countP_cons, List.map_cons, List.count_cons, ih, decide_eq_true_eq,
        beq_iff_eq]
      rcases lt_trichotomy t (key a) with hlt | rfl | hgt
      · rw [if_pos hlt.le, if_pos hlt, if_neg hlt.ne']
        omega
      · rw [if_pos le_rfl, if_neg (lt_irrefl _), if_pos rfl]
        omega
      · rw [if_neg hgt.not_ge, if_neg hgt.not_gt, if_neg hgt.ne]
        omega
  rintro ⟨t, hlt, hle⟩
  have hone : (l.map key).count t ≤ 1 := List.nodup_iff_count_le_one.mp h t
  rw [hsplit] at hle
  omega

theorem Sorted.key_le (hl : Sorted key l) {a b : α} (ha : a ∈ l.take m) (hb : b ∈ l.drop m) :
    key b ≤ key a := by
  rw [Sorted, ← List.take_append_drop m l] at hl
  exact (List.pairwise_append.mp hl).2.2 a ha b hb

/-- What stands after position `m` counts for a bound of the key. -/
theorem lt_countP {p : α → Bool} {b : α} (hb : b ∈ l.drop m) (hp : p b = true)
    (hall : ∀ a ∈ l.take m, p a = true) : m < l.countP p := by
  have hm : m < l.length := by
    have hpos := List.length_pos_of_mem hb
    rw [List.length_drop] at hpos
    omega
  have htake : (l.take m).countP p = m := by
    rw [List.countP_eq_length.mpr hall, List.length_take_of_le (Nat.le_of_lt hm)]
  have hdrop : 0 < (l.drop m).countP p := List.countP_pos_iff.mpr ⟨b, hb, hp⟩
  rw [← List.take_append_drop m l, List.countP_append, htake]
  omega

theorem countP_le {p : α → Bool} (hnone : ∀ b ∈ l.drop m, p b = false) : l.countP p ≤ m := by
  have hdrop : (l.drop m).countP p = 0 :=
    List.countP_eq_zero.mpr fun b hb => by simp [hnone b hb]
  rw [← List.take_append_drop m l, List.countP_append, hdrop, Nat.add_zero]
  exact Nat.le_trans List.countP_le_length (List.length_take_le m l)

theorem Sorted.key_lt (hl : Sorted key l) (hm : ¬ TieAt key l m) {a b : α} (ha : a ∈ l.take m)
    (hb : b ∈ l.drop m) : key b < key a := by
  refine lt_of_not_ge fun hle => hm ⟨key a, ?_, ?_⟩
  · -- `a` itself is one of the first and has no greater key
    have hfirst : (l.take m).countP (fun c => key a < key c) < (l.take m).length := by
      refine Nat.lt_of_le_of_ne List.countP_le_length fun heq => ?_
      simpa using List.countP_eq_length.mp heq a ha
    have hrest : (l.drop m).countP (fun c => key a < key c) = 0 :=
      List.countP_eq_zero.mpr fun c hc => by simpa using hl.key_le ha hc
    have hsplit : l.countP (fun c => key a < key c) =
        (l.take m).countP (fun c => key a < key c) + (l.drop m).countP (fun c => key a < key c) := by
      rw [← List.countP_append, List.take_append_drop]
    have hlen := List.length_take_le m l
    omega
  · exact lt_countP hb (by simpa using hle) fun c hc => by simpa using hle.trans (hl.key_le hc hb)

/-- Without a tie the first `m` are those that at most `m` keys reach. -/
theorem Sorted.take_eq_filter (hl : Sorted key l) (hm : ¬ TieAt key l m) :
    l.take m = l.filter fun a => l.countP (fun c => key a ≤ key c) ≤ m := by
  have hfirst : ∀ a ∈ l.take m, l.countP (fun c => key a ≤ key c) ≤ m := fun a ha =>
    countP_le fun b hb => by simpa using hl.key_lt hm ha hb
  have hrest : ∀ b ∈ l.drop m, ¬ l.countP (fun c => key b ≤ key c) ≤ m := fun b hb =>
    Nat.not_le.mpr (lt_countP hb (by simp) fun c hc => by simpa using hl.key_le hc hb)
  generalize hp : (fun a => decide (l.countP (fun c => key a ≤ key c) ≤ m)) = p
  have hsplit : l.filter p = (l.take m).filter p ++ (l.drop m).filter p := by
    rw [← List.filter_append, List.take_append_drop]
  have hkeep : (l.take m).filter p = l.take m :=
    List.filter_eq_self.mpr fun a ha => by simpa [← hp] using hfirst a ha
  have hnone : (l.drop m).filter p = [] :=
    List.filter_eq_nil_iff.mpr fun b hb => by simpa [← hp] using hrest b hb
  rw [hsplit, hkeep, hnone, List.append_nil]

theorem Sorted.take_perm (hl : Sorted key l) (hl' : Sorted key l') (h : l.Perm l')
    (hm : ¬ TieAt key l m) : (l.take m).Perm (l'.take m) := by
  rw [hl.take_eq_filter hm, hl'.take_eq_filter fun ht => hm (ht.perm h.symm)]
  simp only [h.countP_eq]
  exact h.filter _

theorem Sorted.page_perm (hl : Sorted key l) (hl' : Sorted key l') (h : l.Perm l') {limit k : ℕ}
    (hstart : ¬ TieAt key l (k * limit)) (hend : ¬ TieAt key l ((k + 1) * limit)) :
    (page limit k l).Perm (page limit k l') := by
  have hfirst := hl.take_perm hl' h hstart
  have hboth := hl.take_perm hl' h hend
  rw [Nat.succ_mul, List.take_add, List.take_add] at hboth
  exact (List.perm_append_left_iff _).mp (hboth.trans (hfirst.symm.append_right _))

/-- Where no page ends in a tie, the pages have every member once. -/
theorem flatMap_page_perm {all : List α} {lists : ℕ → List α} (hperm : ∀ k, (lists k).Perm all)
    (hsorted : ∀ k, Sorted key (lists k)) {limit n : ℕ} (hties : ∀ k, ¬ TieAt key all (k * limit))
    (hcover : all.length ≤ n * limit) :
    ((List.range n).flatMap fun k => page limit k (lists k)).Perm all := by
  have hone : ((List.range n).flatMap fun k => page limit k (lists k)).Perm
      ((List.range n).flatMap fun k => page limit k (lists 0)) := by
    refine List.Perm.flatMap_left _ fun k _ => ?_
    have htie (j : ℕ) : ¬ TieAt key (lists k) (j * limit) := fun ht => hties j (ht.perm (hperm k))
    exact (hsorted k).page_perm (hsorted 0) ((hperm k).trans (hperm 0).symm) (htie k) (htie (k + 1))
  rw [flatMap_page, List.take_of_length_le ((hperm 0).length_eq.trans_le hcover)] at hone
  exact hone.trans (hperm 0)

theorem getElem_mem_take {i : ℕ} (hi : i < l.length) : l[i] ∈ l.take (i + 1) := by
  rw [List.take_succ_eq_append_getElem hi]
  exact List.mem_append_right _ (List.mem_singleton_self _)

/-- At a tie two members with one key meet in every sorted list. -/
theorem Sorted.exists_tie (hl : Sorted key l) (ht : TieAt key l m) :
    ∃ xs x y ys, l = xs ++ x :: y :: ys ∧ xs.length + 1 = m ∧ key x = key y := by
  obtain ⟨t, hlt, hle⟩ := ht
  obtain ⟨j, rfl⟩ : ∃ j, m = j + 1 := ⟨m - 1, by omega⟩
  have hlen : j + 1 < l.length := Nat.lt_of_lt_of_le hle List.countP_le_length
  have hdrop : l.drop j = l[j] :: l[j + 1] :: l.drop (j + 2) := by
    rw [List.drop_eq_getElem_cons (by omega), List.drop_eq_getElem_cons (by omega)]
  have hx : l[j] ∈ l.drop j := by
    rw [hdrop]
    exact List.mem_cons_self
  have hy : l[j + 1] ∈ l.drop (j + 1) := by
    rw [List.drop_eq_getElem_cons hlen]
    exact List.mem_cons_self
  refine ⟨l.take j, l[j], l[j + 1], l.drop (j + 2), ?_, ?_, le_antisymm ?_ ?_⟩
  · rw [← hdrop, List.take_append_drop]
  · rw [List.length_take_of_le (by omega)]
  · -- the key of the tie is between them
    have hkeyx : key l[j] ≤ t := le_of_not_gt fun hgt => by
      have hcount := lt_countP (p := fun a => decide (t < key a)) hx (by simpa using hgt) fun a ha => by
        simpa using hgt.trans_le (hl.key_le ha hx)
      omega
    have hkeyy : t ≤ key l[j + 1] := le_of_not_gt fun hgt => by
      have hcount : l.countP (fun a => t ≤ key a) ≤ j + 1 := countP_le fun b hb => by
        rw [List.drop_eq_getElem_cons hlen] at hb
        rcases List.mem_cons.mp hb with rfl | hb
        · simpa using hgt
        · simpa using (hl.key_le (getElem_mem_take hlen) hb).trans_lt hgt
      omega
    exact hkeyx.trans hkeyy
  · exact hl.key_le (getElem_mem_take (by omega)) hy

/-- Where a page starts in a tie, it may start with the last member of the page before it. -/
theorem exists_not_perm {all : List α} (hnodup : all.Nodup) (hl : Sorted key l) (h : l.Perm all)
    {limit k : ℕ} (hlimit : 0 < limit) (ht : TieAt key all (k * limit)) :
    ∃ l', l'.Perm all ∧ Sorted key l' ∧ ∀ n, k < n →
      ¬ ((List.range n).flatMap fun j => page limit j (if j = k then l' else l)).Perm all := by
  obtain ⟨xs, x, y, ys, rfl, hlen, hkey⟩ := hl.exists_tie (ht.perm h.symm)
  obtain ⟨j, rfl⟩ : ∃ j, k = j + 1 := ⟨k - 1, by
    have hpos : k ≠ 0 := by
      rintro rfl
      omega
    omega⟩
  have hswap : (xs ++ y :: x :: ys).Perm (xs ++ x :: y :: ys) :=
    (List.Perm.swap x y ys).append_left xs
  refine ⟨xs ++ y :: x :: ys, hswap.trans h, ?_, fun n hn hperm => ?_⟩
  · have hmap : (xs ++ y :: x :: ys).map key = (xs ++ x :: y :: ys).map key := by simp [hkey]
    have hkeys : ((xs ++ x :: y :: ys).map key).Pairwise fun s t => t ≤ s := List.pairwise_map.mpr hl
    rw [← hmap] at hkeys
    exact List.pairwise_map.mp hkeys
  · -- the member before the page stands on both
    have hbefore : x ∈ page limit j (xs ++ x :: y :: ys) := by
      rw [Nat.succ_mul] at hlen
      have hdrop : (xs ++ x :: y :: ys).drop (j * limit) = xs.drop (j * limit) ++ x :: y :: ys :=
        List.drop_append_of_le_length (by omega)
      have hrest : (xs.drop (j * limit)).length + 1 = limit := by
        rw [List.length_drop]
        omega
      rw [page, hdrop]
      generalize xs.drop (j * limit) = zs at hrest
      subst hrest
      simp [List.take_append]
    have hafter : x ∈ page limit (j + 1) (xs ++ y :: x :: ys) := by
      rw [page, ← hlen, show xs ++ y :: x :: ys = (xs ++ [y]) ++ x :: ys by simp,
        List.drop_left' (by simp)]
      obtain ⟨limit, rfl⟩ := Nat.exists_eq_succ_of_ne_zero (Nat.ne_of_gt hlimit)
      simp
    have hdisjoint := (List.nodup_flatMap.mp (hperm.nodup_iff.mpr hnodup)).2
    have hpair := List.pairwise_iff_getElem.mp hdisjoint j (j + 1) (by simp; omega) (by simpa using hn)
      (by omega)
    simp only [Function.onFun, List.getElem_range] at hpair
    rw [if_neg (show ¬ j = j + 1 by omega), if_pos trivial] at hpair
    exact hpair hbefore hafter

end Paging
