import Ubl.Nrf.FromJson

/-!
# How long canonical bytes are

The length of the bytes of an object is a sum over its members, in whatever order they stand.  So
the effect of one member on the length is that of its value, also where a length or a count does
not fit the `u32` of the wire and the bytes cannot be read back.

    (encodeValue (nrfOf (.object ms))).length = 1 + count + Σ memberLength         (length_object)
-/

namespace Ubl.Nrf

open AssocMap Utf8

theorem length_encodeString (s : String) : (encodeString s).length =
    1 + (encodeVarint32 (UInt32.ofNat s.utf8ByteSize)).length + (utf8 s).length := by
  rw [encodeString, List.length_cons, List.length_append]
  omega

def entryLength (e : String × NrfValue) : Nat :=
  (encodeString e.1).length + (encodeValue e.2).length

theorem length_encodeEntries (entries : List (String × NrfValue)) :
    (encodeEntries entries).length = (entries.map entryLength).sum := by
  induction entries with
  | nil => rfl
  | cons e entries ih =>
    rw [encodeEntries, List.length_append, List.length_append, ih, List.map_cons, List.sum_cons,
      entryLength]
    omega

/-- The entries are the members that are not null, sorted. -/
theorem nrfEntries_perm {bt : List (String × NrfValue)} {members : List (String × Json)}
    (hd : DistinctKeys members) (hnew : ∀ k ∈ keys members, k ∉ keys bt) :
    (nrfEntries bt members).Perm
      ((members.filter fun e => !e.2.isNull).map (fun e => (e.1, nrfOf e.2)) ++ bt) := by
  induction members generalizing bt with
  | nil => exact List.Perm.refl _
  | cons e members ih =>
    obtain ⟨he, hd⟩ := List.nodup_cons.mp hd
    have hrest : ∀ k ∈ keys members, k ∉ keys bt := fun k hk =>
      hnew k (List.mem_cons_of_mem _ hk)
    rw [nrfEntries]
    by_cases hnull : e.2.isNull
    · rw [if_pos hnull, List.filter_cons_of_neg (by simp [hnull])]
      exact ih hd hrest
    · rw [if_neg hnull, List.filter_cons_of_pos (by simp [hnull]), List.map_cons]
      have hins : ∀ k ∈ keys members, k ∉ keys (sortedInsert e.1 (nrfOf e.2) bt) := by
        intro k hk hkin
        rcases mem_keys_sortedInsert.mp hkin with rfl | hkin
        · exact he hk
        · exact hrest k hk hkin
      have hperm := sortedInsert_perm (nrfOf e.2) (hnew e.1 List.mem_cons_self)
      exact ((ih hd hins).trans (List.Perm.append_left _ hperm)).trans List.perm_middle

/-- What a member adds to the bytes of its object. -/
def memberLength (e : String × Json) : Nat :=
  if e.2.isNull then 0 else (encodeString e.1).length + (encodeValue (nrfOf e.2)).length

theorem memberLength_filter (members : List (String × Json)) :
    (((members.filter fun e => !e.2.isNull).map (fun e => (e.1, nrfOf e.2))).map entryLength).sum =
      (members.map memberLength).sum := by
  induction members with
  | nil => rfl
  | cons e members ih =>
    rw [List.map_cons, List.sum_cons, memberLength, ← ih]
    by_cases hnull : e.2.isNull
    · rw [if_pos hnull, List.filter_cons_of_neg (by simp [hnull]), Nat.zero_add]
    · rw [if_neg hnull, List.filter_cons_of_pos (by simp [hnull]), List.map_cons, List.map_cons,
        List.sum_cons, entryLength]

theorem length_object {members : List (String × Json)} (hd : DistinctKeys members) :
    (encodeValue (nrfOf (.object members))).length =
      1 + (encodeVarint32 (UInt32.ofNat (members.countP fun e => !e.2.isNull))).length +
        (members.map memberLength).sum := by
  have hperm : (nrfEntries [] members).Perm _ := nrfEntries_perm hd fun _ _ => List.not_mem_nil
  rw [List.append_nil] at hperm
  have hcount : (nrfEntries [] members).length = members.countP fun e => !e.2.isNull := by
    rw [hperm.length_eq, List.length_map, List.countP_eq_length_filter]
  have hsum : (encodeEntries (nrfEntries [] members)).length = (members.map memberLength).sum := by
    rw [length_encodeEntries, (hperm.map entryLength).sum_eq, memberLength_filter]
  rw [nrfOf, encodeValue, List.length_cons, List.length_append, hcount, hsum]
  omega

theorem length_encodeString_empty : (encodeString "").length = 2 := by
  decide +kernel

/-- A member that is the empty text is the shortest text member under its key. -/
theorem memberLength_empty_le (k s : String) :
    memberLength (k, .string "") + (utf8 s).length ≤ memberLength (k, .string s) := by
  have hpos := length_encodeVarint32_pos (UInt32.ofNat s.utf8ByteSize)
  have hstring := length_encodeString s
  show (encodeString k).length + (encodeString "").length + (utf8 s).length ≤
    (encodeString k).length + (encodeString s).length
  rw [length_encodeString_empty]
  omega

end Ubl.Nrf
