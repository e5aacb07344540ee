import Ubl.Pipeline.DurableRuns

/-!
# `durable_store.rs`: the nonces that have been seen

`nonce_mark_if_new` deletes the rows that have expired and inserts one for its nonce, if there is
none.  The clock does not go back, so a deleted row is not missed later, and over a whole run the
answers follow the expiries of the rows (`answer_iff_not_live`).  The expiry of a row is `now` plus
the seconds of the `ttl`, in 64 bits with a sign: for a `ttl` that does not fit it lies in the past.

    no call's `now + ttl` is beyond 64 bits
        →  a call answers true iff no earlier true answer for its nonce has time left
                                                                     (nonce_replay_window)
-/

namespace Ubl.Pipeline

/-- A call of `nonce_mark_if_new` at a time of the clock; `ttl` is in seconds. -/
structure NonceCall where
  fault : Option DurableError
  now : Int64
  nonce : String
  ttl : UInt64

namespace NonceCall

variable (c : NonceCall)

/-- When the nonce may be used again. -/
def expiry : Int := c.now.toInt + max c.ttl.toNat 1

/-- The expiry is a number of the table. -/
def Fits : Prop := c.expiry < 2 ^ 63

/-- The expiry as the table has it. -/
def expiresAt : Int64 := c.now + (max c.ttl 1).toInt64

theorem toNat_max_one (n : UInt64) : (max n 1).toNat = max n.toNat 1 := by
  show (if n ≤ 1 then 1 else n).toNat = _
  split_ifs with hle
  · have hle : n.toNat ≤ 1 := UInt64.le_iff_toNat_le.mp hle
    rw [max_eq_right hle]
    rfl
  · have hlt : 1 < n.toNat := UInt64.lt_iff_toNat_lt.mp (UInt64.not_le.mp hle)
    rw [max_eq_left hlt.le]

theorem toInt_expiresAt {c : NonceCall} (h : c.Fits) : c.expiresAt.toInt = c.expiry := by
  have hseconds : (max c.ttl 1).toInt64.toInt = Int.bmod (max c.ttl.toNat 1 : Nat) (2 ^ 64) := by
    rw [Int64.toInt, UInt64.toBitVec_toInt64, BitVec.toInt_eq_toNat_bmod, UInt64.toNat_toBitVec,
      toNat_max_one]
  have hnow := c.now.le_toInt
  unfold Fits expiry at h
  rw [expiresAt, expiry, Int64.toInt_add, hseconds, Int.add_bmod_bmod]
  apply Int.bmod_eq_of_le
  · omega
  · omega

end NonceCall

namespace DurableStore

variable {τ : Type} (d : DurableStore τ)

def mark (c : NonceCall) : Except DurableError Bool × DurableStore τ :=
  d.nonceMarkIfNew c.fault c.now c.nonce c.ttl

/-- The store after the calls. -/
def afterCalls (calls : List NonceCall) : DurableStore τ := calls.foldl (fun d c => (d.mark c).2) d

/-- What a call answers after others. -/
def answer (calls : List NonceCall) (c : NonceCall) : Except DurableError Bool :=
  ((d.afterCalls calls).mark c).1

/-- The call at `i` was for the nonce and answered true. -/
def Marked (calls : List NonceCall) (nonce : String) (i : Nat) (c : NonceCall) : Prop :=
  calls[i]? = some c ∧ c.nonce = nonce ∧ d.answer (calls.take i) c = .ok true

variable {d}

theorem mark_eq {c : NonceCall} (hfault : c.fault = none) : d.mark c =
    (.ok (0 < (insertOrIgnore ⟨c.nonce, c.now, c.expiresAt⟩
        (deleteExpired c.now d.seenNonces).2).1),
      { d with seenNonces := (insertOrIgnore ⟨c.nonce, c.now, c.expiresAt⟩
        (deleteExpired c.now d.seenNonces).2).2 }) := by
  unfold mark
  rw [hfault]
  rfl

/-- Some row of the nonce has not expired. -/
def Live (d : DurableStore τ) (nonce : String) (now : Int64) : Prop :=
  ∃ row ∈ d.seenNonces, row.nonce = nonce ∧ now < row.expiresAt

theorem mark_ok_true {c : NonceCall} (hfault : c.fault = none) :
    (d.mark c).1 = .ok true ↔ ¬ d.Live c.nonce c.now := by
  have hany : ((deleteExpired c.now d.seenNonces).2.any fun row => row.nonce == c.nonce) = true ↔
      d.Live c.nonce c.now := by
    simp [deleteExpired, Live, and_comm, and_assoc]
  rw [mark_eq hfault, insertOrIgnore, ← hany]
  split_ifs with hlive <;> simp [hlive]

/-- From its time on, a call leaves live what was live, and its own nonce if it answers true. -/
theorem live_mark {c : NonceCall} {nonce : String} {t : Int64} (ht : c.now ≤ t) :
    (d.mark c).2.Live nonce t ↔ d.Live nonce t ∨
      (d.mark c).1 = .ok true ∧ c.nonce = nonce ∧ t < c.expiresAt := by
  cases hfault : c.fault with
  | some e =>
    have hmark : d.mark c = (.error e, d) := by
      unfold mark
      rw [hfault]
      rfl
    simp [hmark]
  | none =>
    have hkept : (∃ row ∈ (deleteExpired c.now d.seenNonces).2, row.nonce = nonce ∧
        t < row.expiresAt) ↔ d.Live nonce t := by
      simp only [deleteExpired, List.mem_filter, decide_eq_true_eq, Live]
      constructor
      · rintro ⟨row, ⟨hrow, -⟩, hlive⟩
        exact ⟨row, hrow, hlive⟩
      · rintro ⟨row, hrow, hnonce, hlive⟩
        exact ⟨row, ⟨hrow, Int64.lt_of_le_of_lt ht hlive⟩, hnonce, hlive⟩
    rw [mark_eq hfault, insertOrIgnore, ← hkept]
    split_ifs with hlive
    · simp [Live]
    · simp [Live, or_and_right, exists_or]

theorem afterCalls_concat (calls : List NonceCall) (c : NonceCall) :
    d.afterCalls (calls ++ [c]) = ((d.afterCalls calls).mark c).2 := by
  rw [afterCalls, List.foldl_append]
  rfl

theorem marked_concat {calls : List NonceCall} {c c' : NonceCall} {nonce : String} {i : Nat} :
    d.Marked (calls ++ [c]) nonce i c' ↔ d.Marked calls nonce i c' ∨
      i = calls.length ∧ c' = c ∧ c.nonce = nonce ∧ d.answer calls c = .ok true := by
  unfold Marked
  rcases Nat.lt_trichotomy i calls.length with hlt | rfl | hgt
  · rw [List.getElem?_append_left hlt, List.take_append_of_le_length hlt.le]
    simp [hlt.ne]
  · rw [List.getElem?_concat_length, List.take_append_of_le_length (Nat.le_refl _),
      List.take_length, List.getElem?_eq_none (Nat.le_refl _)]
    grind
  · rw [List.getElem?_eq_none (by simpa using hgt), List.getElem?_eq_none hgt.le]
    simp [hgt.ne']

/-- The rows that are live are those of the calls that answered true and have time left. -/
theorem live_afterCalls (hd : d.seenNonces = []) {calls : List NonceCall} {nonce : String}
    {t : Int64} (ht : ∀ c ∈ calls, c.now ≤ t) : (d.afterCalls calls).Live nonce t ↔
      ∃ i c, d.Marked calls nonce i c ∧ t < c.expiresAt := by
  induction calls using List.reverseRecOn with
  | nil => simp [afterCalls, Live, Marked, hd]
  | append_singleton calls c ih =>
    have hc : c.now ≤ t := ht c (by simp)
    rw [afterCalls_concat, live_mark hc, ih fun c' hc' => ht c' (List.mem_append_left _ hc')]
    simp only [marked_concat]
    constructor
    · rintro (⟨i, c', hmarked, hlive⟩ | ⟨hanswer, hnonce, hlive⟩)
      · exact ⟨i, c', .inl hmarked, hlive⟩
      · exact ⟨calls.length, c, .inr ⟨rfl, rfl, hnonce, hanswer⟩, hlive⟩
    · rintro ⟨i, c', hmarked | ⟨-, rfl, hnonce, hanswer⟩, hlive⟩
      · exact .inl ⟨i, c', hmarked, hlive⟩
      · exact .inr ⟨hanswer, hnonce, hlive⟩

theorem marked_take {calls : List NonceCall} {nonce : String} {i j : Nat} {c : NonceCall} :
    d.Marked (calls.take i) nonce j c ↔ j < i ∧ d.Marked calls nonce j c := by
  unfold Marked
  rw [List.getElem?_take, List.take_take]
  split_ifs with hlt
  · rw [min_eq_left hlt.le]
    simp [hlt]
  · simp [hlt]

/-- Over a run the answers follow the expiries of the rows. -/
theorem answer_iff_not_live (hd : d.seenNonces = []) {calls : List NonceCall}
    (htimes : calls.Pairwise fun c c' => c.now ≤ c'.now) {i : Nat} {c : NonceCall}
    (hc : calls[i]? = some c) (hfault : c.fault = none) :
    d.answer (calls.take i) c = .ok true ↔
      ¬ ∃ j < i, ∃ c', d.Marked calls c.nonce j c' ∧ c.now < c'.expiresAt := by
  have hearlier : ∀ c' ∈ calls.take i, c'.now ≤ c.now := by
    intro c' hc'
    obtain ⟨hi, rfl⟩ := List.getElem?_eq_some_iff.mp hc
    obtain ⟨j, hj, rfl⟩ := List.mem_iff_getElem.mp hc'
    rw [List.getElem_take]
    rw [List.length_take] at hj
    exact List.pairwise_iff_getElem.mp htimes j i _ hi (by omega)
  rw [answer, mark_ok_true hfault, live_afterCalls hd hearlier]
  simp only [marked_take, and_assoc, exists_and_left]

/-- Where no call's expiry is beyond 64 bits, a call answers true exactly when no earlier true
answer for its nonce has time left, and false otherwise. -/
theorem nonce_replay_window (d : DurableStore τ) (hd : d.seenNonces = []) (calls : List NonceCall)
    (htimes : calls.Pairwise fun c c' => c.now ≤ c'.now) (hfits : ∀ c ∈ calls, c.Fits) (i : Nat)
    (c : NonceCall) (hc : calls[i]? = some c) (hfault : c.fault = none) :
    ∃ new, d.answer (calls.take i) c = .ok new ∧ (new = true ↔ ¬ ∃ j < i, ∃ c',
      calls[j]? = some c' ∧ c'.nonce = c.nonce ∧ d.answer (calls.take j) c' = .ok true ∧
        c.now.toInt < c'.expiry) := by
  obtain ⟨new, hnew⟩ : ∃ new, d.answer (calls.take i) c = .ok new :=
    ⟨_, congrArg Prod.fst (mark_eq hfault)⟩
  refine ⟨new, hnew, ?_⟩
  have hanswer := answer_iff_not_live hd htimes hc hfault
  rw [hnew, Except.ok.injEq] at hanswer
  rw [hanswer]
  refine not_congr (exists_congr fun j => and_congr_right fun _ => exists_congr fun c' => ?_)
  unfold Marked
  rw [and_assoc, and_assoc]
  refine and_congr_right fun hj => and_congr_right fun _ => and_congr_right fun _ => ?_
  rw [Int64.lt_iff_toInt_lt, NonceCall.toInt_expiresAt (hfits c' (List.mem_of_getElem? hj))]

/-- The second call for a nonce, in a minute of an hour. -/
def hourCalls : List NonceCall :=
  [⟨none, 1771416000, "6e6f6e63653031", 3600⟩, ⟨none, 1771416060, "6e6f6e63653031", 3600⟩]

theorem nonce_replay_window_hour :
    ∃ new, (empty String).answer (hourCalls.take 1)
        ⟨none, 1771416060, "6e6f6e63653031", 3600⟩ = .ok new ∧
      (new = true ↔ ¬ ∃ j < 1, ∃ c' : NonceCall, hourCalls[j]? = some c' ∧
        c'.nonce = "6e6f6e63653031" ∧ (empty String).answer (hourCalls.take j) c' = .ok true ∧
          (1771416060 : Int64).toInt < c'.expiry) :=
  nonce_replay_window (empty String) rfl hourCalls (by decide)
    (by simp [hourCalls, NonceCall.Fits, NonceCall.expiry]) 1
    ⟨none, 1771416060, "6e6f6e63653031", 3600⟩ rfl rfl

/-- The expiry of the longest time to live is the second before: the nonce is new again at once. -/
theorem longest_ttl_expired :
    (empty String).answer [] ⟨none, 1771416000, "6e6f6e63653031", 2 ^ 64 - 1⟩ = .ok true ∧
      (empty String).answer [⟨none, 1771416000, "6e6f6e63653031", 2 ^ 64 - 1⟩]
        ⟨none, 1771416000, "6e6f6e63653031", 2 ^ 64 - 1⟩ = .ok true ∧
      ¬ ∀ (d : DurableStore String) (calls : List NonceCall) (i : Nat) (c : NonceCall),
        d.seenNonces = [] → (calls.Pairwise fun c c' => c.now ≤ c'.now) → calls[i]? = some c →
          c.fault = none → ∃ new, d.answer (calls.take i) c = .ok new ∧
            (new = true ↔ ¬ ∃ j < i, ∃ c', calls[j]? = some c' ∧ c'.nonce = c.nonce ∧
              d.answer (calls.take j) c' = .ok true ∧ c.now.toInt < c'.expiry) := by
  have hfirst : (empty String).answer []
      ⟨none, 1771416000, "6e6f6e63653031", 2 ^ 64 - 1⟩ = .ok true := by
    decide +kernel
  have hsecond : (empty String).answer [⟨none, 1771416000, "6e6f6e63653031", 2 ^ 64 - 1⟩]
      ⟨none, 1771416000, "6e6f6e63653031", 2 ^ 64 - 1⟩ = .ok true := by
    decide +kernel
  refine ⟨hfirst, hsecond, fun h => ?_⟩
  obtain ⟨new, hnew, hiff⟩ := h (empty String) [⟨none, 1771416000, "6e6f6e63653031", 2 ^ 64 - 1⟩,
    ⟨none, 1771416000, "6e6f6e63653031", 2 ^ 64 - 1⟩] 1
    ⟨none, 1771416000, "6e6f6e63653031", 2 ^ 64 - 1⟩ rfl (by decide) rfl rfl
  obtain rfl := Except.ok.inj (hsecond.symm.trans hnew)
  refine hiff.mp rfl ⟨0, by decide, _, rfl, rfl, hfirst, ?_⟩
  decide +kernel

end DurableStore

end Ubl.Pipeline
