import Ubl.Gate.Mcp

/-!
# `McpTokenRateLimiter` in a run

Every session counts the calls of its token in one map, and a check reads the clock before it waits
for the lock: a check may find times in its bucket that are later than its own.  Only the front of a
bucket is dropped, so where no clock is read more than `skew` before that of a check that came first,

    of a token, no more than `perMinute` calls pass in any 60 s less the skew,
    and a token does not count against another              (token_limiter_slides)

A call that is told to wait passes when it comes again after as many seconds, counted from the
latest clock that a check of the token has read.
-/

namespace Ubl.Gate

open SlidingLog

/-- A check, in the order of the lock. -/
structure TokenCall where
  tokenId : String
  now : Instant

abbrev TokenBuckets := KeyTree String (List Instant)

/-- The checks with their answers. -/
def tokenAnswers (perMinute : Nat) : TokenBuckets → List TokenCall → List (TokenCall × Option Nat)
  | _, [] => []
  | buckets, call :: calls =>
    let (retryAfter, buckets) := checkTokenBucket perMinute call.now call.tokenId buckets
    (call, retryAfter) :: tokenAnswers perMinute buckets calls

/-- The times at which a token passed. -/
def passedTimes (tokenId : String) (answers : List (TokenCall × Option Nat)) : List Instant :=
  (answers.filter fun a => a.1.tokenId = tokenId ∧ a.2 = none).map fun a => a.1.now

/-! ## One bucket -/

/-- What is left of a bucket when a check has dropped its front. -/
def dropOld (now : Instant) (bucket : List Instant) : List Instant :=
  bucket.dropWhile fun ts => decide (tokenWindow ≤ durationSince now ts)

def retryAfter (now : Instant) (bucket : List Instant) : Nat :=
  match bucket.head? with
  | some oldest => (tokenWindow - durationSince now oldest) / 1000000000 + 1
  | none => 1

def checkBucket (perMinute : Nat) (now : Instant) (bucket : List Instant) :
    Option Nat × List Instant :=
  if perMinute ≤ (dropOld now bucket).length then
    (some (retryAfter now (dropOld now bucket)), dropOld now bucket)
  else (none, dropOld now bucket ++ [now])

/-- The answers of one bucket. -/
def bucketAnswers (perMinute : Nat) : List Instant → List Instant → List (Instant × Option Nat)
  | _, [] => []
  | bucket, now :: nows =>
    let (retryAfter, bucket) := checkBucket perMinute now bucket
    (now, retryAfter) :: bucketAnswers perMinute bucket nows

section Buckets

variable {perMinute : Nat} {now : Instant} {tokenId token : String} {buckets : TokenBuckets}

def bucketOf (buckets : TokenBuckets) (tokenId : String) : List Instant :=
  (buckets.get tokenId).getD []

theorem checkTokenBucket_eq : checkTokenBucket perMinute now tokenId buckets =
    ((checkBucket perMinute now (bucketOf buckets tokenId)).1,
      buckets.insert tokenId (checkBucket perMinute now (bucketOf buckets tokenId)).2) := by
  by_cases hfull : perMinute ≤ (dropOld now (bucketOf buckets tokenId)).length
  · rw [checkBucket, if_pos hfull]
    exact if_pos hfull
  · rw [checkBucket, if_neg hfull]
    exact if_neg hfull

theorem bucketOf_insert {bucket : List Instant} : bucketOf (buckets.insert tokenId bucket) token =
    if token = tokenId then bucket else bucketOf buckets token := by
  rw [bucketOf, KeyTree.get_insert]
  split_ifs <;> rfl

/-- Each token has a bucket of its own. -/
theorem filter_tokenAnswers (token : String) (calls : List TokenCall) (buckets : TokenBuckets) :
    (tokenAnswers perMinute buckets calls).filter (fun a => a.1.tokenId = token) =
      (bucketAnswers perMinute (bucketOf buckets token)
        ((calls.filter fun c => c.tokenId = token).map TokenCall.now)).map fun a =>
          (⟨token, a.1⟩, a.2) := by
  induction calls generalizing buckets with
  | nil => rfl
  | cons call calls ih =>
    obtain ⟨tokenId, now⟩ := call
    rw [tokenAnswers, checkTokenBucket_eq]
    by_cases htoken : tokenId = token
    · subst htoken
      rw [List.filter_cons_of_pos (by simp), ih, bucketOf_insert, if_pos rfl,
        List.filter_cons_of_pos (by simp)]
      rfl
    · rw [List.filter_cons_of_neg (by simpa using htoken), ih, bucketOf_insert,
        if_neg (Ne.symm htoken), List.filter_cons_of_neg (by simpa using htoken)]

end Buckets

/-! ## What a bucket keeps -/

section Keeping

variable {perMinute : Nat} {now latest : Instant} {bucket log : List Instant}

/-- What is dropped is a window old. -/
theorem filter_sublist_dropOld {p : Instant → Bool}
    (hp : ∀ t, tokenWindow ≤ durationSince now t → ¬ p t) (bucket : List Instant) :
    (bucket.filter p).Sublist (dropOld now bucket) := by
  induction bucket with
  | nil => exact List.Sublist.slnil
  | cons t bucket ih =>
    rw [dropOld, List.dropWhile_cons]
    split_ifs with hold
    · rw [List.filter_cons_of_neg (hp t (of_decide_eq_true hold))]
      exact ih
    · exact List.filter_sublist

/-- The passes that may still count are in the bucket. -/
def Remembers (latest : Instant) (log bucket : List Instant) : Prop :=
  (recent (tokenWindow : ℤ) latest log).Sublist bucket

theorem Remembers.dropOld (h : Remembers latest log bucket) :
    Remembers (max latest now) log (dropOld now bucket) := by
  have hrecent : recent (tokenWindow : ℤ) (max latest now) (recent (tokenWindow : ℤ) latest log) =
      recent (tokenWindow : ℤ) (max latest now) log := recent_recent (le_max_left latest now) log
  rw [Remembers, ← hrecent]
  refine (List.Sublist.filter _ h).trans (filter_sublist_dropOld (fun t hold => ?_) bucket)
  have hnow : (tokenWindow : ℤ) ≤ now - t := by
    rw [durationSince] at hold
    have hpos : 0 < (now - t).toNat := lt_of_lt_of_le (by decide) hold
    exact (Int.ofNat_le.mpr hold).trans (Int.toNat_of_nonneg (by omega)).le
  have := le_max_right latest now
  rw [decide_eq_true_iff, not_lt]
  omega

theorem Remembers.pass (h : Remembers latest log bucket) :
    Remembers latest (log ++ [now]) (bucket ++ [now]) := by
  rw [Remembers, recent_append]
  exact h.append List.filter_sublist

theorem length_recent_le_dropOld (h : Remembers latest log bucket) :
    (recent (tokenWindow : ℤ) (max latest now) log).length ≤ (Gate.dropOld now bucket).length :=
  h.dropOld.length_le

theorem length_checkBucket_le (h : bucket.length ≤ perMinute) :
    (checkBucket perMinute now bucket).2.length ≤ perMinute := by
  have hdrop : (dropOld now bucket).length ≤ bucket.length := List.length_dropWhile_le ..
  unfold checkBucket
  split_ifs with hfull
  · exact hdrop.trans h
  · rw [List.length_append]
    exact Nat.not_le.mp hfull

end Keeping

/-! ## Runs -/

section Runs

variable {perMinute skew : Nat} {now latest : Instant} {bucket log nows : List Instant}

/-- The times of one bucket that pass. -/
def passes (answers : List (Instant × Option Nat)) : List Instant :=
  (answers.filter fun a => a.2 = none).map Prod.fst

/-- No clock is read more than the skew before that of a check that came first. -/
def Behind (skew : Nat) (nows : List Instant) : Prop :=
  nows.Pairwise fun (a b : Instant) => a - (skew : ℤ) ≤ b

theorem behind_cons : Behind skew (now :: nows) ↔
    (∀ t ∈ nows, now - (skew : ℤ) ≤ t) ∧ Behind skew nows :=
  List.pairwise_cons

theorem Behind.step (h : Behind skew (latest :: now :: nows)) :
    latest - skew ≤ now ∧ Behind skew (max latest now :: nows) := by
  obtain ⟨hlatest, hnows⟩ := behind_cons.mp h
  obtain ⟨hnow, hrest⟩ := behind_cons.mp hnows
  refine ⟨hlatest now List.mem_cons_self, behind_cons.mpr ⟨fun t ht => ?_, hrest⟩⟩
  rcases max_choice latest now with h | h <;> rw [h]
  · exact hlatest t (List.mem_cons_of_mem _ ht)
  · exact hnow t ht

theorem bucketAnswers_cons : bucketAnswers perMinute bucket (now :: nows) =
    (now, (checkBucket perMinute now bucket).1) ::
      bucketAnswers perMinute (checkBucket perMinute now bucket).2 nows := rfl

/-- What passes is admitted, and what may count against a later check is remembered. -/
theorem admittedLate_passes (hlog : AdmittedLate perMinute (tokenWindow : ℤ) skew log latest)
    (hbucket : Remembers latest log bucket) (hnows : Behind skew (latest :: nows)) :
    ∃ last, AdmittedLate perMinute (tokenWindow : ℤ) skew
      (log ++ passes (bucketAnswers perMinute bucket nows)) last := by
  induction nows generalizing bucket log latest with
  | nil => exact ⟨latest, by simpa [bucketAnswers, passes] using hlog⟩
  | cons now nows ih =>
    obtain ⟨hlate, hrest⟩ := hnows.step
    rw [bucketAnswers_cons, passes]
    by_cases hfull : perMinute ≤ (dropOld now bucket).length
    · rw [checkBucket, if_pos hfull, List.filter_cons_of_neg (by simp)]
      exact ih (hlog.refuse hlate) hbucket.dropOld hrest
    · rw [checkBucket, if_neg hfull, List.filter_cons_of_pos (by simp), List.map_cons,
        List.append_cons]
      refine ih (hlog.accept hlate ?_) hbucket.dropOld.pass hrest
      exact (length_recent_le_dropOld hbucket).trans_lt (Nat.not_le.mp hfull)

theorem length_passes_le (hnows : Behind skew nows) (start : Instant) :
    ((passes (bucketAnswers perMinute [] nows)).filter fun t =>
      start ≤ t ∧ t < start + ((tokenWindow : ℤ) - skew)).length ≤ perMinute := by
  cases nows with
  | nil => exact Nat.zero_le _
  | cons first rest =>
    have hfirst : Behind skew (first :: first :: rest) := by
      refine behind_cons.mpr ⟨fun t ht => ?_, hnows⟩
      rcases List.mem_cons.mp ht with rfl | ht
      · exact sub_le_self _ (Int.natCast_nonneg skew)
      · exact (behind_cons.mp hnows).1 t ht
    have hempty : Remembers first [] [] := List.nil_sublist _
    have hnil : AdmittedLate perMinute (tokenWindow : ℤ) skew [] first := .nil
    obtain ⟨last, hlog⟩ := admittedLate_passes hnil hempty hfirst
    exact hlog.length_from_le (Int.natCast_nonneg skew) start

/-- A check in a run sees a bucket that is not over the limit, of times of the checks before. -/
theorem bucket_of_split {before rest : List (Instant × Option Nat)} {a : Instant × Option Nat}
    (hbucket : bucket.length ≤ perMinute)
    (h : bucketAnswers perMinute bucket nows = before ++ a :: rest) :
    ∃ bucket' nows', bucket'.length ≤ perMinute ∧
      (∀ t ∈ bucket', t ∈ bucket ∨ t ∈ before.map Prod.fst) ∧
      a.2 = (checkBucket perMinute a.1 bucket').1 ∧
      rest = bucketAnswers perMinute (checkBucket perMinute a.1 bucket').2 nows' := by
  induction before generalizing bucket nows with
  | nil =>
    cases nows with
    | nil => cases h
    | cons now nows =>
      rw [bucketAnswers_cons, List.nil_append, List.cons.injEq] at h
      obtain ⟨rfl, rfl⟩ := h
      exact ⟨bucket, nows, hbucket, fun t => .inl, rfl, rfl⟩
  | cons b before ih =>
    cases nows with
    | nil => cases h
    | cons now nows =>
      rw [bucketAnswers_cons, List.cons_append, List.cons.injEq] at h
      obtain ⟨rfl, h⟩ := h
      obtain ⟨bucket', nows', hlen, hmem, ha, hrest⟩ := ih (length_checkBucket_le hbucket) h
      refine ⟨bucket', nows', hlen, fun t ht => ?_, ha, hrest⟩
      rw [List.map_cons, List.mem_cons]
      rcases hmem t ht with ht | ht
      · have hdrop : ∀ t ∈ dropOld now bucket, t ∈ bucket :=
          fun t ht => (List.dropWhile_sublist _).mem ht
        unfold checkBucket at ht
        split_ifs at ht
        · exact .inl (hdrop t ht)
        · rcases List.mem_append.mp ht with ht | ht
          · exact .inl (hdrop t ht)
          · exact .inr (.inl (List.mem_singleton.mp ht))
      · exact .inr (.inr ht)

theorem retryAfter_le (bucket : List Instant) : retryAfter now bucket ≤ 61 := by
  unfold retryAfter
  split
  · have hwindow : tokenWindow = 60 * 1000000000 := rfl
    rw [hwindow]
    omega
  · decide

/-- The seconds are rounded up. -/
theorem window_le_of_wait {now oldest latest later : ℤ} (hnow : now ≤ latest)
    (holdest : oldest ≤ latest)
    (h : latest + ((tokenWindow - durationSince now oldest) / 1000000000 + 1 : ℕ) * 10 ^ 9 ≤ later) :
    tokenWindow ≤ durationSince later oldest := by
  have h : latest + ((60 * 1000000000 - (now - oldest).toNat) / 1000000000 + 1 : ℕ) * 10 ^ 9 ≤
    later := h
  change 60 * 1000000000 ≤ (later - oldest).toNat
  omega

/-- A check that is full passes when it comes again after the seconds it was told, where these are
counted from the latest time that is known. -/
theorem checkBucket_again {wait : Nat} {latest later : Instant} (hmax : 1 ≤ perMinute)
    (hlen : bucket.length ≤ perMinute) (hnow : now ≤ latest) (hpast : ∀ t ∈ bucket, t ≤ latest)
    (h : (checkBucket perMinute now bucket).1 = some wait)
    (hlater : latest + wait * 10 ^ 9 ≤ later) :
    (checkBucket perMinute later (checkBucket perMinute now bucket).2).1 = none := by
  unfold checkBucket at h
  split_ifs at h with hfull
  obtain rfl := Option.some.inj h
  have hdrop : (dropOld now bucket).Sublist bucket := List.dropWhile_sublist _
  have hrefused : (checkBucket perMinute now bucket).2 = dropOld now bucket := by
    rw [checkBucket, if_pos hfull]
  rw [hrefused]
  cases hleft : dropOld now bucket with
  | nil =>
    rw [hleft] at hfull
    exact absurd (hmax.trans hfull) (by decide)
  | cons oldest rest =>
    have holdest : oldest ≤ latest := hpast oldest (hdrop.mem (hleft ▸ List.mem_cons_self))
    have hwait : tokenWindow ≤ durationSince later oldest := by
      have hretry : retryAfter now (dropOld now bucket) =
          (tokenWindow - durationSince now oldest) / 1000000000 + 1 := by
        rw [hleft]
        rfl
      rw [hretry] at hlater
      exact window_le_of_wait hnow holdest hlater
    have hshort : (dropOld later (oldest :: rest)).length < perMinute := by
      have hcons : dropOld later (oldest :: rest) = dropOld later rest :=
        List.dropWhile_cons_of_pos (decide_eq_true hwait)
      rw [hcons]
      calc _ ≤ rest.length := List.length_dropWhile_le ..
        _ < (oldest :: rest).length := Nat.lt_succ_self _
        _ ≤ perMinute := hleft ▸ hdrop.length_le.trans hlen
    rw [checkBucket, if_neg (Nat.not_le.mpr hshort)]

end Runs

/-! ## All tokens -/

section Tokens

variable {perMinute skew : Nat} {calls : List TokenCall} {tokenId : String}

/-- The times at which the clock was read for a token. -/
def timesOf (tokenId : String) (calls : List TokenCall) : List Instant :=
  (calls.filter fun c => c.tokenId = tokenId).map TokenCall.now

theorem filter_answers_empty :
    (tokenAnswers perMinute .empty calls).filter (fun a => a.1.tokenId = tokenId) =
      (bucketAnswers perMinute [] (timesOf tokenId calls)).map fun a => (⟨tokenId, a.1⟩, a.2) :=
  filter_tokenAnswers tokenId calls .empty

/-- The answers to a token, as those of its bucket. -/
theorem map_answers_empty : ((tokenAnswers perMinute .empty calls).filter
    (fun a => a.1.tokenId = tokenId)).map (fun a => (a.1.now, a.2)) =
      bucketAnswers perMinute [] (timesOf tokenId calls) := by
  rw [filter_answers_empty, List.map_map]
  exact List.map_id _

theorem map_fst_tokenAnswers (calls : List TokenCall) (buckets : TokenBuckets) :
    (tokenAnswers perMinute buckets calls).map Prod.fst = calls := by
  induction calls generalizing buckets with
  | nil => rfl
  | cons call calls ih =>
    rw [tokenAnswers, checkTokenBucket_eq, List.map_cons, ih]

theorem passedTimes_eq : passedTimes tokenId (tokenAnswers perMinute .empty calls) =
    passes (bucketAnswers perMinute [] (timesOf tokenId calls)) := by
  have hfilter : (tokenAnswers perMinute .empty calls).filter
      (fun a => a.1.tokenId = tokenId ∧ a.2 = none) =
      ((tokenAnswers perMinute .empty calls).filter fun a => a.1.tokenId = tokenId).filter
        fun a => a.2 = none := by
    rw [List.filter_filter]
    exact List.filter_congr fun a _ => by rw [Bool.decide_and, Bool.and_comm]
  rw [passedTimes, hfilter, filter_answers_empty, List.filter_map, List.map_map]
  rfl

theorem behind_timesOf (h : calls.Pairwise fun a b => a.now - (skew : ℤ) ≤ b.now)
    (tokenId : String) : Behind skew (timesOf tokenId calls) :=
  List.pairwise_map.mpr (h.sublist List.filter_sublist)

end Tokens

/-- The limiter in a run, where a check may come by the skew later than it read the clock: the passes
of a token fit into every window that is shorter by the skew, the checks of other tokens change
nothing, and the seconds that a refused check is told are no more than 61 and, counted from the latest
clock that the token's checks have read, enough.  With the skew added they are enough in any case. -/
theorem token_limiter_slides (configured skew : Nat) (calls : List TokenCall)
    (hcalls : calls.Pairwise fun a b => a.now - (skew : ℤ) ≤ b.now) :
    let perMinute := max configured 1
    let answers := tokenAnswers perMinute .empty calls
    (∀ tokenId (start : Instant), ((passedTimes tokenId answers).filter fun t =>
      start ≤ t ∧ t < start + ((tokenWindow : ℤ) - skew)).length ≤ perMinute) ∧
    (∀ tokenId, answers.filter (fun a => a.1.tokenId = tokenId) =
      tokenAnswers perMinute .empty (calls.filter fun c => c.tokenId = tokenId)) ∧
    ∀ (before : List (TokenCall × Option Nat)) (call : TokenCall) (wait : Nat) after,
      answers = before ++ (call, some wait) :: after → wait ≤ 61 ∧ ∀ between (later : Instant) result rest,
        after = between ++ (⟨call.tokenId, later⟩, result) :: rest →
        (∀ a ∈ between, a.1.tokenId ≠ call.tokenId) →
        (∀ latest, call.now ≤ latest →
          (∀ a ∈ before, a.1.tokenId = call.tokenId → a.1.now ≤ latest) →
          latest + (wait : ℤ) * 10 ^ 9 ≤ later → result = none) ∧
        (call.now + skew + (wait : ℤ) * 10 ^ 9 ≤ later → result = none) := by
  intro perMinute answers
  refine ⟨fun tokenId start => ?_, fun tokenId => ?_, fun before call wait after hanswers => ?_⟩
  · rw [show answers = tokenAnswers perMinute .empty calls from rfl, passedTimes_eq]
    exact length_passes_le (behind_timesOf hcalls tokenId) start
  · have hself : (tokenAnswers perMinute .empty (calls.filter fun c => c.tokenId = tokenId)).filter
        (fun a => a.1.tokenId = tokenId) =
        tokenAnswers perMinute .empty (calls.filter fun c => c.tokenId = tokenId) := by
      refine List.filter_eq_self.mpr fun a ha => ?_
      have hcall : a.1 ∈ calls.filter fun c => c.tokenId = tokenId := by
        have h := List.mem_map_of_mem (f := Prod.fst) ha
        rwa [map_fst_tokenAnswers] at h
      exact (List.mem_filter.mp hcall).2
    have htimes : timesOf tokenId (calls.filter fun c => c.tokenId = tokenId) =
        timesOf tokenId calls := by
      rw [timesOf, List.filter_filter]
      simp only [Bool.and_self]
      rfl
    have hleft : answers.filter (fun a => a.1.tokenId = tokenId) = _ := filter_answers_empty
    rw [hleft, ← hself, filter_answers_empty, htimes]
  · have hkey : ((tokenAnswers perMinute .empty calls).filter
        (fun a => a.1.tokenId = call.tokenId)).map (fun a => (a.1.now, a.2)) =
          bucketAnswers perMinute [] (timesOf call.tokenId calls) := map_answers_empty
    rw [show tokenAnswers perMinute .empty calls = _ from hanswers, List.filter_append,
      List.filter_cons_of_pos (by simp), List.map_append, List.map_cons] at hkey
    obtain ⟨bucket, nows, hlen, hmem, hwait, hafter⟩ := bucket_of_split (Nat.zero_le _) hkey.symm
    have hwait' : wait ≤ 61 := by
      unfold checkBucket at hwait
      split_ifs at hwait
      rw [Option.some.inj hwait]
      exact retryAfter_le _
    refine ⟨hwait', ?_⟩
    rintro between later result rest rfl hbetween
    have hnone : between.filter (fun a => a.1.tokenId = call.tokenId) = [] :=
      List.filter_eq_nil_iff.mpr (by simpa using hbetween)
    rw [List.filter_append, hnone, List.nil_append, List.filter_cons_of_pos (by simp),
      List.map_cons] at hafter
    have hpast : ∀ latest, (∀ a ∈ before, a.1.tokenId = call.tokenId → a.1.now ≤ latest) →
        ∀ t ∈ bucket, t ≤ latest := by
      intro latest hbefore t ht
      have ht := (hmem t ht).resolve_left List.not_mem_nil
      rw [List.map_map] at ht
      obtain ⟨a, ha, rfl⟩ := List.mem_map.mp ht
      obtain ⟨ha, htoken⟩ := List.mem_filter.mp ha
      exact hbefore a ha (of_decide_eq_true htoken)
    cases nows with
    | nil => cases hafter
    | cons now nows =>
      rw [bucketAnswers_cons, List.cons.injEq, Prod.mk.injEq] at hafter
      obtain ⟨⟨rfl, hresult⟩, -⟩ := hafter
      have hagain : ∀ latest, call.now ≤ latest →
          (∀ a ∈ before, a.1.tokenId = call.tokenId → a.1.now ≤ latest) →
          latest + (wait : ℤ) * 10 ^ 9 ≤ later → result = none :=
        fun latest hnow hbefore hlater => hresult.trans <|
          checkBucket_again (Nat.le_max_right _ _) hlen hnow (hpast latest hbefore) hwait.symm hlater
      refine ⟨hagain, fun hlater => hagain (call.now + skew)
        (Int.le_add_of_nonneg_right (Int.natCast_nonneg skew)) (fun a ha _ => ?_) hlater⟩
      have hbehind : a.1.now - (skew : ℤ) ≤ call.now := by
        rw [← map_fst_tokenAnswers calls .empty, show tokenAnswers perMinute .empty calls = _ from
          hanswers, List.map_append, List.map_cons] at hcalls
        exact (List.pairwise_append.mp hcalls).2.2 a.1 (List.mem_map_of_mem ha) call
          List.mem_cons_self
      exact Int.le_add_of_sub_right_le hbehind

/-- The check of the second token comes to the lock late. -/
def lateCalls : List TokenCall :=
  [⟨"t", 10_000_000_000⟩, ⟨"u", 8_000_000_000⟩, ⟨"t", 12_000_000_000⟩, ⟨"t", 71_000_000_000⟩]

/-- One call a minute: the third check is told 59 seconds, and comes again after them. -/
theorem token_limiter_slides_late : ((passedTimes "t" (tokenAnswers 1 .empty lateCalls)).filter
      fun t => 10_000_000_000 ≤ t ∧
        t < 10_000_000_000 + ((tokenWindow : ℤ) - (5_000_000_000 : ℕ))).length ≤ 1 ∧
    (tokenAnswers 1 .empty lateCalls).map Prod.snd = [none, none, some 59, none] := by
  have hcalls : lateCalls.Pairwise fun a b => a.now - ((5_000_000_000 : ℕ) : ℤ) ≤ b.now := by
    simp [lateCalls]
  have hanswers : tokenAnswers 1 .empty lateCalls =
      [(⟨"t", 10_000_000_000⟩, none), (⟨"u", 8_000_000_000⟩, none)] ++
        (⟨"t", 12_000_000_000⟩, some 59) :: [(⟨"t", 71_000_000_000⟩, none)] := by
    with_unfolding_all rfl
  exact ⟨(token_limiter_slides 1 5_000_000_000 lateCalls hcalls).1 "t" 10_000_000_000,
    by rw [hanswers]; rfl⟩

/-- Counted from its own clock the seconds are not enough for a check that comes late to the lock. -/
example : (tokenAnswers 1 .empty [⟨"t", 10_000_000_000⟩, ⟨"t", 8_000_000_000⟩,
    ⟨"t", 69_000_000_000⟩]).map Prod.snd = [none, some 61, some 2] := by
  with_unfolding_all rfl

/-- Where a check waits too long for the lock, more pass than the window has room for. -/
example : passedTimes "t" (tokenAnswers 2 .empty
    [⟨"t", 0⟩, ⟨"t", 1_000_000_000⟩, ⟨"t", 100_000_000_000⟩, ⟨"t", 30_000_000_000⟩]) =
      [0, 1_000_000_000, 100_000_000_000, 30_000_000_000] := by
  with_unfolding_all rfl

end Ubl.Gate
