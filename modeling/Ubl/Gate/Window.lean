import Ubl.Gate.RateLimit

/-!
# The limiter refines a log of allowed checks

The limiter keeps the times that are less than a window old, drops the others at every check and at
every prune, and forgets a key that has none left.  It answers as one would that keeps, for each key,
all times at which a check was allowed:

    answers earliest (new config) calls = Logs.answers earliest config (fun _ => []) (checks calls)

Such a log is `SlidingLog.Admitted`; a prune does not touch it, and a check only that of its key.
-/

namespace Ubl.Gate

open SlidingLog

instance (config : RateLimitConfig) (earliest now : Instant) :
    Decidable (config.Fits earliest now) := inferInstanceAs (Decidable (_ ∧ _))

def Answer.isAllowed (a : Answer) : Bool := a.result.any RateLimitResult.isAllowed

/-- The checks among the calls. -/
def checks (calls : List LimiterCall) : List (Instant × String) :=
  calls.filterMap fun call => match call.op with
    | .check key => some (call.now, key)
    | .prune => none

def checkTimes (key : String) (calls : List LimiterCall) : List Instant :=
  ((checks calls).filter fun c => c.2 = key).map Prod.fst

def allowedTimes (key : String) (given : List Answer) : List Instant :=
  (given.filter fun a => a.isAllowed && a.key = key).map Answer.now

/-! ## The log -/

/-- The times at which the checks of each key were allowed. -/
abbrev Logs := String → List Instant

namespace Logs

variable (earliest : Instant) (config : RateLimitConfig)

def answer (now : Instant) (log : List Instant) : Option RateLimitResult :=
  if config.Fits earliest now then some (config.verdict now (recent (config.window : ℤ) now log))
  else none

def after (now : Instant) (log : List Instant) : List Instant :=
  if config.Fits earliest now then record config.maxRequests.toNat (config.window : ℤ) now log
  else log

def answers (logs : Logs) : List (Instant × String) → List Answer
  | [] => []
  | (now, key) :: checks =>
    ⟨now, key, answer earliest config now (logs key)⟩ ::
      answers (Function.update logs key (after earliest config now (logs key))) checks

/-- The answers to the checks of one key. -/
def keyAnswers (key : String) (log : List Instant) : List Instant → List Answer
  | [] => []
  | now :: times =>
    ⟨now, key, answer earliest config now log⟩ ::
      keyAnswers key (after earliest config now log) times

variable {earliest config} {now : Instant} {log : List Instant}

/-- What is allowed is what enters the log. -/
theorem after_eq : after earliest config now log =
    if (answer earliest config now log).any RateLimitResult.isAllowed then log ++ [now] else log := by
  unfold after answer record
  split_ifs with hfits hfew hallowed hallowed hallowed
  · rfl
  · rw [RateLimitConfig.verdict, if_pos hfew] at hallowed
    exact absurd rfl hallowed
  · rw [RateLimitConfig.verdict, if_neg hfew] at hallowed
    cases hallowed
  · rfl
  · cases hallowed
  · rfl

theorem after_of_allowed
    (h : (answer earliest config now log).any RateLimitResult.isAllowed) :
    after earliest config now log = log ++ [now] := after_eq.trans (if_pos h)

theorem after_of_refused
    (h : ¬ (answer earliest config now log).any RateLimitResult.isAllowed) :
    after earliest config now log = log := after_eq.trans (if_neg h)

/-- The log of a key up to a time. -/
structure Past (config : RateLimitConfig) (now : Instant) (log : List Instant) : Prop where
  admitted : Admitted config.maxRequests.toNat (config.window : ℤ) log
  le : ∀ t ∈ log, t ≤ now

theorem past_nil (config : RateLimitConfig) (now : Instant) : Past config now [] :=
  ⟨.nil, nofun⟩

theorem Past.mono {later : Instant} (h : Past config now log) (hle : now ≤ later) :
    Past config later log := ⟨h.admitted, fun t ht => (h.le t ht).trans hle⟩

theorem Past.after (earliest : Instant) (h : Past config now log) :
    Past config now (after earliest config now log) := by
  unfold Logs.after
  split_ifs
  · exact ⟨h.admitted.record h.le, fun t => le_of_mem_record h.le⟩
  · exact h

/-- A limited check may come again when the oldest time that counts is a window old. -/
theorem Past.retry (h : Past config now log) {limit remaining : UInt32} {retryAfter : Duration}
    (hlimited : answer earliest config now log = some (.limited limit remaining retryAfter)) :
    (answer earliest config (now + retryAfter) log).any RateLimitResult.isAllowed := by
  unfold answer at hlimited
  split_ifs at hlimited with hfits
  have hverdict := Option.some.inj hlimited
  unfold RateLimitConfig.verdict at hverdict
  split_ifs at hverdict with hfew
  obtain ⟨-, -, rfl⟩ := RateLimitResult.limited.inj hverdict
  have hmax : 1 ≤ config.maxRequests.toNat := UInt32.le_iff_toNat_le.mp hfits.1
  obtain ⟨oldest, rest, hrecent⟩ := List.exists_cons_of_length_pos
    (hmax.trans (Nat.le_of_not_lt hfew))
  obtain ⟨hmem, hyoung⟩ := mem_recent.mp (hrecent ▸ List.mem_cons_self :
    oldest ∈ recent (config.window : ℤ) now log)
  have hage : durationSince now oldest ≤ config.window :=
    Int.toNat_le.mpr (sub_le_comm.mp hyoung.le)
  have hlater : now + ((config.window - durationSince now oldest : ℕ) : ℤ) =
      oldest + config.window := by
    rw [Nat.cast_sub hage, durationSince, Int.toNat_of_nonneg (sub_nonneg.mpr (h.le oldest hmem))]
    ring
  have hfits' : config.Fits earliest (oldest + config.window) :=
    ⟨hfits.1, hfits.2.trans (sub_le_sub_right (sub_lt_iff_lt_add.mp hyoung).le _)⟩
  have hfewer : (recent (config.window : ℤ) (oldest + config.window) log).length <
      config.maxRequests.toNat :=
    (length_recent_oldest_lt hrecent).trans_le (h.admitted.length_recent_le h.le)
  rw [hrecent, List.headD_cons, hlater, answer, if_pos hfits', RateLimitConfig.verdict,
    if_pos hfewer]
  rfl

theorem retryAfter_le {limit remaining : UInt32} {retryAfter : Duration}
    (hlimited : answer earliest config now log = some (.limited limit remaining retryAfter)) :
    retryAfter ≤ config.window := by
  unfold answer RateLimitConfig.verdict at hlimited
  split_ifs at hlimited
  · cases Option.some.inj hlimited
  · obtain ⟨-, -, rfl⟩ := RateLimitResult.limited.inj (Option.some.inj hlimited)
    exact Nat.sub_le _ _

/-! ### What the answers come to -/

theorem result_of_mem {logs : Logs} {checks : List (Instant × String)} {a : Answer}
    (ha : a ∈ answers earliest config logs checks) :
    ∃ log, a.result = answer earliest config a.now log := by
  induction checks generalizing logs with
  | nil => cases ha
  | cons check checks ih =>
    rcases List.mem_cons.mp ha with rfl | ha
    · exact ⟨_, rfl⟩
    · exact ih ha

theorem filter_answers (key : String) (logs : Logs) (checks : List (Instant × String)) :
    (answers earliest config logs checks).filter (fun a => a.key = key) =
      keyAnswers earliest config key (logs key)
        ((checks.filter fun c => c.2 = key).map Prod.fst) := by
  induction checks generalizing logs with
  | nil => rfl
  | cons check checks ih =>
    obtain ⟨now, key'⟩ := check
    by_cases hkey : key' = key
    · subst hkey
      rw [answers, List.filter_cons, if_pos (decide_eq_true rfl), ih, Function.update_self,
        List.filter_cons, if_pos (decide_eq_true rfl), List.map_cons, keyAnswers]
    · rw [answers, List.filter_cons, if_neg (by simpa using hkey), ih,
        Function.update_of_ne (Ne.symm hkey), List.filter_cons, if_neg (by simpa using hkey)]

/-- What is in the log and what comes to be allowed. -/
theorem admitted_allowed (earliest : Instant) (key : String) {times : List Instant}
    (h : Past config now log) (hmono : (now :: times).Pairwise (· ≤ ·)) :
    Admitted config.maxRequests.toNat (config.window : ℤ)
      (log ++ ((keyAnswers earliest config key log times).filter Answer.isAllowed).map
        Answer.now) := by
  induction times generalizing now log with
  | nil => simpa [keyAnswers] using h.admitted
  | cons later times ih =>
    have hlater : now ≤ later := List.rel_of_pairwise_cons hmono List.mem_cons_self
    have hrest := ih ((h.mono hlater).after earliest) (List.Pairwise.of_cons hmono)
    rw [keyAnswers]
    by_cases hallowed : (⟨later, key, answer earliest config later log⟩ : Answer).isAllowed
    · rw [List.filter_cons_of_pos hallowed, List.map_cons]
      rw [after_of_allowed hallowed, List.append_assoc, List.singleton_append] at hrest
      rwa [after_of_allowed hallowed]
    · rw [List.filter_cons_of_neg hallowed]
      rw [after_of_refused hallowed] at hrest
      rwa [after_of_refused hallowed]

/-- The check that follows a limited one, when it should. -/
theorem retry_allowed {key : String} {times : List Instant} (h : Past config now log)
    (hmono : (now :: times).Pairwise (· ≤ ·)) {given given' : List Answer} {t : Instant}
    {limit remaining : UInt32} {retryAfter : Duration} {result : Option RateLimitResult}
    (hgiven : keyAnswers earliest config key log times =
      given ++ ⟨t, key, some (.limited limit remaining retryAfter)⟩ ::
        ⟨t + retryAfter, key, result⟩ :: given') :
    result.any RateLimitResult.isAllowed := by
  induction given generalizing now log times with
  | nil =>
    obtain _ | ⟨later, _ | ⟨next, times⟩⟩ := times
    · cases hgiven
    · cases (List.cons.inj hgiven).2
    · obtain ⟨hfirst, hrest⟩ := List.cons.inj hgiven
      obtain ⟨rfl, -, hlimited⟩ := Answer.mk.inj hfirst
      obtain ⟨rfl, -, rfl⟩ := Answer.mk.inj (List.cons.inj hrest).1
      have hlater := List.rel_of_pairwise_cons hmono List.mem_cons_self
      rw [after_of_refused (by rw [hlimited]; exact nofun)]
      exact (h.mono hlater).retry hlimited
  | cons a given ih =>
    obtain _ | ⟨later, times⟩ := times
    · cases hgiven
    · have hlater : now ≤ later := List.rel_of_pairwise_cons hmono List.mem_cons_self
      exact ih ((h.mono hlater).after earliest) (List.Pairwise.of_cons hmono)
        (List.cons.inj hgiven).2

end Logs

/-! ## The limiter keeps what counts -/

section Refinement

variable {earliest now later : Instant} {config : RateLimitConfig} {entry : WindowEntry}
  {limiter : RateLimiter} {logs : Logs}

/-- The times of an entry and those of a log count alike from `now` on. -/
def Counts (config : RateLimitConfig) (now : Instant) (timestamps log : List Instant) : Prop :=
  ∀ later, now ≤ later →
    recent (config.window : ℤ) later timestamps = recent (config.window : ℤ) later log

theorem Counts.mono {timestamps log : List Instant} (h : Counts config now timestamps log)
    (hle : now ≤ later) : Counts config later timestamps log :=
  fun t ht => h t (hle.trans ht)

theorem Counts.recent {timestamps log : List Instant} (h : Counts config now timestamps log) :
    Counts config now (recent (config.window : ℤ) now timestamps) log :=
  fun t ht => (recent_recent ht timestamps).trans (h t ht)

theorem Counts.checkAndRecord (earliest : Instant) {log : List Instant}
    (h : Counts config now entry.timestamps log) (hlog : Logs.Past config now log) :
    (entry.checkAndRecord earliest now config).1 = Logs.answer earliest config now log ∧
      Counts config now (entry.checkAndRecord earliest now config).2.timestamps
        (Logs.after earliest config now log) := by
  have hcounting : entry.counting config now = SlidingLog.recent (config.window : ℤ) now log :=
    h now le_rfl
  have hlen : (entry.counting config now).length ≤ config.maxRequests.toNat :=
    hcounting ▸ hlog.admitted.length_recent_le hlog.le
  unfold Logs.answer Logs.after
  by_cases hfits : config.Fits earliest now
  · rw [WindowEntry.checkAndRecord_eq hfits hlen, if_pos hfits, if_pos hfits, hcounting]
    refine ⟨rfl, fun t ht => ?_⟩
    unfold record
    dsimp only
    split_ifs
    · rw [recent_append, recent_append, recent_recent ht]
    · exact recent_recent ht log
  · rw [if_neg hfits, if_neg hfits]
    by_cases hnow : earliest ≤ now - config.window
    · have hmax : ¬ 1 ≤ config.maxRequests := fun hmax => hfits ⟨hmax, hnow⟩
      have hempty : entry.counting config now = [] :=
        List.eq_nil_of_length_eq_zero
          (Nat.le_zero.mp (WindowEntry.maxRequests_eq_zero hmax ▸ hlen))
      rw [WindowEntry.checkAndRecord_zero hnow hempty hmax]
      refine ⟨rfl, fun t ht => ?_⟩
      rw [← recent_recent ht log, ← hcounting, hempty]
    · rw [WindowEntry.checkAndRecord_unfit hnow]
      exact ⟨rfl, h⟩

/-- The limiter counts, from `now` on, what the logs do. -/
structure Refines (config : RateLimitConfig) (now : Instant) (limiter : RateLimiter)
    (logs : Logs) : Prop where
  config_eq : limiter.config = config
  counts : ∀ key, Counts config now (limiter.entry key).timestamps (logs key)
  past : ∀ key, Logs.Past config now (logs key)

theorem refines_new (config : RateLimitConfig) (now : Instant) :
    Refines config now (.new config) fun _ => [] :=
  ⟨rfl, fun _ _ _ => rfl, fun _ => Logs.past_nil config now⟩

theorem Refines.mono (h : Refines config now limiter logs) (hle : now ≤ later) :
    Refines config later limiter logs :=
  ⟨h.config_eq, fun key => (h.counts key).mono hle, fun key => (h.past key).mono hle⟩

theorem Refines.check (earliest : Instant) (h : Refines config now limiter logs) (key : String) :
    (limiter.check earliest now key).1 = Logs.answer earliest config now (logs key) ∧
      Refines config now (limiter.check earliest now key).2
        (Function.update logs key (Logs.after earliest config now (logs key))) := by
  obtain ⟨rfl⟩ := h.config_eq
  obtain ⟨hanswer, hcounts⟩ := (h.counts key).checkAndRecord earliest (h.past key)
  refine ⟨hanswer, rfl, fun key' => ?_, fun key' => ?_⟩
  · rw [RateLimiter.entry_check, Function.update_apply]
    split_ifs
    · exact hcounts
    · exact h.counts key'
  · rw [Function.update_apply]
    split_ifs
    · exact (h.past key).after earliest
    · exact h.past key'

theorem Refines.prune (h : Refines config now limiter logs) :
    Refines config now (limiter.prune earliest now) logs := by
  refine ⟨RateLimiter.config_prune.trans h.config_eq, fun key => ?_, h.past⟩
  rw [RateLimiter.entry_prune]
  split_ifs
  · exact h.config_eq ▸ (h.counts key).recent
  · exact h.counts key

theorem Refines.answers_eq {calls : List LimiterCall} (h : Refines config now limiter logs)
    (hfrom : ∀ c ∈ calls, now ≤ c.now) (hmono : calls.Pairwise fun a b => a.now ≤ b.now) :
    limiter.answers earliest calls = Logs.answers earliest config logs (checks calls) := by
  induction calls generalizing now limiter logs with
  | nil => rfl
  | cons c calls ih =>
    obtain ⟨later, op⟩ := c
    have hlater := h.mono (hfrom _ List.mem_cons_self)
    have hfrom' : ∀ c ∈ calls, later ≤ c.now := fun c => List.rel_of_pairwise_cons hmono
    have hmono' := List.Pairwise.of_cons hmono
    cases op with
    | check key =>
      obtain ⟨hanswer, hnext⟩ := hlater.check earliest key
      rw [RateLimiter.answers, ih hnext hfrom' hmono', hanswer]
      rfl
    | prune => exact ih hlater.prune hfrom' hmono'

/-- Calls at times that do not fall are answered as the checks among them by the logs. -/
theorem answers_new {calls : List LimiterCall} (earliest : Instant) (config : RateLimitConfig)
    (hmono : calls.Pairwise fun a b => a.now ≤ b.now) :
    (RateLimiter.new config).answers earliest calls =
      Logs.answers earliest config (fun _ => []) (checks calls) := by
  obtain _ | ⟨c, calls⟩ := calls
  · rfl
  · refine (refines_new config c.now).answers_eq (fun d hd => ?_) hmono
    rcases List.mem_cons.mp hd with rfl | hd
    · exact le_rfl
    · exact List.rel_of_pairwise_cons hmono hd

end Refinement

/-! ## What holds of every run -/

/-- The times do not fall. -/
def Nondecreasing (calls : List LimiterCall) : Prop := calls.Pairwise fun a b => a.now ≤ b.now

theorem Nondecreasing.checkTimes {calls : List LimiterCall} (h : Nondecreasing calls)
    (key : String) : ∃ now, (now :: checkTimes key calls).Pairwise (· ≤ ·) := by
  have hchecks : (checks calls).Pairwise fun a b => a.1 ≤ b.1 := by
    refine h.filterMap _ fun a b hab c hc d hd => ?_
    obtain ⟨now, _ | _⟩ := a
    · obtain ⟨later, _ | _⟩ := b
      · cases hc
        cases hd
        exact hab
      · cases hd
    · cases hc
  have htimes : (Gate.checkTimes key calls).Pairwise (· ≤ ·) :=
    List.pairwise_map.mpr (hchecks.filter _)
  cases hlist : Gate.checkTimes key calls with
  | nil => exact ⟨0, List.pairwise_singleton ..⟩
  | cons first rest =>
    refine ⟨first, List.pairwise_cons.mpr ⟨fun t ht => ?_, hlist ▸ htimes⟩⟩
    rcases List.mem_cons.mp ht with rfl | ht
    · exact le_rfl
    · exact List.rel_of_pairwise_cons (hlist ▸ htimes) ht

theorem filter_answers_new {calls : List LimiterCall} (earliest : Instant)
    (config : RateLimitConfig) (h : Nondecreasing calls) (key : String) :
    ((RateLimiter.new config).answers earliest calls).filter (fun a => a.key = key) =
      Logs.keyAnswers earliest config key [] (checkTimes key calls) := by
  rw [answers_new earliest config h, Logs.filter_answers]
  rfl

theorem admitted_allowedTimes {calls : List LimiterCall} (earliest : Instant)
    (config : RateLimitConfig) (h : Nondecreasing calls) (key : String) :
    Admitted config.maxRequests.toNat (config.window : ℤ)
      (allowedTimes key ((RateLimiter.new config).answers earliest calls)) := by
  obtain ⟨now, hmono⟩ := h.checkTimes key
  have hadmitted := Logs.admitted_allowed earliest key (Logs.past_nil config now) hmono
  rwa [← filter_answers_new earliest config h, List.filter_filter, List.nil_append] at hadmitted

/-- The limiter in a run at times that do not fall: what it allows of a key fits into every window
closed on one side, a limited check may come again when the answer says, and an answer depends on the
checks of its key only. -/
theorem answers_slide (earliest : Instant) (config : RateLimitConfig) (calls : List LimiterCall)
    (hcalls : Nondecreasing calls) :
    let given := (RateLimiter.new config).answers earliest calls
    (∀ key (start : Instant),
      ((allowedTimes key given).filter fun t => start ≤ t ∧ t < start + config.window).length ≤
        config.maxRequests.toNat ∧
      ((allowedTimes key given).filter fun t => start < t ∧ t ≤ start + config.window).length ≤
        config.maxRequests.toNat) ∧
    (∀ before t key limit remaining retryAfter after,
      given = before ++ ⟨t, key, some (.limited limit remaining retryAfter)⟩ :: after →
        retryAfter ≤ config.window ∧ ∀ between result rest,
          after = between ++ ⟨t + retryAfter, key, result⟩ :: rest →
          (∀ a ∈ between, a.key ≠ key) → result.any RateLimitResult.isAllowed) ∧
    ∀ calls', Nondecreasing calls' →
      (checks calls' = checks calls →
        (RateLimiter.new config).answers earliest calls' = given) ∧
      ∀ key, checkTimes key calls' = checkTimes key calls →
        ((RateLimiter.new config).answers earliest calls').filter (fun a => a.key = key) =
          given.filter fun a => a.key = key := by
  intro given
  refine ⟨fun key start => ?_, fun before t key limit remaining retryAfter after hgiven => ?_,
    fun calls' hcalls' => ⟨fun hchecks => ?_, fun key htimes => ?_⟩⟩
  · have hadmitted := admitted_allowedTimes earliest config hcalls key
    exact ⟨hadmitted.length_from_le start, hadmitted.length_upTo_le start⟩
  · constructor
    · have hmem : ⟨t, key, some (.limited limit remaining retryAfter)⟩ ∈ given :=
        hgiven ▸ List.mem_append_right before List.mem_cons_self
      rw [show given = _ from answers_new earliest config hcalls] at hmem
      obtain ⟨log, hlog⟩ := Logs.result_of_mem hmem
      exact Logs.retryAfter_le hlog.symm
    · rintro between result rest rfl hbetween
      obtain ⟨now, hmono⟩ := hcalls.checkTimes key
      have hkey := filter_answers_new earliest config hcalls key
      have hnone : between.filter (fun a => a.key = key) = [] :=
        List.filter_eq_nil_iff.mpr (by simpa using hbetween)
      rw [show (RateLimiter.new config).answers earliest calls = _ from hgiven,
        List.filter_append, List.filter_cons, if_pos (decide_eq_true rfl), List.filter_append,
        hnone, List.nil_append, List.filter_cons, if_pos (decide_eq_true rfl)] at hkey
      exact Logs.retry_allowed (Logs.past_nil config now) hmono hkey.symm
  · rw [answers_new earliest config hcalls', hchecks]
    exact (answers_new earliest config hcalls).symm
  · rw [filter_answers_new earliest config hcalls', htimes]
    exact (filter_answers_new earliest config hcalls key).symm

/-- One request a minute; the second one is limited, and comes again when it was told to. -/
def sampleCalls : List LimiterCall :=
  [⟨0, .check "key1"⟩, ⟨10_000_000_000, .check "key1"⟩, ⟨20_000_000_000, .prune⟩,
    ⟨60_000_000_000, .check "key1"⟩]

def sampleAnswers : List Answer :=
  [⟨0, "key1", some (.allowed 1 0)⟩, ⟨10_000_000_000, "key1", some (.limited 1 0 50_000_000_000)⟩,
    ⟨60_000_000_000, "key1", some (.allowed 1 0)⟩]

theorem answers_slide_sample :
    (RateLimiter.new (.perMinute 1)).answers (-2 ^ 63 * 10 ^ 9) sampleCalls = sampleAnswers ∧
    (∀ start : Instant, ((allowedTimes "key1" ((RateLimiter.new (.perMinute 1)).answers
      (-2 ^ 63 * 10 ^ 9) sampleCalls)).filter fun t =>
        start ≤ t ∧ t < start + (RateLimitConfig.perMinute 1).window).length ≤ 1) ∧
    (some (.allowed 1 0) : Option RateLimitResult).any RateLimitResult.isAllowed := by
  have hcalls : Nondecreasing sampleCalls := by simp [Nondecreasing, sampleCalls]
  have hgiven : (RateLimiter.new (.perMinute 1)).answers (-2 ^ 63 * 10 ^ 9) sampleCalls =
      sampleAnswers := by with_unfolding_all rfl
  obtain ⟨hwindow, hretry, -⟩ :=
    answers_slide (-2 ^ 63 * 10 ^ 9) (.perMinute 1) sampleCalls hcalls
  refine ⟨hgiven, fun start => (hwindow "key1" start).1, ?_⟩
  exact (hretry [⟨0, "key1", some (.allowed 1 0)⟩] 10_000_000_000 "key1" 1 0 50_000_000_000 _
    hgiven).2 [] _ [] rfl nofun

end Ubl.Gate
