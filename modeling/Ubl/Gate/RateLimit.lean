import Mathlib.Data.UInt
import Ubl.Lib.KeyTree
import Ubl.Lib.SlidingLog

/-!
# `rate_limit.rs`: the sliding-window limiter

A check drops the times that are a window old, and is allowed when fewer than `max_requests` are
left.  Instants and durations are nanoseconds; `none` stands for a panic.  `Instant - Duration`
panics below `earliest`, the first instant of the platform, and `timestamps[0]` where no time is left.

    ∀ a ∈ answers earliest (new config) calls,
      a.result.isSome ↔ config.Fits earliest a.now                       (check_returns_iff)

The times are arguments: each call reads the clock once, each check of the gate up to three times.
-/

namespace Ubl.Gate

/-! ## Instants and durations -/

abbrev Instant := ℤ

abbrev Duration := ℕ

/-- `Instant - Duration`. -/
def instantSub (earliest now : Instant) (duration : Duration) : Option Instant :=
  if earliest ≤ now - duration then some (now - duration) else none

/-- `Instant - Instant`, zero when the second is later. -/
def durationSince (now earlier : Instant) : Duration := (now - earlier).toNat

/-- `Duration - Duration`. -/
def durationSub (a b : Duration) : Option Duration := if b ≤ a then some (a - b) else none

/-- `u32 - u32` where overflow is checked. -/
def u32Sub (a b : UInt32) : Option UInt32 := if b ≤ a then some (a - b) else none

/-! ## The limiter -/

structure RateLimitConfig where
  maxRequests : UInt32
  window : Duration

def RateLimitConfig.perMinute (maxRequests : UInt32) : RateLimitConfig :=
  ⟨maxRequests, 60 * 10 ^ 9⟩

def defaultDidLimit : RateLimitConfig := .perMinute 100

def defaultTenantLimit : RateLimitConfig := .perMinute 1000

def defaultIpLimit : RateLimitConfig := .perMinute 10

inductive RateLimitResult where
  | allowed (limit remaining : UInt32)
  | limited (limit remaining : UInt32) (retryAfter : Duration)
  deriving DecidableEq

def RateLimitResult.isAllowed : RateLimitResult → Bool
  | .allowed .. => true
  | .limited .. => false

def RateLimitResult.isLimited : RateLimitResult → Bool
  | .allowed .. => false
  | .limited .. => true

/-- The times of one key. -/
structure WindowEntry where
  timestamps : List Instant

namespace WindowEntry

def new : WindowEntry := ⟨[]⟩

variable (earliest : Instant)

/-- The times are dropped before the panics of the limited branch. -/
def checkAndRecord (now : Instant) (config : RateLimitConfig) (entry : WindowEntry) :
    Option RateLimitResult × WindowEntry :=
  match instantSub earliest now config.window with
  | none => (none, entry)
  | some cutoff =>
    let timestamps := entry.timestamps.filter fun t => cutoff < t
    let current := UInt32.ofNat timestamps.length
    if config.maxRequests ≤ current then
      (do
        let oldest ← timestamps.head?
        let retryAfter ← durationSub config.window (durationSince now oldest)
        some (.limited config.maxRequests 0 retryAfter), ⟨timestamps⟩)
    else
      (do
        let rest ← u32Sub config.maxRequests current
        let remaining ← u32Sub rest 1
        some (.allowed config.maxRequests remaining), ⟨timestamps ++ [now]⟩)

def remaining (now : Instant) (config : RateLimitConfig) (entry : WindowEntry) : Option UInt32 := do
  let cutoff ← instantSub earliest now config.window
  let active := UInt32.ofNat (entry.timestamps.filter fun t => cutoff < t).length
  some (if active ≤ config.maxRequests then config.maxRequests - active else 0)

end WindowEntry

structure RateLimiter where
  config : RateLimitConfig
  entries : KeyTree String WindowEntry

namespace RateLimiter

def new (config : RateLimitConfig) : RateLimiter := ⟨config, .empty⟩

def entry (limiter : RateLimiter) (key : String) : WindowEntry :=
  (limiter.entries.get key).getD WindowEntry.new

variable (earliest : Instant)

def check (now : Instant) (key : String) (limiter : RateLimiter) :
    Option RateLimitResult × RateLimiter :=
  let checked := (limiter.entry key).checkAndRecord earliest now limiter.config
  (checked.1, { limiter with entries := limiter.entries.insert key checked.2 })

def remaining (now : Instant) (key : String) (limiter : RateLimiter) : Option UInt32 :=
  match limiter.entries.get key with
  | some entry => entry.remaining earliest now limiter.config
  | none => some limiter.config.maxRequests

/-- Panics before it changes anything, or drops what is a window old. -/
def prune (now : Instant) (limiter : RateLimiter) : RateLimiter :=
  match instantSub earliest now limiter.config.window with
  | none => limiter
  | some cutoff =>
    { limiter with entries := limiter.entries.filterMap fun entry =>
        let timestamps := entry.timestamps.filter fun t => cutoff < t
        if timestamps.isEmpty then none else some ⟨timestamps⟩ }

end RateLimiter

/-! ## The three limiters of the gate -/

structure GateRateLimitResult where
  allowed : Bool
  limitedBy : String
  result : RateLimitResult

structure GateRateLimiter where
  didLimiter : RateLimiter
  tenantLimiter : RateLimiter
  ipLimiter : RateLimiter

/-- The arguments of a check, and what the clock shows to each limiter that is asked. -/
structure GateCheck where
  ip : String
  tenant : Option String
  did : Option String
  ipNow : Instant
  tenantNow : Instant
  didNow : Instant

namespace GateRateLimiter

def withConfig (didConfig tenantConfig ipConfig : RateLimitConfig) : GateRateLimiter :=
  ⟨.new didConfig, .new tenantConfig, .new ipConfig⟩

def new : GateRateLimiter := withConfig defaultDidLimit defaultTenantLimit defaultIpLimit

variable (earliest : Instant)

/-- Step 3 of `check`. -/
def checkDid (c : GateCheck) (ipResult : RateLimitResult) (gate : GateRateLimiter) :
    Option GateRateLimitResult × GateRateLimiter :=
  match c.did with
  | none => (some ⟨true, "", ipResult⟩, gate)
  | some d =>
    let checked := gate.didLimiter.check earliest c.didNow d
    let gate := { gate with didLimiter := checked.2 }
    match checked.1 with
    | none => (none, gate)
    | some didResult =>
      if didResult.isLimited then (some ⟨false, "did", didResult⟩, gate)
      else (some ⟨true, "", ipResult⟩, gate)

/-- Step 2 of `check`. -/
def checkTenant (c : GateCheck) (ipResult : RateLimitResult) (gate : GateRateLimiter) :
    Option GateRateLimitResult × GateRateLimiter :=
  match c.tenant with
  | none => gate.checkDid earliest c ipResult
  | some t =>
    let checked := gate.tenantLimiter.check earliest c.tenantNow t
    let gate := { gate with tenantLimiter := checked.2 }
    match checked.1 with
    | none => (none, gate)
    | some tenantResult =>
      if tenantResult.isLimited then (some ⟨false, "tenant", tenantResult⟩, gate)
      else gate.checkDid earliest c ipResult

def check (c : GateCheck) (gate : GateRateLimiter) :
    Option GateRateLimitResult × GateRateLimiter :=
  let checked := gate.ipLimiter.check earliest c.ipNow c.ip
  let gate := { gate with ipLimiter := checked.2 }
  match checked.1 with
  | none => (none, gate)
  | some ipResult =>
    if ipResult.isLimited then (some ⟨false, "ip", ipResult⟩, gate)
    else gate.checkTenant earliest c ipResult

end GateRateLimiter

/-! ## What a check does -/

/-- The window before `now` is one the platform can show, and some request is allowed in it. -/
def RateLimitConfig.Fits (config : RateLimitConfig) (earliest now : Instant) : Prop :=
  1 ≤ config.maxRequests ∧ earliest ≤ now - config.window

/-- The answer, from the times that are less than a window old. -/
def RateLimitConfig.verdict (config : RateLimitConfig) (now : Instant) (counting : List Instant) :
    RateLimitResult :=
  if counting.length < config.maxRequests.toNat then
    .allowed config.maxRequests (config.maxRequests - UInt32.ofNat counting.length - 1)
  else .limited config.maxRequests 0 (config.window - durationSince now (counting.headD now))

namespace WindowEntry

variable {earliest now : Instant} {config : RateLimitConfig} {entry : WindowEntry}

/-- The times that are less than a window old. -/
def counting (entry : WindowEntry) (config : RateLimitConfig) (now : Instant) : List Instant :=
  SlidingLog.recent (config.window : ℤ) now entry.timestamps

theorem checkAndRecord_unfit (h : ¬ earliest ≤ now - config.window) :
    checkAndRecord earliest now config entry = (none, entry) := by
  rw [checkAndRecord, instantSub, if_neg h]

theorem checkAndRecord_of_instant (h : earliest ≤ now - config.window) :
    checkAndRecord earliest now config entry =
      if config.maxRequests ≤ UInt32.ofNat (entry.counting config now).length then
        ((entry.counting config now).head?.bind fun oldest =>
          (durationSub config.window (durationSince now oldest)).bind fun retryAfter =>
            some (.limited config.maxRequests 0 retryAfter), ⟨entry.counting config now⟩)
      else
        ((u32Sub config.maxRequests (UInt32.ofNat (entry.counting config now).length)).bind
          fun rest => (u32Sub rest 1).bind fun remaining =>
            some (.allowed config.maxRequests remaining), ⟨entry.counting config now ++ [now]⟩) := by
  rw [checkAndRecord, instantSub, if_pos h]
  rfl

/-- The times are counted in 32 bits, and are not more than these hold. -/
theorem maxRequests_le_current (h : (entry.counting config now).length ≤ config.maxRequests.toNat) :
    config.maxRequests ≤ UInt32.ofNat (entry.counting config now).length ↔
      ¬ (entry.counting config now).length < config.maxRequests.toNat := by
  rw [UInt32.le_iff_toNat_le,
    UInt32.toNat_ofNat_of_lt' (h.trans_lt config.maxRequests.toNat_lt), Nat.not_lt]

theorem maxRequests_eq_zero (h : ¬ 1 ≤ config.maxRequests) : config.maxRequests.toNat = 0 :=
  Nat.lt_one_iff.mp (Nat.lt_of_not_le (UInt32.le_iff_toNat_le.not.mp h))

/-- No time is left to index. -/
theorem checkAndRecord_zero (h : earliest ≤ now - config.window)
    (hempty : entry.counting config now = []) (hmax : ¬ 1 ≤ config.maxRequests) :
    checkAndRecord earliest now config entry = (none, ⟨[]⟩) := by
  have hle : config.maxRequests ≤ UInt32.ofNat (entry.counting config now).length := by
    rw [UInt32.le_iff_toNat_le, maxRequests_eq_zero hmax]
    exact Nat.zero_le _
  rw [checkAndRecord_of_instant h, if_pos hle, hempty]
  rfl

/-- With a request to allow and a window to look at, a check answers by what counts. -/
theorem checkAndRecord_eq (hfits : config.Fits earliest now)
    (hlen : (entry.counting config now).length ≤ config.maxRequests.toNat) :
    checkAndRecord earliest now config entry =
      (some (config.verdict now (entry.counting config now)),
        ⟨if (entry.counting config now).length < config.maxRequests.toNat then
          entry.counting config now ++ [now] else entry.counting config now⟩) := by
  have hiff := maxRequests_le_current hlen
  have hcurrent := UInt32.toNat_ofNat_of_lt' (hlen.trans_lt config.maxRequests.toNat_lt)
  rw [checkAndRecord_of_instant hfits.2, RateLimitConfig.verdict]
  by_cases hlt : (entry.counting config now).length < config.maxRequests.toNat
  · rw [if_neg fun h => hiff.mp h hlt, if_pos hlt, if_pos hlt]
    -- one request is left for this one
    have hle : UInt32.ofNat (entry.counting config now).length ≤ config.maxRequests := by
      rw [UInt32.le_iff_toNat_le, hcurrent]
      exact hlen
    have hone : 1 ≤ config.maxRequests - UInt32.ofNat (entry.counting config now).length := by
      rw [UInt32.le_iff_toNat_le, UInt32.toNat_sub_of_le _ _ hle, hcurrent]
      exact Nat.sub_pos_of_lt hlt
    rw [u32Sub, if_pos hle, Option.bind_some, u32Sub, if_pos hone, Option.bind_some]
  · rw [if_pos (hiff.mpr hlt), if_neg hlt, if_neg hlt]
    have hmax : 1 ≤ config.maxRequests.toNat := UInt32.le_iff_toNat_le.mp hfits.1
    obtain ⟨oldest, rest, hcounting⟩ :=
      List.exists_cons_of_length_pos (hmax.trans (Nat.le_of_not_lt hlt))
    have holdest : now - config.window < oldest :=
      (SlidingLog.mem_recent.mp (hcounting ▸ List.mem_cons_self :
        oldest ∈ entry.counting config now)).2
    have hyoung : durationSince now oldest ≤ config.window :=
      Int.toNat_le.mpr (sub_le_comm.mp holdest.le)
    rw [hcounting, List.head?_cons, Option.bind_some, durationSub, if_pos hyoung, Option.bind_some,
      List.headD_cons]

theorem length_counting_le (entry : WindowEntry) (config : RateLimitConfig) (now : Instant) :
    (entry.counting config now).length ≤ entry.timestamps.length :=
  SlidingLog.length_recent_le ..

theorem isSome_checkAndRecord (h : entry.timestamps.length ≤ config.maxRequests.toNat) :
    (checkAndRecord earliest now config entry).1.isSome ↔ config.Fits earliest now := by
  have hlen := (length_counting_le entry config now).trans h
  by_cases hnow : earliest ≤ now - config.window
  · by_cases hmax : 1 ≤ config.maxRequests
    · rw [checkAndRecord_eq ⟨hmax, hnow⟩ hlen]
      exact iff_of_true rfl ⟨hmax, hnow⟩
    · have hempty : entry.counting config now = [] :=
        List.eq_nil_of_length_eq_zero (Nat.le_zero.mp (maxRequests_eq_zero hmax ▸ hlen))
      rw [checkAndRecord_zero hnow hempty hmax]
      exact iff_of_false nofun fun hfits => hmax hfits.1
  · rw [checkAndRecord_unfit hnow]
    exact iff_of_false nofun fun hfits => hnow hfits.2

theorem length_checkAndRecord (h : entry.timestamps.length ≤ config.maxRequests.toNat) :
    (checkAndRecord earliest now config entry).2.timestamps.length ≤ config.maxRequests.toNat := by
  have hlen := (length_counting_le entry config now).trans h
  by_cases hnow : earliest ≤ now - config.window
  · rw [checkAndRecord_of_instant hnow]
    split_ifs with hfull
    · exact hlen
    · rw [List.length_append]
      exact Nat.not_le.mp fun hle => hfull ((maxRequests_le_current hlen).mpr (Nat.not_lt.mpr hle))
  · rwa [checkAndRecord_unfit hnow]

/-- A key that could be checked again is one that would be allowed. -/
theorem remaining_eq_zero_iff (hfits : config.Fits earliest now)
    (h : entry.timestamps.length ≤ config.maxRequests.toNat) :
    entry.remaining earliest now config = some 0 ↔
      (config.verdict now (entry.counting config now)).isLimited := by
  have hlen := (length_counting_le entry config now).trans h
  have hcurrent := UInt32.toNat_ofNat_of_lt' (hlen.trans_lt config.maxRequests.toNat_lt)
  have hle : UInt32.ofNat (entry.counting config now).length ≤ config.maxRequests := by
    rw [UInt32.le_iff_toNat_le, hcurrent]
    exact hlen
  have hremaining : entry.remaining earliest now config =
      some (config.maxRequests - UInt32.ofNat (entry.counting config now).length) := by
    rw [remaining, instantSub, if_pos hfits.2]
    exact congrArg some (if_pos hle)
  rw [hremaining, Option.some.injEq, ← UInt32.toNat_inj, UInt32.toNat_sub_of_le _ _ hle, hcurrent,
    RateLimitConfig.verdict]
  split_ifs with hlt
  · exact iff_of_false (Nat.sub_pos_of_lt hlt).ne' nofun
  · exact iff_of_true (Nat.sub_eq_zero_of_le (Nat.le_of_not_lt hlt)) rfl

end WindowEntry

/-! ## Runs -/

inductive LimiterOp where
  | check (key : String)
  | prune

/-- A call, and what the clock shows to it. -/
structure LimiterCall where
  now : Instant
  op : LimiterOp

structure Answer where
  now : Instant
  key : String
  result : Option RateLimitResult

namespace RateLimiter

section

variable (earliest : Instant)

def step (limiter : RateLimiter) (call : LimiterCall) : RateLimiter :=
  match call.op with
  | .check key => (limiter.check earliest call.now key).2
  | .prune => limiter.prune earliest call.now

/-- The checks among the calls, with what each returns. -/
def answers (limiter : RateLimiter) : List LimiterCall → List Answer
  | [] => []
  | ⟨now, .check key⟩ :: calls =>
    ⟨now, key, (limiter.check earliest now key).1⟩ ::
      answers (limiter.check earliest now key).2 calls
  | ⟨now, .prune⟩ :: calls => answers (limiter.prune earliest now) calls

end

variable {earliest now : Instant} {limiter : RateLimiter} {key key' : String}

@[simp] theorem config_prune : (limiter.prune earliest now).config = limiter.config := by
  unfold prune
  split <;> rfl

theorem entry_check : (limiter.check earliest now key).2.entry key' =
    if key' = key then ((limiter.entry key).checkAndRecord earliest now limiter.config).2
    else limiter.entry key' := by
  rw [check, entry, KeyTree.get_insert]
  split_ifs <;> rfl

theorem entry_prune : (limiter.prune earliest now).entry key =
    if earliest ≤ now - limiter.config.window then
      ⟨(limiter.entry key).counting limiter.config now⟩ else limiter.entry key := by
  unfold prune instantSub
  split_ifs with h
  · rw [entry, KeyTree.get_filterMap, entry]
    cases limiter.entries.get key with
    | none => rfl
    | some e =>
      rw [Option.bind_some, Option.getD_some]
      change (if (e.counting limiter.config now).isEmpty then none
        else some ⟨e.counting limiter.config now⟩).getD WindowEntry.new = _
      split_ifs with hempty
      · exact congrArg WindowEntry.mk (List.isEmpty_iff.mp hempty).symm
      · rfl
  · rfl

/-- No key has more times than it may have requests. -/
def Bounded (limiter : RateLimiter) : Prop :=
  ∀ key, (limiter.entry key).timestamps.length ≤ limiter.config.maxRequests.toNat

theorem bounded_new (config : RateLimitConfig) : (new config).Bounded := fun _ => Nat.zero_le _

theorem Bounded.check (h : limiter.Bounded) : (limiter.check earliest now key).2.Bounded := by
  intro key'
  rw [entry_check]
  split_ifs
  · exact WindowEntry.length_checkAndRecord (h key)
  · exact h key'

theorem Bounded.prune (h : limiter.Bounded) : (limiter.prune earliest now).Bounded := by
  intro key
  rw [entry_prune, config_prune]
  split_ifs
  · exact (WindowEntry.length_counting_le ..).trans (h key)
  · exact h key

theorem Bounded.isSome_check (h : limiter.Bounded) (key : String) :
    (limiter.check earliest now key).1.isSome ↔ limiter.config.Fits earliest now :=
  WindowEntry.isSome_checkAndRecord (h key)

theorem Bounded.isSome_answers (h : limiter.Bounded) (calls : List LimiterCall) :
    ∀ a ∈ answers earliest limiter calls,
      a.result.isSome ↔ limiter.config.Fits earliest a.now := by
  fun_induction answers earliest limiter calls with
  | case1 => exact fun _ ha => absurd ha List.not_mem_nil
  | case2 limiter now key calls ih =>
    intro a ha
    rcases List.mem_cons.mp ha with rfl | ha
    · exact h.isSome_check key
    · exact ih h.check a ha
  | case3 limiter now calls ih =>
    have hconfig : (limiter.prune earliest now).config = limiter.config := config_prune
    exact hconfig ▸ ih h.prune

theorem Bounded.check_eq (h : limiter.Bounded) (hfits : limiter.config.Fits earliest now) :
    (limiter.check earliest now key).1 =
      some (limiter.config.verdict now ((limiter.entry key).counting limiter.config now)) :=
  congrArg Prod.fst (WindowEntry.checkAndRecord_eq hfits
    ((WindowEntry.length_counting_le ..).trans (h key)))

/-- A check is limited when nothing remains. -/
theorem Bounded.remaining_eq_zero_iff (h : limiter.Bounded)
    (hfits : limiter.config.Fits earliest now) :
    limiter.remaining earliest now key = some 0 ↔
      (limiter.config.verdict now ((limiter.entry key).counting limiter.config now)).isLimited := by
  refine Iff.trans (Eq.congr_left ?_) (WindowEntry.remaining_eq_zero_iff hfits (h key))
  unfold remaining entry
  cases limiter.entries.get key with
  | none =>
    rw [Option.getD_none, WindowEntry.remaining, instantSub, if_pos hfits.2]
    exact congrArg some (UInt32.sub_zero _).symm
  | some e => rfl

end RateLimiter

namespace GateRateLimiter

variable {earliest : Instant} {gate : GateRateLimiter}

structure Bounded (gate : GateRateLimiter) : Prop where
  did : gate.didLimiter.Bounded
  tenant : gate.tenantLimiter.Bounded
  ip : gate.ipLimiter.Bounded

/-- The limiters that are asked fit: the tenant's if the address has requests left, the identity's
if the tenant has, too. -/
def Fits (gate : GateRateLimiter) (earliest : Instant) (c : GateCheck) : Prop :=
  gate.ipLimiter.config.Fits earliest c.ipNow ∧
    (gate.ipLimiter.remaining earliest c.ipNow c.ip ≠ some 0 →
      (∀ t ∈ c.tenant, gate.tenantLimiter.config.Fits earliest c.tenantNow) ∧
      ((∀ t ∈ c.tenant, gate.tenantLimiter.remaining earliest c.tenantNow t ≠ some 0) →
        ∀ d ∈ c.did, gate.didLimiter.config.Fits earliest c.didNow))

theorem Bounded.checkDid (h : gate.Bounded) (c : GateCheck) (ipResult : RateLimitResult) :
    (gate.checkDid earliest c ipResult).2.Bounded := by
  unfold GateRateLimiter.checkDid
  cases c.did with
  | none => exact h
  | some d =>
    have hdid : (gate.didLimiter.check earliest c.didNow d).2.Bounded := h.did.check
    dsimp only
    split
    · exact ⟨hdid, h.tenant, h.ip⟩
    · split <;> exact ⟨hdid, h.tenant, h.ip⟩

theorem Bounded.checkTenant (h : gate.Bounded) (c : GateCheck) (ipResult : RateLimitResult) :
    (gate.checkTenant earliest c ipResult).2.Bounded := by
  unfold GateRateLimiter.checkTenant
  cases c.tenant with
  | none => exact h.checkDid c ipResult
  | some t =>
    have htenant : Bounded { gate with
        tenantLimiter := (gate.tenantLimiter.check earliest c.tenantNow t).2 } :=
      ⟨h.did, h.tenant.check, h.ip⟩
    dsimp only
    split
    · exact htenant
    · split
      · exact htenant
      · exact htenant.checkDid c ipResult

theorem Bounded.check (h : gate.Bounded) (c : GateCheck) : (gate.check earliest c).2.Bounded := by
  have hip : Bounded { gate with ipLimiter := (gate.ipLimiter.check earliest c.ipNow c.ip).2 } :=
    ⟨h.did, h.tenant, h.ip.check⟩
  unfold GateRateLimiter.check
  dsimp only
  split
  · exact hip
  · split
    · exact hip
    · exact hip.checkTenant c _

theorem Bounded.isSome_checkDid (h : gate.Bounded) (c : GateCheck) (ipResult : RateLimitResult) :
    (gate.checkDid earliest c ipResult).1.isSome ↔
      ∀ d ∈ c.did, gate.didLimiter.config.Fits earliest c.didNow := by
  unfold GateRateLimiter.checkDid
  cases c.did with
  | none => exact iff_of_true rfl nofun
  | some d =>
    simp only [Option.mem_some_iff, forall_eq']
    rw [← h.did.isSome_check d]
    split
    · rename_i hnone
      rw [hnone]
      exact Iff.rfl
    · rename_i didResult hsome
      rw [hsome]
      split <;> exact Iff.rfl

theorem Bounded.isSome_checkTenant (h : gate.Bounded) (c : GateCheck)
    (ipResult : RateLimitResult) :
    (gate.checkTenant earliest c ipResult).1.isSome ↔
      (∀ t ∈ c.tenant, gate.tenantLimiter.config.Fits earliest c.tenantNow) ∧
      ((∀ t ∈ c.tenant, gate.tenantLimiter.remaining earliest c.tenantNow t ≠ some 0) →
        ∀ d ∈ c.did, gate.didLimiter.config.Fits earliest c.didNow) := by
  unfold GateRateLimiter.checkTenant
  cases c.tenant with
  | none =>
    refine (h.isSome_checkDid c ipResult).trans ?_
    simp
  | some t =>
    have htenant : Bounded { gate with
        tenantLimiter := (gate.tenantLimiter.check earliest c.tenantNow t).2 } :=
      ⟨h.did, h.tenant.check, h.ip⟩
    simp only [Option.mem_some_iff, forall_eq']
    by_cases hfits : gate.tenantLimiter.config.Fits earliest c.tenantNow
    · rw [h.tenant.check_eq hfits, ne_eq, h.tenant.remaining_eq_zero_iff hfits]
      dsimp only
      split_ifs with hlimited
      · exact iff_of_true rfl ⟨hfits, fun hnot => absurd hlimited hnot⟩
      · rw [htenant.isSome_checkDid c ipResult]
        exact ⟨fun hdid => ⟨hfits, fun _ => hdid⟩, fun hboth => hboth.2 hlimited⟩
    · have hnone : (gate.tenantLimiter.check earliest c.tenantNow t).1 = none :=
        Option.not_isSome_iff_eq_none.mp ((h.tenant.isSome_check t).not.mpr hfits)
      rw [hnone]
      exact iff_of_false nofun fun hboth => hfits hboth.1

theorem Bounded.isSome_check (h : gate.Bounded) (c : GateCheck) :
    (gate.check earliest c).1.isSome ↔ gate.Fits earliest c := by
  have hip : Bounded { gate with ipLimiter := (gate.ipLimiter.check earliest c.ipNow c.ip).2 } :=
    ⟨h.did, h.tenant, h.ip.check⟩
  unfold GateRateLimiter.check GateRateLimiter.Fits
  dsimp only
  by_cases hfits : gate.ipLimiter.config.Fits earliest c.ipNow
  · rw [h.ip.check_eq hfits, ne_eq, h.ip.remaining_eq_zero_iff hfits]
    dsimp only
    split_ifs with hlimited
    · exact iff_of_true rfl ⟨hfits, fun hnot => absurd hlimited hnot⟩
    · rw [hip.isSome_checkTenant c _]
      exact ⟨fun hrest => ⟨hfits, fun _ => hrest⟩, fun hboth => hboth.2 hlimited⟩
  · have hnone : (gate.ipLimiter.check earliest c.ipNow c.ip).1 = none :=
      Option.not_isSome_iff_eq_none.mp ((h.ip.isSome_check c.ip).not.mpr hfits)
    rw [hnone]
    exact iff_of_false nofun fun hboth => hfits hboth.1

/-- The limiters after a history of checks. -/
def run (earliest : Instant) (gate : GateRateLimiter) (checks : List GateCheck) :
    GateRateLimiter := checks.foldl (fun gate c => (gate.check earliest c).2) gate

theorem Bounded.run (h : gate.Bounded) (checks : List GateCheck) :
    (gate.run earliest checks).Bounded := by
  induction checks generalizing gate with
  | nil => exact h
  | cons c checks ih => exact ih (h.check c)

end GateRateLimiter

/-- A check returns just when the limiters it asks fit, whatever was checked and pruned before. -/
theorem check_returns_iff (earliest : Instant) :
    (∀ (config : RateLimitConfig) (calls : List LimiterCall),
      ∀ a ∈ RateLimiter.answers earliest (.new config) calls,
        a.result.isSome ↔ config.Fits earliest a.now) ∧
    ∀ (didConfig tenantConfig ipConfig : RateLimitConfig) (checks : List GateCheck) (c : GateCheck),
      let gate := (GateRateLimiter.withConfig didConfig tenantConfig ipConfig).run earliest checks
      (gate.check earliest c).1.isSome ↔ gate.Fits earliest c := by
  constructor
  · exact fun config calls => (RateLimiter.bounded_new config).isSome_answers calls
  · intro didConfig tenantConfig ipConfig checks c gate
    have hnew : (GateRateLimiter.withConfig didConfig tenantConfig ipConfig).Bounded :=
      ⟨RateLimiter.bounded_new _, RateLimiter.bounded_new _, RateLimiter.bounded_new _⟩
    exact (hnew.run checks).isSome_check c

/-- Where no request is allowed, the first one panics, on any platform. -/
theorem check_panics : ¬ ∃ earliest : Instant, ∀ (config : RateLimitConfig)
    (calls : List LimiterCall), (calls.Pairwise fun a b => a.now ≤ b.now) →
      ∀ a ∈ RateLimiter.answers earliest (.new config) calls, a.result.isSome := by
  rintro ⟨earliest, h⟩
  have hsome := h (.perMinute 0) [⟨1_000_000_000, .check "key1"⟩] (List.pairwise_singleton ..) _
    List.mem_cons_self
  have hfits := ((RateLimiter.bounded_new (.perMinute 0)).isSome_check "key1").mp hsome
  exact absurd hfits.1 (by decide)

end Ubl.Gate
