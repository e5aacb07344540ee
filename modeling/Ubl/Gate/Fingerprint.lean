import Ubl.Chipstore.Store
import Ubl.Gate.Window
import Ubl.Receipt.Tamper

/-!
# `CanonRateLimiter`: a limit on what a chip means

A chip is counted under the key `@type|@ver|@world|hash` of its canonical bytes.  A world may hold a
bar, but the hash may not, and the anchors are part of what is hashed: of chips that have bytes

    rateKey fp = rateKey fp'  ↔  Json.Eqv body body'                        (rateKey_eq_iff)

So a chip cannot be sent more often in another spelling, and does not count against a chip that says
something else (`canon_limiter_by_meaning`).
-/

namespace Ubl.Gate

open Chipstore (strField)
open Nrf (Eqv JsonFits toNrf1Bytes)
open Receipt (Crypto)
open SlidingLog

/-! ## Fingerprints -/

structure CanonFingerprint where
  hash : String
  atType : String
  atVer : String
  atWorld : String

namespace CanonFingerprint

def fromChipBody (c : Crypto) (body : Json) : Option CanonFingerprint :=
  match toNrf1Bytes c.text body with
  | .error _ => none
  | .ok nrf => some ⟨Hex.encode (c.blake3 nrf), (strField body "@type").getD "",
      (strField body "@ver").getD "", (strField body "@world").getD ""⟩

def rateKey (fp : CanonFingerprint) : String :=
  fp.atType ++ "|" ++ fp.atVer ++ "|" ++ fp.atWorld ++ "|" ++ fp.hash

end CanonFingerprint

section Keys

variable {c : Crypto} {body body' : Json} {fp fp' : CanonFingerprint}

/-- Chips that mean the same have the same texts in their members. -/
theorem strField_of_eqv (h : Eqv body body') (field : String) :
    strField body field = strField body' field := by
  cases h with
  | object ms ns hkeys hvalues =>
    have hnull (members : List (String × Json)) :
        strField (.object members) field = (Nrf.present members field).bind Json.asStr := by
      rw [strField, Json.get, Nrf.present]
      cases members.lookup field with
      | none => rfl
      | some v => cases v <;> rfl
    rw [hnull, hnull]
    cases hm : Nrf.present ms field with
    | none =>
      have hn := hkeys field
      rw [hm, Option.isSome_none, eq_comm, Option.isSome_eq_false_iff,
        Option.isNone_iff_eq_none] at hn
      rw [hn]
    | some u =>
      have hn := hkeys field
      rw [hm] at hn
      obtain ⟨v, hv⟩ := Option.isSome_iff_exists.mp hn.symm
      rw [hv, Option.bind_some, Option.bind_some]
      cases hvalues field u v hm hv <;> rfl
  | _ => rfl

theorem bar_not_mem_encode (bytes : List UInt8) : '|' ∉ (Hex.encode bytes).toList := by
  intro h
  obtain ⟨n, hn, hbar⟩ := Hex.mem_encode h
  have hdigits : ∀ n < 16, '|' ≠ Hex.digit n := by decide
  exact hdigits n hn hbar

/-- A fingerprint is the hash of the bytes, and the anchors. -/
theorem fromChipBody_eq_some : CanonFingerprint.fromChipBody c body = some fp ↔
    ∃ nrf, toNrf1Bytes c.text body = .ok nrf ∧ fp = ⟨Hex.encode (c.blake3 nrf),
      (strField body "@type").getD "", (strField body "@ver").getD "",
      (strField body "@world").getD ""⟩ := by
  unfold CanonFingerprint.fromChipBody
  cases toNrf1Bytes c.text body with
  | error e => simp
  | ok nrf => simp [eq_comm]

theorem toList_rateKey (fp : CanonFingerprint) : fp.rateKey.toList =
    (fp.atType ++ "|" ++ fp.atVer ++ "|" ++ fp.atWorld).toList ++ '|' :: fp.hash.toList := by
  rw [CanonFingerprint.rateKey, String.toList_append, String.toList_append, List.append_assoc]
  rfl

/-- The hash is what comes after the last bar. -/
theorem hash_eq_of_rateKey (hfp : CanonFingerprint.fromChipBody c body = some fp)
    (hfp' : CanonFingerprint.fromChipBody c body' = some fp') (h : fp.rateKey = fp'.rateKey) :
    fp.hash = fp'.hash := by
  obtain ⟨nrf, -, rfl⟩ := fromChipBody_eq_some.mp hfp
  obtain ⟨nrf', -, rfl⟩ := fromChipBody_eq_some.mp hfp'
  have hlist := congrArg String.toList h
  rw [toList_rateKey, toList_rateKey] at hlist
  exact String.toList_injective
    (KeyTree.split_last (bar_not_mem_encode _) (bar_not_mem_encode _) hlist).2

/-- Chips are counted together just when they mean the same. -/
theorem rateKey_eq_iff (hhash : Function.Injective c.blake3) (hd : body.DistinctKeys)
    (hd' : body'.DistinctKeys) (hf : JsonFits body) (hf' : JsonFits body')
    (hfp : CanonFingerprint.fromChipBody c body = some fp)
    (hfp' : CanonFingerprint.fromChipBody c body' = some fp') :
    fp.rateKey = fp'.rateKey ↔ Eqv body body' := by
  constructor
  · intro h
    have hash := hash_eq_of_rateKey hfp hfp' h
    obtain ⟨nrf, hnrf, rfl⟩ := fromChipBody_eq_some.mp hfp
    obtain ⟨nrf', hnrf', rfl⟩ := fromChipBody_eq_some.mp hfp'
    obtain rfl := hhash (Hex.encode_injective hash)
    exact Nrf.eqv_of_toNrf1Bytes hd hd' hf hf' hnrf hnrf'
  · intro h
    obtain ⟨nrf, hnrf, rfl⟩ := fromChipBody_eq_some.mp hfp
    obtain ⟨nrf', hnrf', rfl⟩ := fromChipBody_eq_some.mp hfp'
    obtain rfl := Nrf.toNrf1Bytes_congr hd hd' h hnrf hnrf'
    rw [strField_of_eqv h, strField_of_eqv h, strField_of_eqv h]

end Keys

/-! ## The limiter -/

inductive CanonOp where
  | checkBody (body : Json)
  | prune

structure CanonCall where
  now : Instant
  op : CanonOp

/-- The outer `none` is a body without bytes; the inner one is a panic. -/
structure CanonAnswer where
  now : Instant
  body : Json
  result : Option (CanonFingerprint × Option RateLimitResult)

section Limiter

variable (c : Crypto) (earliest : Instant)

def checkBody (now : Instant) (body : Json) (limiter : RateLimiter) :
    Option (CanonFingerprint × Option RateLimitResult) × RateLimiter :=
  match CanonFingerprint.fromChipBody c body with
  | none => (none, limiter)
  | some fp =>
    let (result, limiter) := limiter.check earliest now fp.rateKey
    (some (fp, result), limiter)

/-- The answers in a run. -/
def canonAnswers (limiter : RateLimiter) : List CanonCall → List CanonAnswer
  | [] => []
  | ⟨now, .checkBody body⟩ :: calls =>
    ⟨now, body, (checkBody c earliest now body limiter).1⟩ ::
      canonAnswers (checkBody c earliest now body limiter).2 calls
  | ⟨now, .prune⟩ :: calls => canonAnswers (limiter.prune earliest now) calls

/-- What a call asks of the limiter below. -/
def CanonCall.below : CanonCall → Option LimiterCall
  | ⟨now, .checkBody body⟩ =>
    (CanonFingerprint.fromChipBody c body).map fun fp => ⟨now, .check fp.rateKey⟩
  | ⟨now, .prune⟩ => some ⟨now, .prune⟩

end Limiter

def CanonAnswer.isAllowed (a : CanonAnswer) : Bool :=
  a.result.any fun r => r.2.any RateLimitResult.isAllowed

/-- What the limiter below answered. -/
def CanonAnswer.below (a : CanonAnswer) : Option Answer :=
  a.result.map fun r => ⟨a.now, r.1.rateKey, r.2⟩

section Runs

variable {c : Crypto} {earliest : Instant} {limiter : RateLimiter}

theorem checkBody_of_none {body : Json} {now : Instant}
    (h : CanonFingerprint.fromChipBody c body = none) :
    checkBody c earliest now body limiter = (none, limiter) := by
  rw [checkBody, h]

theorem checkBody_of_some {body : Json} {now : Instant} {fp : CanonFingerprint}
    (h : CanonFingerprint.fromChipBody c body = some fp) :
    checkBody c earliest now body limiter =
      (some (fp, (limiter.check earliest now fp.rateKey).1),
        (limiter.check earliest now fp.rateKey).2) := by
  rw [checkBody, h]

theorem filterMap_canonAnswers (calls : List CanonCall) (limiter : RateLimiter) :
    (canonAnswers c earliest limiter calls).filterMap CanonAnswer.below =
      limiter.answers earliest (calls.filterMap (CanonCall.below c)) := by
  induction calls generalizing limiter with
  | nil => rfl
  | cons call calls ih =>
    obtain ⟨now, body | _⟩ := call
    · cases hfp : CanonFingerprint.fromChipBody c body with
      | none =>
        have hcall : CanonCall.below c ⟨now, .checkBody body⟩ = none := by
          rw [CanonCall.below, hfp, Option.map_none]
        have hanswer : CanonAnswer.below ⟨now, body, none⟩ = none := rfl
        rw [canonAnswers, checkBody_of_none hfp, List.filterMap_cons_none hanswer, ih,
          List.filterMap_cons_none hcall]
      | some fp =>
        have hcall : CanonCall.below c ⟨now, .checkBody body⟩ = some ⟨now, .check fp.rateKey⟩ := by
          rw [CanonCall.below, hfp, Option.map_some]
        have hanswer (r : Option RateLimitResult) :
            CanonAnswer.below ⟨now, body, some (fp, r)⟩ = some ⟨now, fp.rateKey, r⟩ := rfl
        rw [canonAnswers, checkBody_of_some hfp, List.filterMap_cons_some (hanswer _), ih,
          List.filterMap_cons_some hcall, RateLimiter.answers]
    · have hcall : CanonCall.below c ⟨now, .prune⟩ = some ⟨now, .prune⟩ := rfl
      rw [canonAnswers, ih, List.filterMap_cons_some hcall, RateLimiter.answers]

/-- What is answered for a body is under its own fingerprint. -/
theorem fromChipBody_of_mem {calls : List CanonCall} {a : CanonAnswer}
    {r : CanonFingerprint × Option RateLimitResult}
    (ha : a ∈ canonAnswers c earliest limiter calls) (hr : a.result = some r) :
    CanonFingerprint.fromChipBody c a.body = some r.1 ∧
      ⟨a.now, .checkBody a.body⟩ ∈ calls := by
  induction calls generalizing limiter with
  | nil => cases ha
  | cons call calls ih =>
    obtain ⟨now, body | _⟩ := call
    · rcases List.mem_cons.mp ha with rfl | ha
      · refine ⟨?_, List.mem_cons_self⟩
        dsimp only at hr ⊢
        cases hfp : CanonFingerprint.fromChipBody c body with
        | none =>
          rw [checkBody_of_none hfp] at hr
          cases hr
        | some fp =>
          rw [checkBody_of_some hfp] at hr
          rw [← Option.some.inj hr]
      · exact (ih ha).imp_right (List.mem_cons_of_mem _)
    · exact (ih ha).imp_right (List.mem_cons_of_mem _)

/-- The keys are distinct, and no length is too long for its header. -/
def Sound (body : Json) : Prop := body.DistinctKeys ∧ JsonFits body

/-- The times at which a chip that means this was allowed. -/
theorem allowedTimes_eq {key : String} (same : Json → Bool) {answers : List CanonAnswer}
    (h : ∀ a ∈ answers, ∀ r, a.result = some r → (r.1.rateKey = key ↔ same a.body)) :
    (answers.filter fun a => a.isAllowed && same a.body).map CanonAnswer.now =
      allowedTimes key (answers.filterMap CanonAnswer.below) := by
  induction answers with
  | nil => rfl
  | cons a answers ih =>
    have ih := ih fun b hb => h b (List.mem_cons_of_mem _ hb)
    obtain ⟨now, body, _ | ⟨fp, result⟩⟩ := a
    · have hbelow : CanonAnswer.below ⟨now, body, none⟩ = none := rfl
      rw [List.filter_cons_of_neg (by simp [CanonAnswer.isAllowed]),
        List.filterMap_cons_none hbelow, ih]
    · have hbelow : CanonAnswer.below ⟨now, body, some (fp, result)⟩ =
          some ⟨now, fp.rateKey, result⟩ := rfl
      have hkey := h _ List.mem_cons_self _ rfl
      have hiff : (CanonAnswer.isAllowed ⟨now, body, some (fp, result)⟩ && same body) =
          (Answer.isAllowed ⟨now, fp.rateKey, result⟩ && decide (fp.rateKey = key)) :=
        congrArg₂ and rfl (Bool.eq_iff_iff.mpr (hkey.symm.trans decide_eq_true_iff.symm))
      rw [List.filterMap_cons_some hbelow, allowedTimes, List.filter_cons, List.filter_cons]
      dsimp only
      rw [hiff]
      split_ifs
      · rw [List.map_cons, List.map_cons, ih, allowedTimes]
      · exact ih

theorem entry_checkBody_of_ne {body : Json} {now : Instant} {key : String}
    (h : ∀ fp, CanonFingerprint.fromChipBody c body = some fp → fp.rateKey ≠ key) :
    (checkBody c earliest now body limiter).2.entry key = limiter.entry key := by
  cases hfp : CanonFingerprint.fromChipBody c body with
  | none => rw [checkBody_of_none hfp]
  | some fp => rw [checkBody_of_some hfp, RateLimiter.entry_check, if_neg (h fp hfp).symm]

theorem config_checkBody (body : Json) (now : Instant) :
    (checkBody c earliest now body limiter).2.config = limiter.config := by
  cases hfp : CanonFingerprint.fromChipBody c body with
  | none => rw [checkBody_of_none hfp]
  | some fp => rw [checkBody_of_some hfp, RateLimiter.check]

/-- The call prunes, or checks one of these bodies. -/
def CanonCall.concerns (same : Json → Bool) : CanonCall → Bool
  | ⟨_, .checkBody body⟩ => same body
  | ⟨_, .prune⟩ => true

/-- The entry of a key is all that matters to its chips. -/
theorem filter_canonAnswers {key : String} (same : Json → Bool) {calls : List CanonCall}
    (h : ∀ now body, ⟨now, .checkBody body⟩ ∈ calls → ∀ fp,
      CanonFingerprint.fromChipBody c body = some fp → (fp.rateKey = key ↔ same body))
    {limiter' : RateLimiter} (hconfig : limiter.config = limiter'.config)
    (hentry : limiter.entry key = limiter'.entry key) :
    (canonAnswers c earliest limiter calls).filter (fun a => same a.body) =
      canonAnswers c earliest limiter' (calls.filter (CanonCall.concerns same)) := by
  induction calls generalizing limiter limiter' with
  | nil => rfl
  | cons call calls ih =>
    have hcalls := fun now body hcall => h now body (List.mem_cons_of_mem call hcall)
    obtain ⟨now, body | _⟩ := call
    · have hkey := h now body List.mem_cons_self
      rw [canonAnswers]
      by_cases hsame : same body
      · have hcall : CanonCall.concerns same ⟨now, .checkBody body⟩ = true := hsame
        rw [List.filter_cons_of_pos (p := fun a : CanonAnswer => same a.body) hsame,
          List.filter_cons_of_pos hcall, canonAnswers]
        have hboth : (checkBody c earliest now body limiter).1 =
              (checkBody c earliest now body limiter').1 ∧
            (checkBody c earliest now body limiter).2.entry key =
              (checkBody c earliest now body limiter').2.entry key := by
          cases hfp : CanonFingerprint.fromChipBody c body with
          | none =>
            rw [checkBody_of_none hfp, checkBody_of_none hfp]
            exact ⟨rfl, hentry⟩
          | some fp =>
            obtain rfl := (hkey fp hfp).mpr hsame
            rw [checkBody_of_some hfp, checkBody_of_some hfp, RateLimiter.entry_check,
              RateLimiter.entry_check, if_pos rfl, if_pos rfl, hentry, hconfig]
            refine ⟨?_, rfl⟩
            rw [RateLimiter.check, RateLimiter.check, hentry, hconfig]
        rw [hboth.1, ih hcalls ?_ hboth.2]
        rw [config_checkBody, config_checkBody, hconfig]
      · have hcall : ¬ CanonCall.concerns same ⟨now, .checkBody body⟩ = true := hsame
        rw [List.filter_cons_of_neg (p := fun a : CanonAnswer => same a.body) hsame,
          List.filter_cons_of_neg hcall]
        refine ih hcalls ?_ ?_
        · rw [config_checkBody, hconfig]
        · rw [entry_checkBody_of_ne fun fp hfp heq => hsame ((hkey fp hfp).mp heq), hentry]
    · have hcall : CanonCall.concerns same ⟨now, .prune⟩ = true := rfl
      rw [canonAnswers, List.filter_cons_of_pos hcall, canonAnswers]
      refine ih hcalls ?_ ?_
      · rw [RateLimiter.config_prune, RateLimiter.config_prune, hconfig]
      · rw [RateLimiter.entry_prune, RateLimiter.entry_prune, hentry, hconfig]

end Runs

theorem nondecreasing_below {c : Crypto} {calls : List CanonCall}
    (h : calls.Pairwise fun a b => a.now ≤ b.now) :
    Nondecreasing (calls.filterMap (CanonCall.below c)) := by
  have hnow {call : CanonCall} {call' : LimiterCall}
      (hcall : CanonCall.below c call = some call') : call'.now = call.now := by
    obtain ⟨now, body | _⟩ := call
    · obtain ⟨fp, -, rfl⟩ := Option.map_eq_some_iff.mp hcall
      rfl
    · exact Option.some.inj hcall ▸ rfl
  refine h.filterMap _ fun a b hab a' ha b' hb => ?_
  rw [hnow ha, hnow hb]
  exact hab

open scoped Classical in
/-- Of the chips that mean the same, however they are spelled, no window has room for more than the
limit, and what is answered for them depends on no chip that means something else. -/
theorem canon_limiter_by_meaning (c : Crypto) (hhash : Function.Injective c.blake3)
    (earliest : Instant) (config : RateLimitConfig) (calls : List CanonCall)
    (hcalls : calls.Pairwise fun a b => a.now ≤ b.now)
    (hsound : ∀ now body, ⟨now, .checkBody body⟩ ∈ calls → Sound body) (body : Json)
    (hbody : Sound body) (fp : CanonFingerprint)
    (hfp : CanonFingerprint.fromChipBody c body = some fp) :
    let answers := canonAnswers c earliest (.new config) calls
    (∀ start : Instant, (((answers.filter fun a => a.isAllowed && decide (Eqv body a.body)).map
      CanonAnswer.now).filter fun t => start ≤ t ∧ t < start + config.window).length ≤
        config.maxRequests.toNat) ∧
    answers.filter (fun a => Eqv body a.body) = canonAnswers c earliest (.new config)
      (calls.filter (CanonCall.concerns fun other => decide (Eqv body other))) := by
  intro answers
  have hkey {now : Instant} {other : Json} (hcall : ⟨now, .checkBody other⟩ ∈ calls)
      {fp' : CanonFingerprint} (hfp' : CanonFingerprint.fromChipBody c other = some fp') :
      fp'.rateKey = fp.rateKey ↔ decide (Eqv body other) = true := by
    have hother := hsound now other hcall
    rw [decide_eq_true_iff, eq_comm,
      rateKey_eq_iff hhash hbody.1 hother.1 hbody.2 hother.2 hfp hfp']
  constructor
  · intro start
    have htimes : (answers.filter fun a => a.isAllowed && decide (Eqv body a.body)).map
        CanonAnswer.now = allowedTimes fp.rateKey (answers.filterMap CanonAnswer.below) := by
      refine allowedTimes_eq (fun other => decide (Eqv body other)) fun a ha r hr => ?_
      obtain ⟨hfp', hcall⟩ := fromChipBody_of_mem ha hr
      exact hkey hcall hfp'
    rw [htimes, show answers = canonAnswers c earliest (.new config) calls from rfl,
      filterMap_canonAnswers]
    exact (admitted_allowedTimes earliest config (nondecreasing_below hcalls) _).length_from_le start
  · exact filter_canonAnswers (fun other => decide (Eqv body other))
      (fun _ _ hcall _ => hkey hcall) rfl rfl

/-- The same chip in two spellings, and another one. -/
def spelledCalls : List CanonCall :=
  [⟨0, .checkBody Nrf.sampleA⟩, ⟨1, .checkBody (.object [("b", .number (.posInt 2))])⟩,
    ⟨2, .checkBody Nrf.sampleB⟩]

open scoped Classical in
theorem canon_limiter_by_meaning_spelled : ((((canonAnswers Receipt.UnifiedReceipt.plainCrypto
    (-2 ^ 63) (.new (.perMinute 1)) spelledCalls).filter fun a => a.isAllowed &&
      decide (Eqv Nrf.sampleA a.body)).map CanonAnswer.now).filter fun t : Instant =>
        0 ≤ t ∧ t < 0 + (RateLimitConfig.perMinute 1).window).length ≤ 1 := by
  have hA : Sound Nrf.sampleA := by
    simp only [Sound, Nrf.sampleA, Json.DistinctKeys, JsonFits]
    simp [AssocMap.DistinctKeys]
    refine ⟨?_, by decide⟩
    rintro k v (⟨rfl, -⟩ | ⟨rfl, -⟩ | ⟨rfl, -⟩) <;> decide
  have hB : Sound Nrf.sampleB := by
    simp only [Sound, Nrf.sampleB, Json.DistinctKeys, JsonFits]
    simp [AssocMap.DistinctKeys]
    refine ⟨?_, by decide⟩
    rintro k v (⟨rfl, -⟩ | ⟨rfl, -⟩) <;> decide
  have hother : Sound (.object [("b", .number (.posInt 2))]) := by
    simp only [Sound, Json.DistinctKeys, JsonFits]
    simp [AssocMap.DistinctKeys]
    decide
  refine (canon_limiter_by_meaning Receipt.UnifiedReceipt.plainCrypto (fun _ _ h => h) (-2 ^ 63)
    (.perMinute 1) spelledCalls (by simp [spelledCalls]) ?_ Nrf.sampleA hA _ rfl).1 0
  intro now body hcall
  simp only [spelledCalls, List.mem_cons, CanonCall.mk.injEq, CanonOp.checkBody.injEq,
    List.not_mem_nil, or_false] at hcall
  rcases hcall with ⟨-, rfl⟩ | ⟨-, rfl⟩ | ⟨-, rfl⟩
  · exact hA
  · exact hother
  · exact hB

/-- The second spelling is refused, the other chip is not. -/
example : (canonAnswers Receipt.UnifiedReceipt.plainCrypto (-2 ^ 63 * 10 ^ 9) (.new (.perMinute 1))
    spelledCalls).map CanonAnswer.isAllowed = [true, true, false] := by
  with_unfolding_all rfl

end Ubl.Gate
