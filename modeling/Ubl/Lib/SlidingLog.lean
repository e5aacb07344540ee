import Mathlib.Algebra.Order.Group.Basic
import Mathlib.Algebra.Order.Sub.Basic
import Mathlib.Data.List.Basic

/-!
# Sliding logs

An event is admitted when fewer than `limit` of the admitted ones are less than a `window` old.  Then
no half-open interval as long as the window holds more than `limit` of them, wherever it begins
(`Admitted.length_filter_le`), and one that is refused is admitted when the oldest that counts against
it has aged by a window (`length_recent_oldest_lt`).

What is older than the window at one time stays so (`recent_recent`): a log may forget it.

Where events may come late, with times before those of others by no more than a skew, a log that
forgets what is old at the latest time still keeps the limit in windows that are shorter by the skew
(`AdmittedLate.length_from_le`).
-/

namespace SlidingLog

variable {τ : Type} [AddCommGroup τ] [LinearOrder τ] {limit : ℕ} {window now later : τ}
  {log : List τ}

/-- The times that are less than a window old. -/
def recent (window now : τ) (log : List τ) : List τ := log.filter fun t => now - window < t

/-- The logs of admitted events. -/
inductive Admitted (limit : ℕ) (window : τ) : List τ → Prop
  | nil : Admitted limit window []
  | concat {log : List τ} {now : τ} : Admitted limit window log → (∀ t ∈ log, t ≤ now) →
      (recent window now log).length < limit → Admitted limit window (log ++ [now])

/-- The log after an event that is admitted if it may be. -/
def record (limit : ℕ) (window now : τ) (log : List τ) : List τ :=
  if (recent window now log).length < limit then log ++ [now] else log

theorem mem_recent {t : τ} : t ∈ recent window now log ↔ t ∈ log ∧ now - window < t := by
  rw [recent, List.mem_filter, decide_eq_true_iff]

theorem recent_append (log log' : List τ) :
    recent window now (log ++ log') = recent window now log ++ recent window now log' :=
  List.filter_append ..

theorem Admitted.record (h : Admitted limit window log) (hlog : ∀ t ∈ log, t ≤ now) :
    Admitted limit window (record limit window now log) := by
  unfold SlidingLog.record
  split_ifs with hfew
  · exact h.concat hlog hfew
  · exact h

theorem le_of_mem_record {t : τ} (hlog : ∀ t ∈ log, t ≤ now)
    (ht : t ∈ record limit window now log) : t ≤ now := by
  unfold record at ht
  split_ifs at ht
  · rcases List.mem_append.mp ht with ht | ht
    · exact hlog t ht
    · exact (List.mem_singleton.mp ht).le
  · exact hlog t ht

theorem length_recent_le (window now : τ) (log : List τ) :
    (recent window now log).length ≤ log.length := List.length_filter_le ..

/-- Events that lie within less than a window are at most as many as the limit. -/
theorem Admitted.length_filter_le (h : Admitted limit window log) {p : τ → Bool}
    (hp : ∀ t u, p t → p u → u - window < t) : (log.filter p).length ≤ limit := by
  induction h with
  | nil => exact Nat.zero_le _
  | @concat log now _ _ hfew ih =>
    rw [List.filter_append, List.length_append]
    by_cases hnow : p now
    · -- the others in the interval are recent at `now`
      have hsub : (log.filter p).Sublist (recent window now log) :=
        List.monotone_filter_right log fun t ht => decide_eq_true (hp t now ht hnow)
      have hle := hsub.length_le
      rw [List.filter_singleton, hnow]
      exact hle.trans_lt hfew
    · rw [List.filter_singleton, eq_false_of_ne_true hnow]
      exact ih

variable [IsOrderedAddMonoid τ]

theorem recent_recent (h : now ≤ later) (log : List τ) :
    recent window later (recent window now log) = recent window later log := by
  rw [recent, recent, recent, List.filter_filter]
  refine List.filter_congr fun t _ => ?_
  rw [Bool.and_eq_left_iff_imp, decide_eq_true_iff, decide_eq_true_iff]
  exact (sub_le_sub_right h window).trans_lt

theorem Admitted.length_recent_le (h : Admitted limit window log) (hlog : ∀ t ∈ log, t ≤ now) :
    (recent window now log).length ≤ limit := by
  have heq : recent window now log = log.filter fun t => decide (now - window < t ∧ t ≤ now) := by
    refine List.filter_congr fun t ht => ?_
    rw [Bool.decide_and, decide_eq_true (hlog t ht), Bool.and_true]
  rw [heq]
  refine h.length_filter_le fun t u ht hu => ?_
  exact (sub_le_sub_right (of_decide_eq_true hu).2 window).trans_lt (of_decide_eq_true ht).1

theorem Admitted.length_from_le (h : Admitted limit window log) (start : τ) :
    (log.filter fun t => start ≤ t ∧ t < start + window).length ≤ limit := by
  refine h.length_filter_le fun t u ht hu => ?_
  exact (sub_lt_iff_lt_add.mpr (of_decide_eq_true hu).2).trans_le (of_decide_eq_true ht).1

theorem Admitted.length_upTo_le (h : Admitted limit window log) (start : τ) :
    (log.filter fun t => start < t ∧ t ≤ start + window).length ≤ limit := by
  refine h.length_filter_le fun t u ht hu => ?_
  exact (sub_le_iff_le_add.mpr (of_decide_eq_true hu).2).trans_lt (of_decide_eq_true ht).1

/-- A window after the oldest that counts, it no longer does. -/
theorem length_recent_oldest_lt {oldest : τ} {rest : List τ}
    (h : recent window now log = oldest :: rest) :
    (recent window (oldest + window) log).length < (recent window now log).length := by
  have holdest : now - window < oldest :=
    (mem_recent.mp (h ▸ List.mem_cons_self : oldest ∈ recent window now log)).2
  rw [← recent_recent (sub_lt_iff_lt_add.mp holdest).le, h, recent, add_sub_cancel_right,
    List.filter_cons_of_neg (by simp), List.length_cons]
  exact Nat.lt_succ_of_le (List.length_filter_le ..)

/-! ## Events that come late -/

section Late

variable {skew latest : τ}

/-- The logs of admitted events, with the latest time of all events so far. -/
inductive AdmittedLate (limit : ℕ) (window skew : τ) : List τ → τ → Prop
  | nil {latest : τ} : AdmittedLate limit window skew [] latest
  | refuse {log : List τ} {latest now : τ} : AdmittedLate limit window skew log latest →
      latest - skew ≤ now → AdmittedLate limit window skew log (max latest now)
  | accept {log : List τ} {latest now : τ} : AdmittedLate limit window skew log latest →
      latest - skew ≤ now → (recent window (max latest now) log).length < limit →
      AdmittedLate limit window skew (log ++ [now]) (max latest now)

/-- Events that lie within less than a window and the skew are at most as many as the limit. -/
theorem AdmittedLate.length_filter_le (h : AdmittedLate limit window skew log latest)
    (hskew : 0 ≤ skew) {p : τ → Bool} (hp : ∀ t u, p t → p u → u - (window - skew) < t) :
    (log.filter p).length ≤ limit := by
  induction h with
  | nil => exact Nat.zero_le _
  | refuse _ _ ih => exact ih
  | @accept log latest now _ hlate hfew ih =>
    rw [List.filter_append, List.length_append]
    by_cases hnow : p now
    · -- the latest time is not so late that one of the others is forgotten
      have hmax : max latest now - skew ≤ now := by
        rw [sub_le_iff_le_add]
        exact max_le (sub_le_iff_le_add.mp hlate) (le_add_of_nonneg_right hskew)
      have hsub : (log.filter p).Sublist (recent window (max latest now) log) := by
        refine List.monotone_filter_right log fun t ht => decide_eq_true ?_
        calc max latest now - window = max latest now - skew - (window - skew) :=
            (sub_sub_sub_cancel_right ..).symm
          _ ≤ now - (window - skew) := sub_le_sub_right hmax _
          _ < t := hp t now ht hnow
      rw [List.filter_singleton, hnow]
      exact hsub.length_le.trans_lt hfew
    · rw [List.filter_singleton, eq_false_of_ne_true hnow]
      exact ih

theorem AdmittedLate.length_from_le (h : AdmittedLate limit window skew log latest)
    (hskew : 0 ≤ skew) (start : τ) :
    (log.filter fun t => start ≤ t ∧ t < start + (window - skew)).length ≤ limit := by
  refine h.length_filter_le hskew fun t u ht hu => ?_
  exact (sub_lt_iff_lt_add.mpr (of_decide_eq_true hu).2).trans_le (of_decide_eq_true ht).1

end Late

end SlidingLog
