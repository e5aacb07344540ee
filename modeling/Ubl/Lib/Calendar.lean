import Mathlib.Algebra.Order.Group.Nat
import Mathlib.Order.Nat

/-!
# Dates

The days of the Gregorian calendar, counted from the year 0 on.  The count of a date follows its year,
its month and its day in this order (`Date.dayNumber_lt_iff`, `Date.dayNumber_eq_iff`).
-/

namespace Calendar

def isLeap (year : ℕ) : Bool := year % 4 = 0 && (year % 100 ≠ 0 || year % 400 = 0)

def daysInMonth (leap : Bool) : ℕ → ℕ
  | 2 => if leap then 29 else 28
  | 4 | 6 | 9 | 11 => 30
  | _ => 31

theorem daysInMonth_le (leap : Bool) (month : ℕ) : daysInMonth leap month ≤ 31 := by
  unfold daysInMonth
  split
  · cases leap <;> decide
  all_goals decide

/-- The days of the year before a month. -/
def daysBeforeMonth (leap : Bool) : ℕ → ℕ
  | 0 | 1 => 0
  | month + 2 => daysBeforeMonth leap (month + 1) + daysInMonth leap (month + 1)

/-- The days before a year. -/
def daysBeforeYear (year : ℕ) : ℕ :=
  365 * year + (year + 3) / 4 + (year + 399) / 400 - (year + 99) / 100

def daysInYear (year : ℕ) : ℕ := if isLeap year then 366 else 365

theorem daysBeforeYear_succ (year : ℕ) :
    daysBeforeYear (year + 1) = daysBeforeYear year + daysInYear year := by
  have h4 : (year + 1 + 3) / 4 = (year + 3) / 4 + if year % 4 = 0 then 1 else 0 := by
    split_ifs <;> omega
  have h100 : (year + 1 + 99) / 100 = (year + 99) / 100 + if year % 100 = 0 then 1 else 0 := by
    split_ifs <;> omega
  have h400 : (year + 1 + 399) / 400 = (year + 399) / 400 + if year % 400 = 0 then 1 else 0 := by
    split_ifs <;> omega
  have hsub : (year + 99) / 100 ≤ year := by omega
  have h100_of_400 : year % 400 = 0 → year % 100 = 0 := by omega
  have h4_of_100 : year % 100 = 0 → year % 4 = 0 := by omega
  unfold daysBeforeYear daysInYear isLeap
  rw [h4, h100, h400]
  generalize (year + 3) / 4 = q4 at *
  generalize (year + 99) / 100 = q100 at *
  generalize (year + 399) / 400 = q400 at *
  by_cases hc : year % 100 = 0
  · by_cases hq : year % 400 = 0
    · simp [hc, hq, h4_of_100]
      omega
    · simp [hc, hq, h4_of_100]
      omega
  · have hq : year % 400 ≠ 0 := fun hq => hc (h100_of_400 hq)
    by_cases hy : year % 4 = 0
    · simp [hc, hq, hy]
      omega
    · simp [hc, hq, hy]
      omega

theorem daysBeforeYear_add_le {year year' : ℕ} (h : year < year') :
    daysBeforeYear year + daysInYear year ≤ daysBeforeYear year' := by
  induction year', h using Nat.le_induction with
  | base => exact (daysBeforeYear_succ year).ge
  | succ year' _ ih =>
    rw [daysBeforeYear_succ]
    exact ih.trans (Nat.le_add_right _ _)

theorem daysBeforeMonth_add_le (leap : Bool) {month month' : ℕ} (hmonth : 1 ≤ month)
    (h : month < month') :
    daysBeforeMonth leap month + daysInMonth leap month ≤ daysBeforeMonth leap month' := by
  obtain ⟨month, rfl⟩ := Nat.exists_eq_add_of_le' hmonth
  induction month', h using Nat.le_induction with
  | base => exact le_rfl
  | succ month' hle ih =>
    obtain ⟨k, rfl⟩ := Nat.exists_eq_add_of_le' (hmonth.trans (Nat.le_of_lt hle))
    exact ih.trans (Nat.le_add_right _ _)

structure Date where
  year : ℕ
  month : ℕ
  day : ℕ
  one_le_month : 1 ≤ month
  month_le : month ≤ 12
  one_le_day : 1 ≤ day
  day_le : day ≤ daysInMonth (isLeap year) month

namespace Date

def dayOfYear (d : Date) : ℕ := daysBeforeMonth (isLeap d.year) d.month + d.day

def dayNumber (d : Date) : ℕ := daysBeforeYear d.year + d.dayOfYear

theorem dayOfYear_le (d : Date) : d.dayOfYear ≤ daysInYear d.year := by
  have hmonth := daysBeforeMonth_add_le (isLeap d.year) d.one_le_month
    (Nat.lt_add_one_of_le d.month_le)
  have hyear : daysBeforeMonth (isLeap d.year) (12 + 1) = daysInYear d.year := by
    unfold daysInYear
    cases isLeap d.year <;> rfl
  have hday := d.day_le
  unfold dayOfYear
  omega

theorem one_le_dayOfYear (d : Date) : 1 ≤ d.dayOfYear :=
  d.one_le_day.trans (Nat.le_add_left _ _)

theorem dayNumber_lt_of_year {a b : Date} (h : a.year < b.year) : a.dayNumber < b.dayNumber := by
  have hyear := daysBeforeYear_add_le h
  have ha := a.dayOfYear_le
  have hb := b.one_le_dayOfYear
  unfold dayNumber
  omega

theorem dayNumber_lt_of_month {a b : Date} (hyear : a.year = b.year) (h : a.month < b.month) :
    a.dayNumber < b.dayNumber := by
  have hmonth := daysBeforeMonth_add_le (isLeap a.year) a.one_le_month h
  have ha := a.day_le
  have hb := b.one_le_day
  unfold dayNumber dayOfYear
  rw [← hyear]
  omega

theorem dayNumber_lt_of_day {a b : Date} (hyear : a.year = b.year) (hmonth : a.month = b.month)
    (h : a.day < b.day) : a.dayNumber < b.dayNumber := by
  unfold dayNumber dayOfYear
  rw [hyear, hmonth]
  omega

theorem dayNumber_lt_iff {a b : Date} :
    a.dayNumber < b.dayNumber ↔ a.year < b.year ∨ a.year = b.year ∧
      (a.month < b.month ∨ a.month = b.month ∧ a.day < b.day) := by
  constructor
  · intro h
    rcases Nat.lt_trichotomy a.year b.year with hyear | hyear | hyear
    · exact .inl hyear
    · refine .inr ⟨hyear, ?_⟩
      rcases Nat.lt_trichotomy a.month b.month with hmonth | hmonth | hmonth
      · exact .inl hmonth
      · refine .inr ⟨hmonth, ?_⟩
        unfold dayNumber dayOfYear at h
        rw [hyear, hmonth] at h
        omega
      · exact absurd h (dayNumber_lt_of_month hyear.symm hmonth).asymm
    · exact absurd h (dayNumber_lt_of_year hyear).asymm
  · rintro (hyear | ⟨hyear, hmonth | ⟨hmonth, hday⟩⟩)
    · exact dayNumber_lt_of_year hyear
    · exact dayNumber_lt_of_month hyear hmonth
    · exact dayNumber_lt_of_day hyear hmonth hday

theorem dayNumber_eq_iff {a b : Date} :
    a.dayNumber = b.dayNumber ↔ a.year = b.year ∧ a.month = b.month ∧ a.day = b.day := by
  constructor
  · intro h
    have hyear : a.year = b.year :=
      Nat.le_antisymm (not_lt.mp fun hlt => (dayNumber_lt_of_year hlt).ne' h)
        (not_lt.mp fun hlt => (dayNumber_lt_of_year hlt).ne h)
    have hmonth : a.month = b.month :=
      Nat.le_antisymm (not_lt.mp fun hlt => (dayNumber_lt_of_month hyear.symm hlt).ne' h)
        (not_lt.mp fun hlt => (dayNumber_lt_of_month hyear hlt).ne h)
    refine ⟨hyear, hmonth, ?_⟩
    unfold dayNumber dayOfYear at h
    rw [hyear, hmonth] at h
    omega
  · rintro ⟨hyear, hmonth, hday⟩
    unfold dayNumber dayOfYear
    rw [hyear, hmonth, hday]

end Date

end Calendar
