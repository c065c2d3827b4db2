import Mathlib.Algebra.BigOperators.Intervals
import ResourceQuery.Proofs.Calendar

/-!
# Counting days

The number of a day is how many days the calendar has between 1970-01-01 and it: all days of the
years before, all days of the months before in its own year, and the days before it in its month.
-/

namespace ResourceQuery

open Finset

namespace Date

/-- All days of the months of a year. -/
def daysInYear (year : Int) : Nat :=
  ∑ month ∈ Icc 1 12, daysInMonth year month

/-- The days of the calendar from 0000-01-01 on that lie before a day. -/
def daysPassed (date : Date) : Int :=
  (∑ year ∈ range date.year.toNat, daysInYear year : Nat) +
    (∑ month ∈ Ico 1 date.month, daysInMonth date.year month : Nat) + date.day - 1

/-- The day from which days are counted. -/
def unixEpoch : Date :=
  ⟨1970, 1, 1, by decide, by decide⟩

theorem daysInYear_eq (year : Int) : daysInYear year = if isLeapYear year then 366 else 365 := by
  have hmonths : Icc 1 12 = {1, 2, 3, 4, 5, 6, 7, 8, 9, 10, 11, 12} := rfl
  rw [daysInYear, hmonths]
  simp [daysInMonth]
  split <;> rfl

theorem daysBeforeYear_sub_one (year : Int) :
    daysBeforeYear year = daysBeforeYear (year - 1) + daysInYear year := by
  rw [daysInYear_eq]
  split
  · next h =>
    rw [isLeapYear_iff] at h
    rw [daysBeforeYear, daysBeforeYear]
    omega
  · next h =>
    rw [isLeapYear_iff] at h
    rw [daysBeforeYear, daysBeforeYear]
    omega

theorem sum_daysInYear (count : Nat) :
    ((∑ year ∈ range count, daysInYear year : Nat) : Int) = daysBeforeYear (count - 1) + 366 := by
  induction count with
  | zero => rfl
  | succ count ih =>
    have hyear := daysBeforeYear_sub_one count
    rw [sum_range_succ, Int.natCast_add, ih, Int.natCast_succ, Int.add_sub_cancel, hyear]
    omega

/-- The days of the months before, counted from January, are those counted from March, and two
months more. -/
theorem sum_daysInMonth {year : Int} {month : Nat} (hlow : 2 < month) (hhigh : month ≤ 12) :
    ((∑ m ∈ Ico 1 month, daysInMonth year m : Nat) : Int) =
      daysBeforeMonth (month - 3) + daysInYear year - 306 := by
  rw [daysInYear_eq, daysBeforeMonth]
  interval_cases month <;> simp [sum_Ico_succ_top, daysInMonth] <;> split <;> rfl

theorem number_eq {date : Date} (h : 0 ≤ date.year) : date.number = date.daysPassed - 719528 := by
  have hyear : (date.year.toNat : Int) = date.year := Int.toNat_of_nonneg h
  obtain ⟨hlow, hhigh⟩ := date.month_bounds
  rw [daysPassed, sum_daysInYear, hyear, number]
  by_cases hwinter : date.month ≤ 2
  · simp only [if_pos hwinter]
    have hmonths : ((∑ m ∈ Ico 1 date.month, daysInMonth date.year m : Nat) : Int) =
        daysBeforeMonth (date.month + 9) - 306 := by
      obtain hmonth | hmonth : date.month = 1 ∨ date.month = 2 := by omega
      · rw [hmonth]
        rfl
      · rw [hmonth]
        rfl
    rw [hmonths, epoch]
    omega
  · simp only [if_neg hwinter]
    rw [sum_daysInMonth (by omega) hhigh, daysBeforeYear_sub_one, epoch]
    omega

/-- The number of a day is how many days lie between 1970-01-01 and it. -/
theorem number_eq_sub {date : Date} (h : 0 ≤ date.year) :
    date.number = date.daysPassed - unixEpoch.daysPassed := by
  have hepoch : unixEpoch.number = unixEpoch.daysPassed - 719528 := number_eq (by decide)
  have hzero : unixEpoch.number = 0 := rfl
  rw [number_eq h]
  omega

end Date

end ResourceQuery
