import ResourceQuery.Time.Date
import Mathlib.Tactic.IntervalCases

/-!
# Day numbers and calendar days

The calendar day of a day number exists in the calendar and has that number. Days are counted in
cycles of 400 years, and years from March: the leap day ends a year of 366 days, and the place of a
day in its year alone decides the month.
-/

namespace ResourceQuery

theorem isLeapYear_iff {year : Int} :
    isLeapYear year = true ↔ year % 4 = 0 ∧ (year % 100 ≠ 0 ∨ year % 400 = 0) := by
  simp [isLeapYear]

namespace Date

variable {year day n : Int}

/-- The year that begins in March has such a day, counted from 0. It has a 366th day if the year in
which it ends is a leap year. -/
def IsDayOfYear (year day : Int) : Prop :=
  0 ≤ day ∧ (day < 365 ∨ day = 365 ∧ isLeapYear (year + 1) = true)

theorem IsDayOfYear.le (h : IsDayOfYear year day) : day ≤ 365 := by
  obtain ⟨-, hday | ⟨rfl, -⟩⟩ := h <;> omega

/-- A century has 36524 days and four years have 1461, but the last four years of a century have one
day less. Only the cycle as a whole has a day more than four centuries. -/
theorem exists_split (h : 0 ≤ n ∧ n < 146096) :
    ∃ century fourYears rest : Int, n = 36524 * century + 1461 * fourYears + rest ∧
      (0 ≤ century ∧ century < 4) ∧ (0 ≤ fourYears ∧ fourYears < 25) ∧
      (0 ≤ rest ∧ rest < 1461) ∧ (fourYears = 24 → rest < 1460) := by
  obtain ⟨day, hday⟩ : ∃ day, n % 36524 = day := ⟨_, rfl⟩
  exact ⟨n / 36524, day / 1461, day % 1461, by omega, by omega, by omega, by omega, by omega⟩

/-- A day of a cycle is a day of one of its 400 years. -/
theorem exists_yearOfCycle (h : 0 ≤ n ∧ n < 146097) :
    ∃ year day : Int, (n - (n / 1460 - n / 36524 + n / 146096)) / 365 = year ∧
      n - (365 * year + year / 4 - year / 100) = day ∧ 0 ≤ year ∧ year < 400 ∧
      IsDayOfYear year day := by
  by_cases hlast : n = 146096
  · subst hlast
    exact ⟨399, 365, by decide, by decide, by decide, by decide, by decide, .inr (by decide)⟩
  obtain ⟨century, fourYears, rest, rfl, hcentury, hfourYears, hrest, hshort⟩ :=
    exists_split (n := n) (by omega)
  generalize hn : 36524 * century + 1461 * fourYears + rest = n
  have hwhole : n / 36524 = century := by omega
  have hfull : n / 146096 = 0 := by omega
  -- Counting four years as 1460 days is wrong by less than one.
  obtain ⟨year, hyear, hfound, hplace⟩ : ∃ year, (0 ≤ year ∧ year < 4) ∧
      (n - (n / 1460 - n / 36524 + n / 146096)) / 365 = 100 * century + 4 * fourYears + year ∧
      365 * year ≤ rest ∧ (rest < 365 * (year + 1) ∨ year = 3) := by
    obtain hdays | hdays : n / 1460 = 25 * century + fourYears ∨
        n / 1460 = 25 * century + fourYears + 1 := by omega
    · exact ⟨rest / 365, by omega, by omega, by omega⟩
    · exact ⟨3, by omega, by omega, by omega⟩
  have hquarter : (100 * century + 4 * fourYears + year) / 4 = 25 * century + fourYears := by omega
  have hhundredth : (100 * century + 4 * fourYears + year) / 100 = century := by omega
  refine ⟨_, rest - 365 * year, hfound, by omega, by omega, by omega, by omega, ?_⟩
  rw [isLeapYear_iff]
  omega

/-- Leap years return with the cycle. -/
theorem IsDayOfYear.add_cycles (h : IsDayOfYear year day) (cycle : Int) :
    IsDayOfYear (400 * cycle + year) day := by
  obtain ⟨hday, hends⟩ := h
  refine ⟨hday, hends.imp_right fun ⟨hlast, hleap⟩ ↦ ⟨hlast, ?_⟩⟩
  rw [isLeapYear_iff] at hleap ⊢
  omega

theorem daysBeforeYear_add_cycles (cycle year : Int) (h : 0 ≤ year ∧ year < 400) :
    daysBeforeYear (400 * cycle + year) =
      146097 * cycle + (365 * year + year / 4 - year / 100) := by
  have hquarter : (400 * cycle + year) / 4 = 100 * cycle + year / 4 := by omega
  have hhundredth : (400 * cycle + year) / 100 = 4 * cycle + year / 100 := by omega
  have hcycles : (400 * cycle + year) / 400 = cycle := by omega
  rw [daysBeforeYear, hquarter, hhundredth, hcycles]
  omega

theorem le_of_of? {year : Int} {month day : Nat} {date : Date}
    (h : of? year month day = some date) : month ≤ 12 ∧ day ≤ 31 := by
  unfold of? at h
  split at h
  · next hvalid =>
    have hlength : daysInMonth year month ≤ 31 := by
      unfold daysInMonth
      split <;> (try split) <;> omega
    exact ⟨hvalid.1.2, Nat.le_trans hvalid.2.2 hlength⟩
  · cases h

end Date

namespace CivilDay

variable {year day n : Int}

/-- The calendar day at a place of the year that begins in March, counted from 0. -/
def ofDayOfYear (year day : Int) : CivilDay :=
  let month := (5 * day + 2) / 153
  { year := if month < 10 then year else year + 1
    month := (if month < 10 then month + 3 else month - 9).toNat
    day := (day - Date.daysBeforeMonth month + 1).toNat }

/-- A day number counts the days of the years before, and those of its own. -/
theorem exists_dayOfYear (n : Int) :
    ∃ year day : Int, ofNumber n = ofDayOfYear year day ∧
      n + Date.epoch = Date.daysBeforeYear year + day ∧ Date.IsDayOfYear year day := by
  obtain ⟨cycle, hcycle⟩ : ∃ cycle, (n + Date.epoch) / 146097 = cycle := ⟨_, rfl⟩
  obtain ⟨place, hplace⟩ : ∃ place, (n + Date.epoch) % 146097 = place := ⟨_, rfl⟩
  obtain ⟨year, day, hyear, hday, hlow, hhigh, hvalid⟩ :=
    Date.exists_yearOfCycle (n := place) (by omega)
  have hnumber : n + Date.epoch = 146097 * cycle + place := by omega
  refine ⟨400 * cycle + year, day, ?_, ?_, hvalid.add_cycles cycle⟩
  · unfold ofNumber ofDayOfYear
    dsimp only
    rw [hcycle, hplace, hyear, hday]
  · rw [hnumber, Date.daysBeforeYear_add_cycles cycle year ⟨hlow, hhigh⟩]
    omega

/-- The month exists and has such a day; only February looks at the year. -/
theorem isValid_ofDayOfYear (h : Date.IsDayOfYear year day) :
    (1 ≤ (ofDayOfYear year day).month ∧ (ofDayOfYear year day).month ≤ 12) ∧
      1 ≤ (ofDayOfYear year day).day ∧
        (ofDayOfYear year day).day ≤
          daysInMonth (ofDayOfYear year day).year (ofDayOfYear year day).month := by
  have hle := h.le
  obtain ⟨hday, hends⟩ := h
  obtain ⟨month, hmonth⟩ : ∃ month, (5 * day + 2) / 153 = month := ⟨_, rfl⟩
  have hlow : 0 ≤ month := by omega
  simp only [ofDayOfYear, hmonth, Date.daysBeforeMonth]
  obtain rfl | hhigh : month = 11 ∨ month ≤ 10 := by omega
  · obtain hshort | ⟨rfl, hleap⟩ := hends
    · have hlength : 28 ≤ daysInMonth (year + 1) 2 := by
        rw [daysInMonth]
        split <;> omega
      simp
      omega
    · simp [daysInMonth, hleap]
  · interval_cases month <;> simp [daysInMonth] <;> omega

theorem number_ofDayOfYear {date : Date} (hday : Date.IsDayOfYear year day)
    (h : Date.of? (ofDayOfYear year day).year (ofDayOfYear year day).month
      (ofDayOfYear year day).day = some date) :
    date.number + Date.epoch = Date.daysBeforeYear year + day := by
  unfold Date.of? at h
  split at h
  · cases h
    obtain ⟨month, hmonth⟩ : ∃ month, (5 * day + 2) / 153 = month := ⟨_, rfl⟩
    have hlow := hday.1
    have hhigh := hday.le
    have hbefore : 0 ≤ day - Date.daysBeforeMonth month := by
      rw [Date.daysBeforeMonth]
      omega
    simp only [Date.number, ofDayOfYear, hmonth]
    by_cases hspring : month < 10
    · have hnumber : ¬(month + 3).toNat ≤ 2 := by omega
      have hcast : ((month + 3).toNat : Int) = month + 3 := by omega
      simp only [if_pos hspring, if_neg hnumber, hcast, Int.add_sub_cancel]
      omega
    · have hnumber : (month - 9).toNat ≤ 2 := by omega
      have hcast : ((month - 9).toNat : Int) = month - 9 := by omega
      simp only [if_neg hspring, if_pos hnumber, hcast, Int.add_sub_cancel, Int.sub_add_cancel]
      omega
  · cases h

/-- The calendar day of a number exists, and has that number. -/
theorem exists_date (n : Int) :
    ∃ date, Date.of? (ofNumber n).year (ofNumber n).month (ofNumber n).day = some date ∧
      date.number = n := by
  obtain ⟨year, day, hcivil, hnumber, hday⟩ := exists_dayOfYear n
  have hvalid := isValid_ofDayOfYear hday
  have hsame := number_ofDayOfYear hday (dif_pos hvalid)
  rw [hcivil]
  exact ⟨_, dif_pos hvalid, by omega⟩

end CivilDay

end ResourceQuery
