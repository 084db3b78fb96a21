import CronTimes.Proofs.MinuteOrder
import CronTimes.Proofs.MonthDayLists
import Mathlib.Tactic.IntervalCases

namespace CronTimes

/-- Days from 1970-01-01 to a day. The year need not be one that instants live in. -/
def daysSinceEpoch (year : Int) (month day : Nat) : Int :=
  daysBeforeYear year + daysBeforeMonth year month + (day - 1) - daysBeforeYear 1970

/-- The day of the week, 1 for Sunday to 7 for Saturday, counted on from 1970-01-01, which was a
Thursday. -/
def gregorianWeekday (year month day : Nat) : Nat :=
  ((daysSinceEpoch year month day + 4) % 7).toNat + 1

theorem daysBeforeMonth_succ {year : Int} {month : Nat} (first : 1 ≤ month) :
    daysBeforeMonth year (month + 1) = daysBeforeMonth year month + monthLength year month := by
  obtain ⟨prior, rfl⟩ : ∃ prior, month = prior + 1 := ⟨month - 1, by omega⟩
  simp only [daysBeforeMonth, Nat.add_sub_cancel, List.range'_1_concat, List.foldl_append,
    List.foldl_cons, List.foldl_nil, Nat.add_comm 1 prior]

theorem daysBeforeYear_succ (year : Int) :
    daysBeforeYear (year + 1) =
      daysBeforeYear year + daysBeforeMonth year 12 + monthLength year 12 := by
  have hlast : monthLength year 12 = 31 := rfl
  have hleap : daysBeforeMonth year 12 = if hasLeapDay year then 335 else 334 := by
    cases h : hasLeapDay year <;> simp [daysBeforeMonth, List.range'_succ, monthLength, h]
  rw [hlast, hleap]
  unfold daysBeforeYear hasLeapDay
  grind

theorem Date.dayNumber_eq (date : Date) :
    date.dayNumber = daysSinceEpoch date.year date.month date.day := rfl

/-- Day numbers count the days of the calendar: no step from a day to the next one skips or repeats
a number. -/
theorem Date.dayNumber_next? {date next : Date} (h : date.next? = some next) :
    next.dayNumber = date.dayNumber + 1 := by
  have hm := date.month_bounds
  have hd := date.day_le
  have start := date.year_ge
  have finish := date.year_le
  simp only [next?, Option.orElse_eq_orElse, Option.orElse_eq_or, Option.or_eq_some_iff,
    ofCivil?_eq_some_iff, ofCivil?_eq_none_iff] at h
  rw [dayNumber_eq, dayNumber_eq]
  unfold daysSinceEpoch
  rcases h with ⟨hy, hmo, hda⟩ | ⟨hlast, ⟨hy, hmo, hda⟩ | ⟨hdec, hy, hmo, hda⟩⟩
  · rw [hy, hmo, hda]
    omega
  · rw [hy, hmo, hda, daysBeforeMonth_succ hm.1]
    omega
  · have hmonth : ¬ 0 < monthLength date.year (date.month + 1) := by omega
    rw [monthLength_pos_iff] at hmonth
    have december : date.month = 12 := by omega
    rw [december] at hd hlast ⊢
    rw [hy, hmo, hda, daysBeforeYear_succ]
    have january : daysBeforeMonth (date.year + 1) 1 = 0 := rfl
    omega

/-- The table of months brings in as many days as the months before have, up to whole weeks. -/
theorem daysBeforeMonth_mod_seven {year : Int} {month : Nat} (hm : 1 ≤ month ∧ month ≤ 12) :
    daysBeforeMonth year month % 7 = monthOffset (hasLeapDay year) month := by
  obtain ⟨first, last⟩ := hm
  cases h : hasLeapDay year <;> interval_cases month <;>
    simp [daysBeforeMonth, List.range'_succ, monthLength, monthOffset, h]

/-- The weekday by formula is the weekday by counting days. -/
theorem weekdayOf_eq_gregorianWeekday {year month : Nat} (day : Nat) (hy : 1 ≤ year)
    (hm : 1 ≤ month ∧ month ≤ 12) : weekdayOf year month day = gregorianWeekday year month day := by
  have months : daysBeforeMonth year month % 7 = monthOffset (isLeapYear year) month := by
    rw [isLeapYear_eq, daysBeforeMonth_mod_seven hm]
  have epoch : daysBeforeYear 1970 = 719162 := rfl
  obtain ⟨prior, rfl⟩ : ∃ prior, year = prior + 1 := ⟨year - 1, by omega⟩
  have years : daysBeforeYear ((prior + 1 : Nat) : Int) =
      prior * 365 + prior / 4 - prior / 100 + prior / 400 := by
    unfold daysBeforeYear
    omega
  unfold weekdayOf gregorianWeekday daysSinceEpoch weekdaySum
  rw [epoch, years, ← months, Nat.add_sub_cancel]
  omega

/-- The leap day of 2000 was a Tuesday. -/
example : weekdayOf 2000 2 29 = 3 ∧ gregorianWeekday 2000 2 29 = 3 := by decide

end CronTimes
