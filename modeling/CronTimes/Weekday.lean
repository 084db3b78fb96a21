import CronTimes.Calendar
import CronTimes.Numeral

namespace CronTimes

/-- What a question about the calendar can ask for that does not exist. -/
inductive CalendarFault
  | month (month : Nat)
  | date (year month day : Nat)
  | weekday (weekday : Nat)
deriving DecidableEq, Repr

def CalendarFault.message : CalendarFault → String
  | .month m => "Invalid month: " ++ String.ofList (padded 1 m)
  | .date y m d =>
    "Invalid date: " ++ String.ofList (padded 4 y ++ '-' :: padded 2 m ++ '-' :: padded 2 d)
  | .weekday w => "Invalid day of week: " ++ String.ofList (padded 1 w)

/-- The leap years as the day fields tell them, from year 0 on. Dates have the rule of their own
calendar, `hasLeapDay`. -/
def isLeapYear (year : Nat) : Bool :=
  year % 4 == 0 && (year % 100 != 0 || year % 400 == 0)

def daysInMonth (year month : Nat) : Except CalendarFault Nat :=
  match month with
  | 1 | 3 | 5 | 7 | 8 | 10 | 12 => .ok 31
  | 4 | 6 | 9 | 11 => .ok 30
  | 2 => .ok (if isLeapYear year then 29 else 28)
  | _ => .error (.month month)

/-- A day that its month has, without rolling over into a neighbouring month. -/
def isValidDate (year month : Nat) (day : Int) : Bool :=
  match daysInMonth year month with
  | .ok length => 1 ≤ day && day ≤ length
  | .error _ => false

/-- How far the first day of a month is from the weekday of New Year, in days of the week. -/
def monthOffset (leap : Bool) (month : Nat) : Nat :=
  let offsets :=
    if leap then [0, 3, 4, 0, 2, 5, 0, 3, 6, 1, 4, 6] else [0, 3, 3, 6, 1, 4, 6, 2, 5, 0, 3, 5]
  offsets.getD (month - 1) 0

/-- A number that grows by one from day to day, up to multiples of seven. A common year adds one
day to whole weeks; the weights 5, 4 and 6 bring in the leap days of the 4, 100 and 400 year
cycles. -/
def weekdaySum (year month day : Nat) : Nat :=
  day + monthOffset (isLeapYear year) month +
    5 * ((year - 1) % 4) + 4 * ((year - 1) % 100) + 6 * ((year - 1) % 400)

/-- The day of the week, 1 for Sunday to 7 for Saturday. The count of years starts at 1. -/
def dayOfWeek (year month day : Nat) : Except CalendarFault Nat :=
  if isValidDate year month day ∧ year ≠ 0 then .ok (weekdaySum year month day % 7 + 1)
  else .error (.date year month day)

/-- Monday to Friday. A day outside the month is none of them. -/
def isWeekday (year month : Nat) (day : Int) : Except CalendarFault Bool :=
  if isValidDate year month day then
    (dayOfWeek year month day.toNat).map fun weekday => 2 ≤ weekday && weekday ≤ 6
  else .ok false

/-- The last day on the given day of the week among the first `day` days of a month. -/
def lastDayUpTo (year month weekday : Nat) : Nat → Except CalendarFault Nat
  | 0 => .error (.date year month 0)
  | day + 1 => do
    let found ← dayOfWeek year month (day + 1)
    if found = weekday then .ok (day + 1) else lastDayUpTo year month weekday day

/-- The last day of a month on the given day of the week. -/
def lastDayOn (year month weekday : Nat) : Except CalendarFault Nat :=
  if 1 ≤ weekday ∧ weekday ≤ 7 then do
    let length ← daysInMonth year month
    lastDayUpTo year month weekday length
  else .error (.weekday weekday)

/-- The `nth` day of a month on the given day of the week, if the month has so many. -/
def nthDayOn (year month weekday nth : Nat) : Except CalendarFault (Option Nat) :=
  if nth = 0 ∨ ¬(1 ≤ weekday ∧ weekday ≤ 7) then .ok none
  else do
    let first ← dayOfWeek year month 1
    let day := 1 + (weekday + 7 - first) % 7 + (nth - 1) * 7
    let length ← daysInMonth year month
    .ok (if day ≤ length then some day else none)

/-- The weekday of the same month that is nearest to a day. Of two at equal distance the later one
wins, but a weekday two days away counts only if the neighbours of the day are none. -/
def nearestWeekday (year month : Nat) (day : Int) : Except CalendarFault (Option Nat) :=
  if isValidDate year month day then
    ([day, day + 1, day - 1, day + 2, day - 2].findM? (isWeekday year month)).map
      fun found => found.map Int.toNat
  else .ok none

/-- The day fields and the dates have the same leap years. The agreement of their months, days and
weekdays comes down to this. -/
theorem isLeapYear_eq (year : Nat) : isLeapYear year = hasLeapDay year := by
  unfold isLeapYear hasLeapDay
  grind

theorem daysInMonth_eq {year month : Nat} (hm : 1 ≤ month ∧ month ≤ 12) :
    daysInMonth year month = .ok (monthLength year month) := by
  unfold daysInMonth monthLength
  rw [isLeapYear_eq]
  split <;> grind

theorem daysInMonth_outside {month : Nat} (year : Nat) (outside : month = 0 ∨ 12 < month) :
    daysInMonth year month = .error (.month month) := by
  unfold daysInMonth
  split <;> grind

theorem isValidDate_iff {year month : Nat} {day : Int} :
    isValidDate year month day ↔ 1 ≤ day ∧ day ≤ monthLength year month := by
  unfold isValidDate
  by_cases hm : 1 ≤ month ∧ month ≤ 12
  · simp [daysInMonth_eq hm]
  · have no_day : ¬ 0 < monthLength year month := fun some_day =>
      hm (monthLength_pos_iff.mp some_day)
    rw [daysInMonth_outside year (by omega)]
    simp only [Bool.false_eq_true, false_iff]
    omega

theorem month_of_isValidDate {year month : Nat} {day : Int} (valid : isValidDate year month day) :
    1 ≤ month ∧ month ≤ 12 := by
  obtain ⟨hp, hd⟩ := isValidDate_iff.mp valid
  exact monthLength_pos_iff.mp (show 0 < monthLength year month by omega)

theorem isValidDate_natCast_iff {year month day : Nat} :
    isValidDate year month day ↔ 1 ≤ day ∧ day ≤ monthLength year month := by
  rw [isValidDate_iff]
  omega

end CronTimes
