import CronTimes.DayRule
import CronTimes.Weekday

namespace CronTimes

/-- The days of a month that a rule picks, in ascending order. -/
def DayRule.daysIn (rule : DayRule) (year month : Nat) : Except CalendarFault (List Nat) :=
  match rule with
  | .daysOfMonth days => do
    let _ ← daysInMonth year month
    .ok (days.toList.filter fun day => isValidDate year month day)
  | .fromLast offset => do
    let length ← daysInMonth year month
    .ok (if offset < length then [length - offset] else [])
  | .weekdayNear day => do
    let _ ← daysInMonth year month
    let found ← nearestWeekday year month day
    .ok found.toList
  | .lastWeekday => do
    let length ← daysInMonth year month
    let found ← nearestWeekday year month length
    .ok found.toList
  | .daysOfWeek weekdays => do
    let length ← daysInMonth year month
    (List.range' 1 length).filterM fun day => do
      let weekday ← dayOfWeek year month day
      .ok (weekdays.contains weekday)
  | .lastOfWeek weekday => do
    let day ← lastDayOn year month weekday
    .ok [day]
  | .nthOfWeek weekday nth => do
    let found ← nthDayOn year month weekday nth
    .ok found.toList

end CronTimes
