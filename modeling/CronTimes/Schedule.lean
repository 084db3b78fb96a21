import CronTimes.Blank
import CronTimes.Minute
import CronTimes.MonthDays

namespace CronTimes

/-- A cron schedule: the minutes at which it fires, by the values that each field of its
expression allows. -/
structure Schedule where
  expression : String
  minute : FieldSet
  hour : FieldSet
  days : DayRule
  month : FieldSet
  year : FieldSet
deriving DecidableEq, Ord

instance : ToString Schedule := ⟨Schedule.expression⟩

/-- Reads six fields separated by blanks. Faults of the whole expression carry it as it was given;
the fields are then tried in the order minute, hour, days, month, year, and the first one at fault
is reported. The kept expression has one space between fields. -/
def Schedule.parse (text : String) : Except CronError Schedule :=
  match blankSeparated text with
  | [minuteText, hourText, dayOfMonth, monthText, dayOfWeek, yearText] =>
    if dayOfMonth = "?" ↔ dayOfWeek = "?" then .error (.dayChoice text)
    else do
      let minute ← CronField.minute.parse minuteText
      let hour ← CronField.hour.parse hourText
      let days ← DayRule.parse dayOfMonth dayOfWeek
      let month ← CronField.month.parse monthText
      let year ← CronField.year.parse yearText
      let expression :=
        " ".intercalate [minuteText, hourText, dayOfMonth, monthText, dayOfWeek, yearText]
      .ok { expression, minute, hour, days, month, year }
  | _ => .error (.fieldCount text)

/-- Whether a schedule fires at a minute. The days of a month are asked for only if the schedule
has the year and the month. Years above 65535 are cut down to that number only in `Checked.firesAt`,
with the same answer (`Checked.firesAt_agrees`). -/
def Schedule.firesAt (schedule : Schedule) (m : Minute) : Except CalendarFault Bool :=
  let year := m.date.year.toNat
  if schedule.year.contains year && schedule.month.contains m.date.month then do
    let days ← schedule.days.daysIn year m.date.month
    .ok
      (days.contains m.date.day && schedule.hour.contains m.hour &&
        schedule.minute.contains m.minute)
  else .ok false

end CronTimes
