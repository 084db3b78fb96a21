import CronTimes.FieldText

namespace CronTimes

/-- Which days of a month a schedule picks. The first four rules are written in the day-of-month
field, the others in the day-of-week field, where day 1 is Sunday. -/
inductive DayRule
  | daysOfMonth (days : FieldSet)
  | fromLast (offset : Nat)
  | weekdayNear (day : Nat)
  | lastWeekday
  | daysOfWeek (weekdays : FieldSet)
  | lastOfWeek (weekday : Nat)
  | nthOfWeek (weekday nth : Nat)
deriving DecidableEq, Ord

/-- Text before a closing mark. -/
def dropMark? (mark : Char) (text : List Char) : Option (List Char) :=
  if text.getLast? = some mark then some text.dropLast else none

/-- Reads `L`, `LW`, `L-n`, `nW` or a list of days. A text that begins or ends like one of the
special forms is never read as a list. -/
def DayRule.ofMonthText? (text : List Char) : Option DayRule :=
  match text with
  | ['L'] => some (.fromLast 0)
  | ['L', 'W'] => some .lastWeekday
  | 'L' :: '-' :: offset => (boundedNumber? 0 30 offset).map .fromLast
  | _ =>
    match dropMark? 'W' text with
    | some day => (CronField.dayOfMonth.value? day).map .weekdayNear
    | none => (CronField.dayOfMonth.set? text).map .daysOfMonth

/-- Saturday closes the week. -/
def saturdays : FieldSet := FieldSet.ofList [7]

/-- Reads `L`, `L-x`, `xL`, `x#n` or a list of weekdays, in capitals. -/
def DayRule.ofCapitals? (text : List Char) : Option DayRule :=
  match text with
  | ['L'] => some (.daysOfWeek saturdays)
  | 'L' :: '-' :: weekday => (CronField.dayOfWeek.value? weekday).map .lastOfWeek
  | _ =>
    match dropMark? 'L' text with
    | some weekday => (CronField.dayOfWeek.value? weekday).map .lastOfWeek
    | none =>
      match cut? '#' text with
      | some (weekday, nth) => do
        let weekday ← CronField.dayOfWeek.value? weekday
        let nth ← boundedNumber? 1 5 nth
        some (.nthOfWeek weekday nth)
      | none => (CronField.dayOfWeek.set? text).map .daysOfWeek

/-- The case of ASCII letters does not matter in the day-of-week field. -/
def DayRule.ofWeekText? (text : List Char) : Option DayRule :=
  ofCapitals? (text.map Char.toUpper)

def DayRule.parseOfMonth (text : String) : Except CronError DayRule :=
  match ofMonthText? text.toList with
  | some rule => .ok rule
  | none => .error (.field .dayOfMonth text)

def DayRule.parseOfWeek (text : String) : Except CronError DayRule :=
  match ofWeekText? text.toList with
  | some rule => .ok rule
  | none => .error (.field .dayOfWeek text)

/-- Exactly one of the two fields gives the rule; the other is `?`. -/
def DayRule.parse (dayOfMonth dayOfWeek : String) : Except CronError DayRule :=
  if dayOfMonth ≠ "?" ∧ dayOfWeek = "?" then parseOfMonth dayOfMonth
  else if dayOfMonth = "?" ∧ dayOfWeek ≠ "?" then parseOfWeek dayOfWeek
  else .error (.dayChoice (dayOfMonth ++ " " ++ dayOfWeek))

end CronTimes
