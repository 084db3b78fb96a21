import CronTimes.Numeral
import CronTimes.Word

namespace CronTimes

/-- What a field of an expression counts. The order is the one in which errors are ranked. -/
inductive CronField
  | minute
  | hour
  | dayOfMonth
  | month
  | dayOfWeek
  | year
deriving DecidableEq, Ord, Repr

/-- No schedule fires before this year. -/
def firstYear : Nat := 1970

/-- No schedule fires after this year. -/
def lastYear : Nat := 2199

def CronField.least : CronField → Nat
  | .minute | .hour => 0
  | .dayOfMonth | .month | .dayOfWeek => 1
  | .year => firstYear

def CronField.greatest : CronField → Nat
  | .minute => 59
  | .hour => 23
  | .dayOfMonth => 31
  | .month => 12
  | .dayOfWeek => 7
  | .year => lastYear

/-- The widest step between repeated values. -/
def CronField.greatestStep : CronField → Nat
  | .year => lastYear - firstYear
  | field => field.greatest

def monthNames : List String :=
  ["JAN", "FEB", "MAR", "APR", "MAY", "JUN", "JUL", "AUG", "SEP", "OCT", "NOV", "DEC"]

def weekdayNames : List String :=
  ["SUN", "MON", "TUE", "WED", "THU", "FRI", "SAT"]

/-- Names that may stand for the values from 1 on. -/
def CronField.names : CronField → List String
  | .month => monthNames
  | .dayOfWeek => weekdayNames
  | _ => []

/-- The field as error texts call it. -/
def CronField.title : CronField → String
  | .minute => "minute"
  | .hour => "hour"
  | .dayOfMonth => "day-of-month"
  | .month => "month"
  | .dayOfWeek => "day-of-week"
  | .year => "year"

/-- A single value: a number within the bounds of the field or one of its names. -/
def CronField.value? (field : CronField) (text : List Char) : Option Nat :=
  match boundedNumber? field.least field.greatest text with
  | some value => some value
  | none => (wordIndex? field.names text).map (· + 1)

end CronTimes
