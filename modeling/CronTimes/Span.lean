import CronTimes.Minute

namespace CronTimes

/-- A year, month, day or hour, as a stretch of minutes. -/
inductive Span
  | year (year : Nat)
  | month (year month : Nat)
  | day (year month day : Nat)
  | hour (year month day hour : Nat)
deriving DecidableEq, Repr

def Span.first? : Span → Option Minute
  | .year y => Minute.ofCivil? y 1 1 0 0
  | .month y m => Minute.ofCivil? y m 1 0 0
  | .day y m d => Minute.ofCivil? y m d 0 0
  | .hour y m d h => Minute.ofCivil? y m d h 0

def Span.last? : Span → Option Minute
  | .year y => Minute.ofCivil? y 12 31 23 59
  | .month y m => Minute.ofCivil? y m (monthLength y m) 23 59
  | .day y m d => Minute.ofCivil? y m d 23 59
  | .hour y m d h => Minute.ofCivil? y m d h 59

end CronTimes
