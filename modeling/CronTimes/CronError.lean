import CronTimes.CronField

namespace CronTimes

/-- Why a text is no schedule, no field or no instant. Every cause carries the text it refuses,
and causes are ranked in this order, then by that text. -/
inductive CronError
  | fieldCount (expression : String)
  | dayChoice (expression : String)
  | field (which : CronField) (text : String)
  | instant (text : String)
deriving DecidableEq, Ord, Repr

def CronError.message : CronError → String
  | .fieldCount expression => "invalid cron expression: " ++ expression
  | .dayChoice expression =>
    "invalid combination of day-of-month and day-of-week, one of them must be '?': " ++ expression
  | .field which text => "invalid " ++ which.title ++ " value: " ++ text
  | .instant text => "invalid UTC instant: " ++ text

end CronTimes
