import CronTimes.FieldSet
import CronTimes.Span

namespace CronTimes

/-- The two ways in which a search can go through time. -/
inductive Direction
  | forward
  | backward
deriving DecidableEq, Repr

/-- The neighbouring minute. -/
def Direction.step? : Direction → Minute → Option Minute
  | .forward => Minute.next?
  | .backward => Minute.prev?

/-- The nearest value of an ascending list that a search starting at the bound meets. -/
def Direction.pick : Direction → List Nat → Nat → Option Nat
  | .forward => firstFrom
  | .backward => lastUpTo

/-- The first minute that a search meets once it has left a span, by the order of minutes. How it is
counted is left out here: the first of January of `year + 1`, the first of `month + 1`, a day or an
hour on from the start of the span, and backwards 23:59 on the 31st of December of `year - 1` or the
minute before the span. `Checked.resume` counts it in this way with 16 bit numbers, and
`Checked.resume_eq` says that it comes to the same minute. -/
def Direction.beyond? : Direction → Span → Option Minute
  | .forward, span => span.last?.bind Minute.next?
  | .backward, span => span.first?.bind Minute.prev?

end CronTimes
