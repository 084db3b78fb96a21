import CronTimes.Direction
import CronTimes.Schedule

namespace CronTimes

/-- Where a search starts within a year. -/
structure Bounds where
  month : Nat
  day : Nat
  hour : Nat
  minute : Nat
deriving DecidableEq, Repr

/-- The bounds that leave out nothing of a year. -/
def Direction.widest : Direction → Bounds
  | .forward => ⟨1, 1, 0, 0⟩
  | .backward => ⟨12, 31, 23, 59⟩

/-- What one pass over the fields finds: an event, a span of the schedule in which no event is
left, or no year. -/
inductive Pass
  | event (minute : Minute)
  | gap (span : Span)
  | noYear
deriving DecidableEq

/-- The event of a schedule within an hour that is nearest to the bound. -/
def Schedule.passHour (s : Schedule) (d : Direction) (year month day hour : Nat)
    (bounds : Bounds) : Pass :=
  match d.pick s.minute.toList bounds.minute with
  | none => .gap (.hour year month day hour)
  | some minute =>
    match Minute.ofCivil? year month day hour minute with
    | some found => .event found
    | none => .noYear

/-- Values beyond a bound lift the bounds of all smaller units. -/
def Schedule.passDay (s : Schedule) (d : Direction) (year month day : Nat) (bounds : Bounds) :
    Pass :=
  match d.pick s.hour.toList bounds.hour with
  | none => .gap (.day year month day)
  | some hour => s.passHour d year month day hour (if hour = bounds.hour then bounds else d.widest)

def Schedule.passMonth (s : Schedule) (d : Direction) (year month : Nat) (bounds : Bounds) :
    Except CalendarFault Pass := do
  let days ← s.days.daysIn year month
  match d.pick days bounds.day with
  | none => .ok (.gap (.month year month))
  | some day => .ok (s.passDay d year month day (if day = bounds.day then bounds else d.widest))

def Schedule.passYear (s : Schedule) (d : Direction) (year : Nat) (bounds : Bounds) :
    Except CalendarFault Pass :=
  match d.pick s.month.toList bounds.month with
  | none => .ok (.gap (.year year))
  | some month => s.passMonth d year month (if month = bounds.month then bounds else d.widest)

/-- One pass from an anchor. It takes the nearest value of every field in turn and never goes back
to a larger field; where the taken values leave nothing, it ends in a gap. Years before year 0
count as year 0. Years above 65535 are left as they are, while `Checked.pass` cuts them down to that
number; no schedule has a year so late (`Checked.pass_agrees`). -/
def Schedule.pass (s : Schedule) (d : Direction) (anchor : Minute) : Except CalendarFault Pass :=
  let anchorYear := anchor.date.year.toNat
  match d.pick s.year.toList anchorYear with
  | none => .ok .noYear
  | some year =>
    s.passYear d year
      (if year = anchorYear then ⟨anchor.date.month, anchor.date.day, anchor.hour, anchor.minute⟩
        else d.widest)

/-- The number of retries that a search may make. -/
def maxRetries : Nat := 10

/-- What a search reports on its way. -/
inductive SearchEvent
  | gap (span : Span)
  | retry (depth : Nat) (anchor next : Minute)
  | noMoreYears (anchor : Minute)
  | tooDeep (anchor : Minute)
deriving DecidableEq

/-- The end of a search, and its reports in order. -/
structure SearchResult where
  found : Option Minute
  log : List SearchEvent
deriving DecidableEq

/-- Makes at most `passes` passes, each from the first minute beyond the gap before. That minute is
taken from the calendar as a whole (`Direction.beyond?`); `Checked.searchFrom` counts it from the
numbers of the gap and comes to the same result (`Checked.searchFrom_agrees`). -/
def Schedule.searchFrom (s : Schedule) (d : Direction) :
    (passes depth : Nat) → (anchor : Minute) → Except CalendarFault SearchResult
  | 0, _, anchor => .ok ⟨none, [.tooDeep anchor]⟩
  | passes + 1, depth, anchor => do
    match ← s.pass d anchor with
    | .event found => .ok ⟨some found, []⟩
    | .noYear => .ok ⟨none, [.noMoreYears anchor]⟩
    | .gap span =>
      match d.beyond? span with
      | none => .ok ⟨none, [.gap span, .noMoreYears anchor]⟩
      | some next => do
        let rest ← s.searchFrom d passes (depth + 1) next
        .ok ⟨rest.found, .gap span :: .retry depth anchor next :: rest.log⟩

/-- Looks for the event nearest to a minute, which itself counts only if the search is inclusive.
Where there is no neighbouring minute to start from, nothing is found and nothing reported. -/
def Schedule.search (s : Schedule) (d : Direction) (start : Minute) (inclusive : Bool) :
    Except CalendarFault SearchResult :=
  match if inclusive then some start else d.step? start with
  | none => .ok ⟨none, []⟩
  | some anchor => s.searchFrom d (maxRetries + 1) 1 anchor

/-- How loud a report is. -/
inductive LogLevel
  | trace
  | debug
deriving DecidableEq, Repr

def SearchEvent.level : SearchEvent → LogLevel
  | .gap _ | .retry .. => .trace
  | .noMoreYears _ | .tooDeep _ => .debug

def SearchEvent.message : SearchEvent → String
  | .gap (.year _) => "no month left in the year"
  | .gap (.month ..) => "no day left in the month"
  | .gap (.day ..) => "no hour left in the day"
  | .gap (.hour ..) => "no minute left in the hour"
  | .retry .. => "retry search"
  | .noMoreYears _ => "no more years to search"
  | .tooDeep _ => "search depth exceeded"

end CronTimes
