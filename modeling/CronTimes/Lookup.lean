import CronTimes.Instant
import CronTimes.Search

namespace CronTimes

/-- The event nearest to a minute. -/
def Schedule.nearest (s : Schedule) (d : Direction) (start : Minute) (inclusive : Bool) :
    Except CalendarFault (Option Minute) :=
  (s.search d start inclusive).map SearchResult.found

/-- The first event after an instant. The seconds of the instant do not count. -/
def Schedule.next (s : Schedule) (start : Instant) (inclusive : Bool) :
    Except CalendarFault (Option Minute) :=
  s.nearest .forward start.minute inclusive

/-- The last event before an instant. The seconds of the instant do not count. -/
def Schedule.prev (s : Schedule) (start : Instant) (inclusive : Bool) :
    Except CalendarFault (Option Minute) :=
  s.nearest .backward start.minute inclusive

/-- The events that follow each other from an event on. Once a search finds nothing, nothing
follows. -/
def Schedule.follow (s : Schedule) (d : Direction) :
    Nat → Option Minute → Except CalendarFault (List (Option Minute))
  | 0, _ => .ok []
  | count + 1, none => (s.follow d count none).map (none :: ·)
  | count + 1, some event => do
    let following ← s.nearest d event false
    let rest ← s.follow d count following
    .ok (following :: rest)

/-- The first `count` events of a run of searches, only the first of which can be inclusive. -/
def Schedule.sequence (s : Schedule) (d : Direction) (start : Minute) (count : Nat)
    (inclusive : Bool) : Except CalendarFault (List (Option Minute)) :=
  match count with
  | 0 => .ok []
  | count + 1 => do
    let first ← s.nearest d start inclusive
    let rest ← s.follow d count first
    .ok (first :: rest)

def Schedule.nextN (s : Schedule) (start : Instant) (count : Nat) (inclusive : Bool) :
    Except CalendarFault (List (Option Minute)) :=
  s.sequence .forward start.minute count inclusive

def Schedule.prevN (s : Schedule) (start : Instant) (count : Nat) (inclusive : Bool) :
    Except CalendarFault (List (Option Minute)) :=
  s.sequence .backward start.minute count inclusive

/-- A run of events that is read off one event at a time. -/
structure EventRun where
  schedule : Schedule
  direction : Direction
  upcoming : Option Minute

def Schedule.run (s : Schedule) (d : Direction) (start : Minute) (inclusive : Bool) :
    Except CalendarFault EventRun :=
  (s.nearest d start inclusive).map fun upcoming => ⟨s, d, upcoming⟩

/-- The events after an instant. -/
def Schedule.upcoming (s : Schedule) (start : Instant) : Except CalendarFault EventRun :=
  s.run .forward start.minute false

/-- The events before an instant, the latest one first. -/
def Schedule.preceding (s : Schedule) (start : Instant) : Except CalendarFault EventRun :=
  s.run .backward start.minute false

def EventRun.pull (run : EventRun) : Except CalendarFault (Option Minute × EventRun) :=
  match run.upcoming with
  | none => .ok (none, run)
  | some event => do
    let following ← run.schedule.nearest run.direction event false
    .ok (some event, { run with upcoming := following })

def EventRun.pullN : Nat → EventRun → Except CalendarFault (List (Option Minute) × EventRun)
  | 0, run => .ok ([], run)
  | count + 1, run => do
    let (event, run) ← run.pull
    let (events, run) ← run.pullN count
    .ok (event :: events, run)

/-- The next `count` events of a run, or all of them if there are fewer. -/
def EventRun.take (count : Nat) (run : EventRun) : Except CalendarFault (List Minute) :=
  (run.pullN count).map fun pulled => pulled.1.filterMap id

/-- The events of a run up to a minute, at most `count` of them. -/
def EventRun.upTo (last : Minute) : Nat → EventRun → Except CalendarFault (List Minute)
  | 0, _ => .ok []
  | count + 1, run => do
    let (event, run) ← run.pull
    match event with
    | none => .ok []
    | some event =>
      if event ≤ last then do
        let events ← run.upTo last count
        .ok (event :: events)
      else .ok []

/-- The events from the minute of one instant to the minute of another, both of which may be left
out. Events ascend, so the distance in rank bounds their number. -/
def Schedule.between (s : Schedule) (first last : Instant) (excludeEnds : Bool) :
    Except CalendarFault (List Minute) :=
  if last.minute < first.minute then .ok []
  else do
    let run ← s.run .forward first.minute true
    let events ← run.upTo last.minute ((last.minute.rank - first.minute.rank).toNat + 1)
    .ok
      (if excludeEnds then
        events.filter fun event => event ≠ first.minute && event ≠ last.minute
      else events)

/-- The last event before the minute of an instant, unless it is earlier than another instant. -/
def Schedule.finalBefore (s : Schedule) (earliest limit : Instant) :
    Except CalendarFault (Option Minute) := do
  let event ← s.prev limit false
  .ok (event.filter fun event => earliest ≤ event.start)

def Schedule.fires (s : Schedule) (instant : Instant) : Except CalendarFault Bool :=
  s.firesAt instant.minute

end CronTimes
