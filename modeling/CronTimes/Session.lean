import CronTimes.Lookup
import CronTimes.Timestamp

namespace CronTimes

/-- A point in time as it is asked for: a time stamp still to be read, or an instant. -/
inductive Moment
  | stamp (text : String)
  | exact (instant : Instant)

def Moment.resolve : Moment → Except CronError Instant
  | .stamp text => Instant.parse text
  | .exact instant => .ok instant

/-- Gives a name a value, in place of the one it had. -/
def putEntry {α : Type} (name : String) (value : α) (entries : List (String × α)) :
    List (String × α) :=
  (name, value) :: entries.filter (·.1 ≠ name)

/-- Named schedules and event runs, and a cursor in time. -/
structure Session where
  schedules : List (String × Schedule)
  runs : List (String × EventRun)
  cursor : Option Instant

def Session.empty : Session := ⟨[], [], none⟩

inductive SessionStep
  | define (name expression : String)
  | seek (goal : Moment)
  | move (direction : Direction) (name : String) (inclusive : Bool)
  | fires (name : String)
  | between (name : String) (last : Moment) (excludeEnds : Bool)
  | finalBefore (name : String) (earliest : Moment)
  | openRun (direction : Direction) (name run : String)
  | pull (run : String) (count : Nat) (follow : Bool)
  | compare (name other : String)

/-- Why a step is refused. A refused step changes nothing: all other steps are answered as in a
session that was never asked for it (`Session.answers_taken`). -/
inductive SessionError
  | cron (error : CronError)
  | calendar (fault : CalendarFault)
  | unknownSchedule (name : String)
  | unknownRun (name : String)
  | noCursor
deriving DecidableEq

inductive SessionAnswer
  | done
  | expression (text : String)
  | event (event : Option Minute)
  | fires (value : Bool)
  | events (events : List Minute)
  | pulled (events : List (Option Minute))
  | comparison (equal : Bool) (order : Ordering)

def Session.schedule (session : Session) (name : String) : Except SessionError Schedule :=
  match session.schedules.lookup name with
  | some schedule => .ok schedule
  | none => .error (.unknownSchedule name)

def Session.openedRun (session : Session) (name : String) : Except SessionError EventRun :=
  match session.runs.lookup name with
  | some run => .ok run
  | none => .error (.unknownRun name)

def Session.position (session : Session) : Except SessionError Instant :=
  match session.cursor with
  | some cursor => .ok cursor
  | none => .error .noCursor

/-- The cursor moves to an event if there is one. -/
def Session.moveTo (session : Session) (event : Option Minute) : Session :=
  match event with
  | some minute => { session with cursor := some minute.start }
  | none => session

def Session.step (session : Session) : SessionStep → Except SessionError (SessionAnswer × Session)
  | .define name expression => do
    let schedule ← (Schedule.parse expression).mapError .cron
    .ok (.expression (toString schedule),
      { session with schedules := putEntry name schedule session.schedules })
  | .seek goal => do
    let instant ← goal.resolve.mapError .cron
    .ok (.done, { session with cursor := some instant })
  | .move direction name inclusive => do
    let schedule ← session.schedule name
    let cursor ← session.position
    let event ← (schedule.nearest direction cursor.minute inclusive).mapError .calendar
    .ok (.event event, session.moveTo event)
  | .fires name => do
    let schedule ← session.schedule name
    let cursor ← session.position
    let value ← (schedule.fires cursor).mapError .calendar
    .ok (.fires value, session)
  | .between name last excludeEnds => do
    let schedule ← session.schedule name
    let cursor ← session.position
    let last ← last.resolve.mapError .cron
    let events ← (schedule.between cursor last excludeEnds).mapError .calendar
    .ok (.events events, session)
  | .finalBefore name earliest => do
    let schedule ← session.schedule name
    let cursor ← session.position
    let earliest ← earliest.resolve.mapError .cron
    let event ← (schedule.finalBefore earliest cursor).mapError .calendar
    .ok (.event event, session)
  | .openRun direction name run => do
    let schedule ← session.schedule name
    let cursor ← session.position
    let opened ← (schedule.run direction cursor.minute false).mapError .calendar
    .ok (.done, { session with runs := putEntry run opened session.runs })
  | .pull name count follow => do
    let run ← session.openedRun name
    let (events, rest) ← (run.pullN count).mapError .calendar
    let session := { session with runs := putEntry name rest session.runs }
    .ok (.pulled events, if follow then session.moveTo (events.filterMap id).getLast? else session)
  | .compare name other => do
    let first ← session.schedule name
    let second ← session.schedule other
    .ok (.comparison (first = second) (Ord.compare first second), session)

/-- Takes steps in turn. Each answer comes with the cursor after its step. -/
def Session.answers (session : Session) :
    List SessionStep → List (Except SessionError SessionAnswer × Option Instant)
  | [] => []
  | step :: steps =>
    match session.step step with
    | .ok (answer, next) => (.ok answer, next.cursor) :: next.answers steps
    | .error error => (.error error, session.cursor) :: session.answers steps

end CronTimes
