import CronTimes.Proofs.CheckedSearch
import CronTimes.Proofs.EventsBetween

namespace CronTimes

theorem Schedule.Allowed.run_schedule {s : Schedule} (allowed : s.Allowed) {d : Direction}
    {m : Minute} {inclusive : Bool} {run : EventRun} (h : s.run d m inclusive = .ok run) :
    run.schedule = s := by
  obtain ⟨upcoming, hf, -⟩ := allowed.nearest_found d m inclusive
  rw [Schedule.run, hf] at h
  cases Except.ok.inj h
  rfl

theorem EventRun.pull_schedule {run rest : EventRun} {event : Option Minute}
    (h : run.pull = .ok (event, rest)) : rest.schedule = run.schedule := by
  obtain ⟨s, d, upcoming⟩ := run
  cases upcoming with
  | none =>
    cases Except.ok.inj h
    rfl
  | some e =>
    obtain ⟨following, -, h⟩ := bind_eq_ok h
    cases Except.ok.inj h
    rfl

theorem EventRun.pullN_schedule {count : Nat} {run rest : EventRun} {events : List (Option Minute)}
    (h : run.pullN count = .ok (events, rest)) : rest.schedule = run.schedule := by
  induction count generalizing run rest events with
  | zero =>
    cases Except.ok.inj h
    rfl
  | succ count ih =>
    obtain ⟨⟨event, next⟩, pulled, h⟩ := bind_eq_ok h
    obtain ⟨⟨others, last⟩, onward, h⟩ := bind_eq_ok h
    cases Except.ok.inj h
    exact (ih onward).trans (pull_schedule pulled)

namespace Checked

def nearest (s : Schedule) (d : Direction) (start : Minute) (inclusive : Bool) :
    Except Halt (Option Minute) :=
  (search s d start inclusive).map SearchResult.found

def follow (s : Schedule) (d : Direction) :
    Nat → Option Minute → Except Halt (List (Option Minute))
  | 0, _ => .ok []
  | count + 1, none => (follow s d count none).map (none :: ·)
  | count + 1, some event => do
    let following ← nearest s d event false
    let rest ← follow s d count following
    .ok (following :: rest)

def sequence (s : Schedule) (d : Direction) (start : Minute) (count : Nat) (inclusive : Bool) :
    Except Halt (List (Option Minute)) :=
  match count with
  | 0 => .ok []
  | count + 1 => do
    let first ← nearest s d start inclusive
    let rest ← follow s d count first
    .ok (first :: rest)

def run (s : Schedule) (d : Direction) (start : Minute) (inclusive : Bool) :
    Except Halt EventRun :=
  (nearest s d start inclusive).map fun upcoming => ⟨s, d, upcoming⟩

def pull (run : EventRun) : Except Halt (Option Minute × EventRun) :=
  match run.upcoming with
  | none => .ok (none, run)
  | some event => do
    let following ← nearest run.schedule run.direction event false
    .ok (some event, { run with upcoming := following })

def pullN : Nat → EventRun → Except Halt (List (Option Minute) × EventRun)
  | 0, run => .ok ([], run)
  | count + 1, run => do
    let (event, run) ← pull run
    let (events, run) ← pullN count run
    .ok (event :: events, run)

def upTo (last : Minute) : Nat → EventRun → Except Halt (List Minute)
  | 0, _ => .ok []
  | count + 1, run => do
    let (event, run) ← pull run
    match event with
    | none => .ok []
    | some event =>
      if event ≤ last then do
        let events ← upTo last count run
        .ok (event :: events)
      else .ok []

def between (s : Schedule) (first last : Minute) (excludeEnds : Bool) :
    Except Halt (List Minute) :=
  if last < first then .ok []
  else do
    let run ← run s .forward first true
    let events ← upTo last ((last.rank - first.rank).toNat + 1) run
    .ok (dropEnds first last excludeEnds events)

def finalBefore (s : Schedule) (earliest limit : Instant) : Except Halt (Option Minute) := do
  let event ← nearest s .backward limit.minute false
  .ok (event.filter fun event => earliest ≤ event.start)

section Lookups

variable {s : Schedule}

theorem nearest_agrees (allowed : s.Allowed) (d : Direction) (m : Minute) (inclusive : Bool) :
    Agrees (nearest s d m inclusive) (s.nearest d m inclusive) :=
  (search_agrees allowed d m inclusive).map SearchResult.found

theorem follow_agrees (allowed : s.Allowed) (d : Direction) (count : Nat)
    (event : Option Minute) : Agrees (follow s d count event) (s.follow d count event) := by
  induction count generalizing event with
  | zero => exact Agrees.pure []
  | succ count ih =>
    cases event with
    | none => exact (ih none).map (none :: ·)
    | some event =>
      refine (nearest_agrees allowed d event false).bind fun following _ => ?_
      exact (ih following).bind fun _ _ => Agrees.pure _

theorem sequence_agrees (allowed : s.Allowed) (d : Direction) (m : Minute) (count : Nat)
    (inclusive : Bool) :
    Agrees (sequence s d m count inclusive) (s.sequence d m count inclusive) := by
  cases count with
  | zero => exact Agrees.pure []
  | succ count =>
    refine (nearest_agrees allowed d m inclusive).bind fun first _ => ?_
    exact (follow_agrees allowed d count first).bind fun _ _ => Agrees.pure _

theorem run_agrees (allowed : s.Allowed) (d : Direction) (m : Minute) (inclusive : Bool) :
    Agrees (run s d m inclusive) (s.run d m inclusive) :=
  (nearest_agrees allowed d m inclusive).map _

theorem pull_agrees (run : EventRun) (allowed : run.schedule.Allowed) :
    Agrees (pull run) run.pull := by
  obtain ⟨s, d, upcoming⟩ := run
  cases upcoming with
  | none => exact Agrees.pure _
  | some event =>
    exact (nearest_agrees allowed d event false).bind fun _ _ => Agrees.pure _

theorem pullN_agrees (count : Nat) (run : EventRun) (allowed : run.schedule.Allowed) :
    Agrees (pullN count run) (run.pullN count) := by
  induction count generalizing run with
  | zero => exact Agrees.pure _
  | succ count ih =>
    refine (pull_agrees run allowed).bind fun pulled hpull => ?_
    have allowed' := (EventRun.pull_schedule hpull).symm ▸ allowed
    exact (ih pulled.2 allowed').bind fun _ _ => Agrees.pure _

theorem upTo_agrees (last : Minute) (count : Nat) (run : EventRun)
    (allowed : run.schedule.Allowed) : Agrees (upTo last count run) (run.upTo last count) := by
  induction count generalizing run with
  | zero => exact Agrees.pure _
  | succ count ih =>
    refine (pull_agrees run allowed).bind fun pulled hpull => ?_
    obtain ⟨event, rest⟩ := pulled
    have allowed' := (EventRun.pull_schedule hpull).symm ▸ allowed
    cases event with
    | none => exact Agrees.pure []
    | some event =>
      dsimp only
      split
      next => exact (ih rest allowed').bind fun _ _ => Agrees.pure _
      next => exact Agrees.pure []

theorem between_agrees (allowed : s.Allowed) (first last : Instant) (excludeEnds : Bool) :
    Agrees (between s first.minute last.minute excludeEnds)
      (s.between first last excludeEnds) := by
  rw [between, Schedule.between]
  split
  next => exact Agrees.pure []
  next =>
    refine (run_agrees allowed .forward first.minute true).bind fun run hrun => ?_
    have allowed' := (allowed.run_schedule hrun).symm ▸ allowed
    exact (upTo_agrees last.minute _ run allowed').bind fun _ _ => Agrees.pure _

theorem finalBefore_agrees (allowed : s.Allowed) (earliest limit : Instant) :
    Agrees (finalBefore s earliest limit) (s.finalBefore earliest limit) :=
  (nearest_agrees allowed .backward limit.minute false).bind fun _ _ => Agrees.pure _

end Lookups

end Checked

/-- No operation on a schedule loses a result to a fault: with all numbers, dates and minutes on the
way checked, each comes to the result that it has without the checks. A pass finds no event only for
lack of a year, or in a gap past which a search can go on. -/
structure Schedule.Faultless (s : Schedule) : Prop where
  next (i : Instant) (inclusive : Bool) :
    Agrees (Checked.nearest s .forward i.minute inclusive) (s.next i inclusive)
  prev (i : Instant) (inclusive : Bool) :
    Agrees (Checked.nearest s .backward i.minute inclusive) (s.prev i inclusive)
  nextN (i : Instant) (count : Nat) (inclusive : Bool) :
    Agrees (Checked.sequence s .forward i.minute count inclusive) (s.nextN i count inclusive)
  prevN (i : Instant) (count : Nat) (inclusive : Bool) :
    Agrees (Checked.sequence s .backward i.minute count inclusive) (s.prevN i count inclusive)
  upcoming (i : Instant) (count : Nat) :
    Agrees (Checked.run s .forward i.minute false >>= Checked.pullN count)
      (s.upcoming i >>= EventRun.pullN count)
  preceding (i : Instant) (count : Nat) :
    Agrees (Checked.run s .backward i.minute false >>= Checked.pullN count)
      (s.preceding i >>= EventRun.pullN count)
  between (first last : Instant) (excludeEnds : Bool) :
    Agrees (Checked.between s first.minute last.minute excludeEnds)
      (s.between first last excludeEnds)
  finalBefore (earliest limit : Instant) :
    Agrees (Checked.finalBefore s earliest limit) (s.finalBefore earliest limit)
  fires (i : Instant) : Agrees (Checked.firesAt s i.minute) (s.fires i)
  gap (d : Direction) (m : Minute) (span : Span) :
    s.pass d m = .ok (.gap span) →
      ∃ next, d.beyond? span = some next ∧ Checked.resume d span = .ok next
  noYear (d : Direction) (m : Minute) :
    s.pass d m = .ok .noYear ↔ ∀ y ∈ s.year.toList, ¬ d.Reaches m.date.year y

section Faultless

variable {s : Schedule}

theorem Schedule.Allowed.noYear_iff (allowed : s.Allowed) (d : Direction) (m : Minute) :
    s.pass d m = .ok .noYear ↔ ∀ y ∈ s.year.toList, ¬ d.Reaches m.date.year y := by
  constructor
  · intro h
    exact allowed.no_year_left (Except.ok.inj ((allowed.pass_eq d m).symm.trans h))
  · intro none_left
    have hp : d.pick s.year.toList m.date.year.toNat = none := by
      apply Direction.pick_eq_none_iff.mpr
      intro y hy
      have hyear := allowed.year_bounds hy
      have := none_left y hy
      cases d <;> simp only [Direction.Reaches] at * <;> omega
    simp only [Schedule.pass, hp]

theorem Schedule.Allowed.pulls_agree (allowed : s.Allowed) (d : Direction) (m : Minute)
    (inclusive : Bool) (count : Nat) :
    Agrees (Checked.run s d m inclusive >>= Checked.pullN count)
      (s.run d m inclusive >>= EventRun.pullN count) := by
  refine (Checked.run_agrees allowed d m inclusive).bind fun run hrun => ?_
  exact Checked.pullN_agrees count run ((allowed.run_schedule hrun).symm ▸ allowed)

end Faultless

/-- Every schedule that can be read is safe to look events up in, from the first to the last minute
of the calendar. -/
theorem Schedule.parsed_faultless {text : String} {s : Schedule}
    (parsed : Schedule.parse text = .ok s) : s.Faultless := by
  have allowed := Schedule.parse_allowed parsed
  exact
    { next := fun i => Checked.nearest_agrees allowed .forward i.minute
      prev := fun i => Checked.nearest_agrees allowed .backward i.minute
      nextN := fun i => Checked.sequence_agrees allowed .forward i.minute
      prevN := fun i => Checked.sequence_agrees allowed .backward i.minute
      upcoming := fun i => allowed.pulls_agree .forward i.minute false
      preceding := fun i => allowed.pulls_agree .backward i.minute false
      between := Checked.between_agrees allowed
      finalBefore := Checked.finalBefore_agrees allowed
      fires := fun i => Checked.firesAt_agrees allowed i.minute
      gap := by
        intro d m span h
        have hgap := Except.ok.inj ((allowed.pass_eq d m).symm.trans h)
        obtain ⟨next, skips⟩ := allowed.skips_exists hgap
        exact ⟨next, skips.2, Checked.resume_eq allowed (allowed.selects_of_gap hgap) skips.2⟩
      noYear := allowed.noYear_iff }

def calendarOpens : Minute := .clock calendarStart 1 1 0 0 (by decide)

def calendarCloses : Minute := .clock calendarEnd 12 31 23 59 (by decide)

def leapDay2040 : Minute := .midnight 2040 2 29 (by decide)

def leapDayOfYear0 : Minute := .midnight 0 2 29 (by decide)

/-- From both ends of the calendar, and on a leap day for which the calendar of schedules has no
weekday. -/
theorem Schedule.parsed_faultless_far_off :
    Checked.nearest leapDays .backward calendarCloses true = .ok (some leapDay2040) ∧
      Checked.nearest leapDays .backward calendarOpens false = .ok none ∧
      Checked.firesAt leapDays leapDayOfYear0 = .ok false ∧
      ∃ result, Checked.sequence leapDays .forward calendarOpens 3 true = .ok result := by
  have faultless := Schedule.parsed_faultless parse_leapDays
  have prev : leapDays.prev calendarCloses.start true = .ok (some leapDay2040) := by
    decide +kernel
  have start : leapDays.prev calendarOpens.start false = .ok none := by decide +kernel
  have fires : leapDays.fires leapDayOfYear0.start = .ok false := by decide +kernel
  refine ⟨?_, ?_, ?_, ?_⟩
  · obtain ⟨found, checked, plain⟩ := faultless.prev calendarCloses.start true
    exact (Except.ok.inj (prev.symm.trans plain)) ▸ checked
  · obtain ⟨found, checked, plain⟩ := faultless.prev calendarOpens.start false
    exact (Except.ok.inj (start.symm.trans plain)) ▸ checked
  · obtain ⟨found, checked, plain⟩ := faultless.fires leapDayOfYear0.start
    exact (Except.ok.inj (fires.symm.trans plain)) ▸ checked
  · obtain ⟨found, checked, -⟩ := faultless.nextN calendarOpens.start 3 true
    exact ⟨found, checked⟩

end CronTimes
