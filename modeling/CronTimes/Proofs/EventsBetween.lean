import CronTimes.Proofs.DenseSchedules
import Mathlib.Data.List.Sort

namespace CronTimes

/-- The minutes from a start on, one after another, up to the last one. -/
def minutesUpTo (last : Minute) : Option Minute → List Minute
  | none => []
  | some first => if first ≤ last then first :: minutesUpTo last first.next? else []
termination_by start => start.elim 0 fun first => (last.rank + 1 - first.rank).toNat
decreasing_by
  next inTime =>
    have hle := Minute.le_iff_rank.mp inTime
    cases hn : first.next? with
    | none =>
      simp only [Option.elim]
      omega
    | some next =>
      have hlt := Minute.lt_iff_rank.mp (Minute.next?_nearest hn).1
      simp only [Option.elim]
      omega

/-- The minutes from a start up to the last one at which a schedule fires. -/
def Schedule.eventsUpTo (s : Schedule) (last : Minute) (start : Option Minute) : List Minute :=
  (minutesUpTo last start).filter fun t => s.firesAt t = .ok true

/-- Leaves out the ends of an interval where that is asked for. -/
def dropEnds (first last : Minute) (excludeEnds : Bool) (events : List Minute) : List Minute :=
  if excludeEnds then events.filter fun event => event ≠ first && event ≠ last else events

/-- All events from one minute to another, both of which may be left out. -/
def Schedule.eventsWithin (s : Schedule) (first last : Minute) (excludeEnds : Bool) :
    List Minute :=
  dropEnds first last excludeEnds (s.eventsUpTo last (some first))

/-- Pulling events off a run up to the last minute comes to an end by itself: the run is exhausted,
or its next event is too late. -/
inductive EventRun.Collects (last : Minute) : EventRun → List Minute → Prop
  | ended {run rest : EventRun} (pulled : run.pull = .ok (none, rest)) : Collects last run []
  | past {run rest : EventRun} {event : Minute} (pulled : run.pull = .ok (some event, rest))
      (late : last < event) : Collects last run []
  | event {run rest : EventRun} {event : Minute} {events : List Minute}
      (pulled : run.pull = .ok (some event, rest)) (inTime : event ≤ last)
      (more : Collects last rest events) : Collects last run (event :: events)

section Minutes

variable {first last t : Minute}

theorem Minute.exists_next?_le_iff : (∃ next, first.next? = some next ∧ next ≤ t) ↔ first < t := by
  constructor
  · rintro ⟨next, hn, hnt⟩
    exact (Minute.next?_nearest hn).1.trans_le hnt
  · intro later
    obtain ⟨next, hn⟩ := Minute.next?_exists later
    exact ⟨next, hn, (Minute.next?_nearest hn).2 t later⟩

theorem mem_minutesUpTo {start : Option Minute} :
    t ∈ minutesUpTo last start ↔ (∃ first, start = some first ∧ first ≤ t) ∧ t ≤ last := by
  fun_induction minutesUpTo last start with
  | case1 => simp
  | case2 first inTime ih =>
    rw [List.mem_cons, ih, Minute.exists_next?_le_iff]
    simp only [Option.some.injEq, exists_eq_left', le_iff_eq_or_lt (a := first), eq_comm (a := t)]
    constructor
    · rintro (rfl | ⟨later, htl⟩)
      · exact ⟨Or.inl rfl, inTime⟩
      · exact ⟨Or.inr later, htl⟩
    · rintro ⟨rfl | later, htl⟩
      · exact Or.inl rfl
      · exact Or.inr ⟨later, htl⟩
  | case3 first late =>
    simp only [List.not_mem_nil, Option.some.injEq, exists_eq_left', false_iff, not_and, not_le]
    exact fun hft => (not_le.mp late).trans_le hft

theorem pairwise_minutesUpTo (last : Minute) (start : Option Minute) :
    (minutesUpTo last start).Pairwise (· < ·) := by
  fun_induction minutesUpTo last start with
  | case1 => exact List.Pairwise.nil
  | case2 first inTime ih =>
    refine List.pairwise_cons.mpr ⟨?_, ih⟩
    intro t ht
    exact Minute.exists_next?_le_iff.mp (mem_minutesUpTo.mp ht).1
  | case3 => exact List.Pairwise.nil

end Minutes

section Events

variable {s : Schedule} {first last x r t : Minute} {start : Option Minute}

theorem Schedule.mem_eventsUpTo_some :
    t ∈ s.eventsUpTo last (some first) ↔ (first ≤ t ∧ t ≤ last) ∧ s.firesAt t = .ok true := by
  rw [eventsUpTo, List.mem_filter, mem_minutesUpTo, decide_eq_true_iff]
  simp only [Option.some.injEq, exists_eq_left']

theorem Schedule.pairwise_eventsUpTo (s : Schedule) (last : Minute) (start : Option Minute) :
    (s.eventsUpTo last start).Pairwise (· < ·) :=
  (pairwise_minutesUpTo last start).sublist List.filter_sublist

theorem Schedule.mem_eventsWithin {excludeEnds : Bool} :
    t ∈ s.eventsWithin first last excludeEnds ↔
      (first ≤ t ∧ t ≤ last) ∧ s.firesAt t = .ok true ∧
        (excludeEnds → t ≠ first ∧ t ≠ last) := by
  cases excludeEnds <;> simp [eventsWithin, dropEnds, mem_eventsUpTo_some, and_assoc]

theorem dropEnds_sublist (first last : Minute) (excludeEnds : Bool) (events : List Minute) :
    (dropEnds first last excludeEnds events).Sublist events := by
  cases excludeEnds with
  | false => exact List.Sublist.refl events
  | true => exact List.filter_sublist

theorem dropEnds_prefix {events more : List Minute} (first last : Minute) (excludeEnds : Bool)
    (h : events <+: more) :
    dropEnds first last excludeEnds events <+: dropEnds first last excludeEnds more := by
  cases excludeEnds with
  | false => exact h
  | true => exact h.filter _

theorem Schedule.pairwise_eventsWithin (s : Schedule) (first last : Minute) (excludeEnds : Bool) :
    (s.eventsWithin first last excludeEnds).Pairwise (· < ·) :=
  (s.pairwise_eventsUpTo last _).sublist (dropEnds_sublist first last excludeEnds _)

theorem Schedule.eventsUpTo_of_late (late : last < first) : s.eventsUpTo last (some first) = [] := by
  rw [eventsUpTo, minutesUpTo, if_neg (not_le.mpr late), List.filter_nil]

theorem Schedule.eventsUpTo_of_fires (fires : s.firesAt r = .ok true) (inTime : r ≤ last) :
    s.eventsUpTo last (some r) = r :: s.eventsUpTo last r.next? := by
  rw [eventsUpTo, minutesUpTo, if_pos inTime, List.filter_cons_of_pos (by simpa using fires)]
  rfl

/-- Before the nearest event there is nothing to list. -/
theorem Schedule.NearestEvent.eventsUpTo_eq (h : s.NearestEvent .forward x r) (last : Minute) :
    s.eventsUpTo last (some x) = s.eventsUpTo last (some r) := by
  apply (s.pairwise_eventsUpTo last _).eq_of_mem_iff (s.pairwise_eventsUpTo last _)
  intro t
  rw [mem_eventsUpTo_some, mem_eventsUpTo_some]
  constructor
  · rintro ⟨⟨hxt, htl⟩, fires⟩
    exact ⟨⟨h.nearest t fires hxt, htl⟩, fires⟩
  · rintro ⟨⟨hrt, htl⟩, fires⟩
    have hxr : x ≤ r := h.reached
    exact ⟨⟨hxr.trans hrt, htl⟩, fires⟩

end Events

theorem EventRun.pull_some {s : Schedule} {d : Direction} {event : Minute}
    {following : Option Minute} (h : s.nearest d event false = .ok following) :
    EventRun.pull ⟨s, d, some event⟩ = .ok (some event, ⟨s, d, following⟩) := by
  simp only [pull, h, ok_bind]

section Run

variable {s : Schedule} {m last : Minute} {inclusive : Bool} {upcoming : Option Minute}

/-- Where the event that a run holds ready is too late, the run lists nothing. -/
theorem Schedule.Allowed.run_stops (allowed : s.Allowed)
    (found : s.nearest .forward m inclusive = .ok upcoming)
    (late : ∀ r, upcoming = some r → last < r) :
    EventRun.Collects last ⟨s, .forward, upcoming⟩ [] ∧
      (∀ count, EventRun.upTo last count ⟨s, .forward, upcoming⟩ = .ok []) ∧
      (s.Dense → s.eventsUpTo last (Direction.forward.start? m inclusive) = []) := by
  cases upcoming with
  | none =>
    refine ⟨.ended rfl, ?_, ?_⟩
    · intro count
      cases count <;> rfl
    · intro dense
      obtain ⟨found', hn, silent⟩ := dense.nearest_none_iff allowed .forward m inclusive
      cases Except.ok.inj (found.symm.trans hn)
      cases hs : Direction.forward.start? m inclusive with
      | none => simp [Schedule.eventsUpTo, minutesUpTo]
      | some x =>
        apply List.eq_nil_iff_forall_not_mem.mpr
        intro t ht
        obtain ⟨⟨hxt, -⟩, fires⟩ := Schedule.mem_eventsUpTo_some.mp ht
        have := silent.mp rfl x hs t hxt
        simp [fires] at this
  | some r =>
    obtain ⟨following, hf, -⟩ := allowed.nearest_found .forward r false
    obtain ⟨x, hx, n, -, finds⟩ := allowed.nearest_eq_some_iff.mp found
    have hlate := late r rfl
    refine ⟨.past (EventRun.pull_some hf) hlate, ?_, ?_⟩
    · intro count
      cases count with
      | zero => rfl
      | succ count =>
        rw [EventRun.upTo, EventRun.pull_some hf, ok_bind]
        simp only [if_neg (not_le.mpr hlate)]
    · intro _
      rw [hx, (finds.nearest allowed).eventsUpTo_eq, Schedule.eventsUpTo_of_late hlate]

/-- A run pulled up to a minute lists the events in order from its start on. It may give up too
early, but only in a schedule that is not dense. -/
theorem Schedule.Allowed.run_lists (allowed : s.Allowed) (last : Minute) (count : Nat)
    (found : s.nearest .forward m inclusive = .ok upcoming)
    (enough : ∀ x, Direction.forward.start? m inclusive = some x → last.rank < x.rank + count) :
    ∃ events, EventRun.upTo last count ⟨s, .forward, upcoming⟩ = .ok events ∧
      EventRun.Collects last ⟨s, .forward, upcoming⟩ events ∧
      events <+: s.eventsUpTo last (Direction.forward.start? m inclusive) ∧
      (s.Dense → events = s.eventsUpTo last (Direction.forward.start? m inclusive)) := by
  induction count generalizing m inclusive upcoming with
  | zero =>
    have late : ∀ r, upcoming = some r → last < r := by
      rintro r rfl
      obtain ⟨x, hx, n, -, finds⟩ := allowed.nearest_eq_some_iff.mp found
      have hlast : last < x := Minute.lt_iff_rank.mpr (by simpa using enough x hx)
      exact hlast.trans_le (finds.nearest allowed).reached
    obtain ⟨collects, stops, none_left⟩ := allowed.run_stops found late
    exact ⟨[], stops 0, collects, List.nil_prefix, fun dense => (none_left dense).symm⟩
  | succ count ih =>
    by_cases late : ∀ r, upcoming = some r → last < r
    · obtain ⟨collects, stops, none_left⟩ := allowed.run_stops found late
      exact ⟨[], stops _, collects, List.nil_prefix, fun dense => (none_left dense).symm⟩
    · simp only [not_forall, not_lt] at late
      obtain ⟨r, rfl, inTime⟩ := late
      obtain ⟨x, hx, n, -, finds⟩ := allowed.nearest_eq_some_iff.mp found
      have hr := finds.nearest allowed
      obtain ⟨following, hf, -⟩ := allowed.nearest_found .forward r false
      obtain ⟨events, hup, collects, initial, all⟩ := ih hf (by
        intro next hnext
        have hlt := Minute.lt_iff_rank.mp (Minute.next?_nearest hnext).1
        have hle := Minute.le_iff_rank.mp hr.reached
        have := enough x hx
        omega)
      have listed : s.eventsUpTo last (Direction.forward.start? m inclusive) =
          r :: s.eventsUpTo last (Direction.forward.start? r false) := by
        rw [hx, hr.eventsUpTo_eq, Schedule.eventsUpTo_of_fires hr.fires inTime]
        rfl
      refine ⟨r :: events, ?_, .event (EventRun.pull_some hf) inTime collects, ?_, ?_⟩
      · rw [EventRun.upTo, EventRun.pull_some hf, ok_bind]
        simp only [if_pos inTime, hup, ok_bind]
      · rw [listed]
        exact (List.prefix_cons_inj r).mpr initial
      · intro dense
        rw [listed, all dense]

end Run

/-- A list of events between two instants breaks off by itself. It is an initial part of what
walking from minute to minute gives, and in a dense schedule it is all of that. -/
theorem Schedule.between_lists_events {text : String} {s : Schedule}
    (parsed : Schedule.parse text = .ok s) (first last : Instant) (excludeEnds : Bool) :
    ∃ run pulled events, s.run .forward first.minute true = .ok run ∧
      run.Collects last.minute pulled ∧
      s.between first last excludeEnds = .ok events ∧
      events = dropEnds first.minute last.minute excludeEnds pulled ∧
      events.Pairwise (· < ·) ∧
      events <+: s.eventsWithin first.minute last.minute excludeEnds ∧
      (s.Dense → events = s.eventsWithin first.minute last.minute excludeEnds) ∧
      (last.minute < first.minute → events = []) := by
  have allowed := Schedule.parse_allowed parsed
  obtain ⟨upcoming, found, -⟩ := allowed.nearest_found .forward first.minute true
  obtain ⟨pulled, hup, collects, initial, all⟩ := allowed.run_lists last.minute
    ((last.minute.rank - first.minute.rank).toNat + 1) found (by
      rintro x ⟨rfl⟩
      omega)
  have part : dropEnds first.minute last.minute excludeEnds pulled <+:
      s.eventsWithin first.minute last.minute excludeEnds := dropEnds_prefix _ _ _ initial
  have empty : last.minute < first.minute →
      dropEnds first.minute last.minute excludeEnds pulled = [] := by
    intro late
    rw [Schedule.eventsWithin, Schedule.eventsUpTo_of_late late] at part
    exact List.sublist_nil.mp (part.sublist.trans (dropEnds_sublist _ _ excludeEnds []))
  have started : s.run .forward first.minute true = .ok ⟨s, .forward, upcoming⟩ := by
    rw [Schedule.run, found]
    rfl
  refine ⟨_, pulled, _, started, collects, ?_, rfl,
    (s.pairwise_eventsWithin _ _ excludeEnds).sublist part.sublist, part, ?_, empty⟩
  · unfold Schedule.between
    split
    next late => rw [empty late]
    next =>
      simp only [started, ok_bind, hup]
      rfl
  · intro dense
    rw [all dense]
    rfl

def Minute.clock (year : Int) (month day hour minute : Nat)
    (h : (Minute.ofCivil? year month day hour minute).isSome) : Minute :=
  (Minute.ofCivil? year month day hour minute).get h

/-- Three minutes of every hour, in two years. -/
def thriceHourly : Schedule where
  expression := "0/23 * * * ? 2021-2022"
  minute := FieldSet.ofList [0, 23, 46]
  hour := FieldSet.ofList (List.range 24)
  days := .daysOfMonth (FieldSet.ofList (List.range' 1 31))
  month := FieldSet.ofList (List.range' 1 12)
  year := FieldSet.ofList [2021, 2022]

theorem parse_thriceHourly :
    Schedule.parse "0/23 * * * ? 2021-2022" = .ok thriceHourly := by
  decide +kernel

theorem dense_thriceHourly : thriceHourly.Dense :=
  (Schedule.parse_allowed parse_thriceHourly).dense ⟨1, by decide +kernel, by decide⟩

def newYearsEve2021 : Instant :=
  (Instant.of? (.clock 2021 12 31 23 23 (by decide)) 57 0).get (by decide)

def newYearsDay2022 : Instant :=
  (Instant.of? (.clock 2022 1 1 0 23 (by decide)) 10 0).get (by decide)

def lateEvent2021 : Minute := .clock 2021 12 31 23 46 (by decide)

def newYear2022 : Minute := .midnight 2022 1 1 (by decide)

/-- Both ends are events and left out, and a year begins in between. In the sparse schedule the list
breaks off before the first event. -/
theorem Schedule.between_over_new_year :
    (thriceHourly.between newYearsEve2021 newYearsDay2022 true =
        .ok [.clock 2021 12 31 23 46 (by decide), .clock 2022 1 1 0 0 (by decide)] ∧
      thriceHourly.eventsWithin newYearsEve2021.minute newYearsDay2022.minute true =
        [.clock 2021 12 31 23 46 (by decide), .clock 2022 1 1 0 0 (by decide)]) ∧
    (leapDays.between (Minute.midnight 2001 1 1 (by decide)).start leapDay2020.start false =
        .ok [] ∧
      leapDay2016 ∈ leapDays.eventsWithin (.midnight 2001 1 1 (by decide)) leapDay2020 false) := by
  have listed : thriceHourly.between newYearsEve2021 newYearsDay2022 true =
      .ok [.clock 2021 12 31 23 46 (by decide), .clock 2022 1 1 0 0 (by decide)] := by
    decide +kernel
  obtain ⟨-, -, events, -, -, between, -, -, -, all, -⟩ :=
    Schedule.between_lists_events parse_thriceHourly newYearsEve2021 newYearsDay2022 true
  cases Except.ok.inj (listed.symm.trans between)
  refine ⟨⟨listed, (all dense_thriceHourly).symm⟩, by decide +kernel, ?_⟩
  exact Schedule.mem_eventsWithin.mpr ⟨by decide, by decide +kernel, by simp⟩

end CronTimes
