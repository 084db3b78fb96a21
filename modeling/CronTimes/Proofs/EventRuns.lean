import CronTimes.Proofs.OppositeRuns

namespace CronTimes

/-- Pulls from a run, one after another, give events or nothing and leave a run. -/
inductive EventRun.Pulls : EventRun → List (Option Minute) → EventRun → Prop
  | stop {run : EventRun} : Pulls run [] run
  | pull {run next rest : EventRun} {event : Option Minute} {events : List (Option Minute)}
      (first : run.pull = .ok (event, next)) (more : Pulls next events rest) :
      Pulls run (event :: events) rest

/-- Pulls made in groups of given sizes, each from the run that the group before has left. -/
def EventRun.pullGroups :
    List Nat → EventRun → Except CalendarFault (List (List (Option Minute)) × EventRun)
  | [], run => .ok ([], run)
  | size :: sizes, run => do
    let (events, run) ← run.pullN size
    let (groups, run) ← run.pullGroups sizes
    .ok (events :: groups, run)

/-- Lists of lookups and runs of events come down to single lookups: the first one from the start,
every further one from the event before, which it leaves out. Where a lookup finds nothing, nothing
follows. -/
structure ComeDownToLookups (d : Direction)
    (lookup : Instant → Bool → Except CalendarFault (Option Minute))
    (list : Instant → Nat → Bool → Except CalendarFault (List (Option Minute)))
    (opened : Instant → Except CalendarFault EventRun) : Prop where
  single (i : Instant) (inclusive : Bool) :
    ∃ found, lookup i inclusive = .ok found ∧ list i 1 inclusive = .ok [found]
  ordered (i : Instant) (count : Nat) (inclusive : Bool) :
    ∃ (events : List Minute) (missing : Nat),
      list i count inclusive = .ok (events.map some ++ List.replicate missing none) ∧
        events.length + missing = count ∧ events.Pairwise d.Before
  split (i : Instant) (count more : Nat) (inclusive : Bool) (positive : 1 ≤ count) :
    ∃ first rest, list i count inclusive = .ok first ∧
      list i (count + more) inclusive = .ok (first ++ rest) ∧
        ((∃ e, first.getLast? = some (some e) ∧ list e.start more false = .ok rest) ∨
          first.getLast? = some none ∧ rest = List.replicate more none)
  pulls (i : Instant) (sizes : List Nat) :
    ∃ run groups rest, opened i = .ok run ∧ run.pullGroups sizes = .ok (groups, rest) ∧
      groups.map List.length = sizes ∧
        list i groups.flatten.length false = .ok groups.flatten
  ended (i : Instant) (count more : Nat) :
    ∃ run pulled rest, opened i = .ok run ∧ run.pullN count = .ok (pulled, rest) ∧
      (none ∈ pulled → rest.pullN more = .ok (List.replicate more none, rest))

theorem Schedule.run_eq_ok {s : Schedule} {d : Direction} {m : Minute} {inclusive : Bool}
    {upcoming : Option Minute} (found : s.nearest d m inclusive = .ok upcoming) :
    s.run d m inclusive = .ok ⟨s, d, upcoming⟩ := by
  rw [run, found]
  rfl

section Pulls

variable {run mid rest : EventRun} {events more : List (Option Minute)} {count : Nat}

theorem EventRun.pullN_eq_ok_iff :
    run.pullN count = .ok (events, rest) ↔ events.length = count ∧ run.Pulls events rest := by
  induction count generalizing run events with
  | zero =>
    rw [pullN, List.length_eq_zero_iff]
    constructor
    · intro h
      cases Except.ok.inj h
      exact ⟨rfl, .stop⟩
    · intro h
      obtain ⟨none, pulls⟩ := h
      subst none
      cases pulls
      rfl
  | succ count ih =>
    rw [pullN]
    constructor
    · intro h
      obtain ⟨pulled, first, h⟩ := bind_eq_ok h
      obtain ⟨others, more, h⟩ := bind_eq_ok h
      cases Except.ok.inj h
      obtain ⟨length, pulls⟩ := ih.mp more
      exact ⟨congrArg (· + 1) length, .pull first pulls⟩
    · intro h
      obtain ⟨length, pulls⟩ := h
      cases pulls with
      | stop => simp at length
      | pull first pulls =>
        have more := ih.mpr ⟨Nat.add_right_cancel length, pulls⟩
        simp only [first, more, ok_bind]

theorem EventRun.Pulls.append (h : run.Pulls events mid) (h' : mid.Pulls more rest) :
    run.Pulls (events ++ more) rest := by
  induction h with
  | stop => exact h'
  | pull first _ ih => exact .pull first (ih h')

/-- What a number of pulls gives is determined by the run. -/
theorem EventRun.Pulls.unique (h : run.Pulls events mid) (h' : run.Pulls more rest)
    (length : events.length = more.length) : events = more ∧ mid = rest := by
  have same := (pullN_eq_ok_iff.mpr ⟨length, h⟩).symm.trans (pullN_eq_ok_iff.mpr ⟨rfl, h'⟩)
  exact Prod.mk.inj (Except.ok.inj same)

theorem EventRun.pull_none (h : run.upcoming = none) : run.pull = .ok (none, run) := by
  simp only [pull, h]

/-- A run that has ended stays so. -/
theorem EventRun.pulls_none (h : run.upcoming = none) (count : Nat) :
    run.Pulls (List.replicate count none) run := by
  induction count with
  | zero => exact .stop
  | succ count ih => exact .pull (pull_none h) ih

theorem EventRun.pull_eq_ok_none (h : run.pull = .ok (none, rest)) :
    rest = run ∧ run.upcoming = none := by
  unfold pull at h
  split at h
  next ended =>
    cases Except.ok.inj h
    exact ⟨rfl, ended⟩
  next =>
    obtain ⟨following, -, h⟩ := bind_eq_ok h
    simp at h

theorem EventRun.pull_eq_ok_some {e : Minute} (h : run.pull = .ok (some e, rest)) :
    run.upcoming = some e ∧ ∃ following,
      run.schedule.nearest run.direction e false = .ok following ∧
        rest = ⟨run.schedule, run.direction, following⟩ := by
  unfold pull at h
  split at h
  next => simp at h
  next event here =>
    obtain ⟨following, hf, h⟩ := bind_eq_ok h
    cases Except.ok.inj h
    exact ⟨here, following, hf, rfl⟩

theorem EventRun.pull_keeps {event : Option Minute} (h : run.pull = .ok (event, rest)) :
    rest.schedule = run.schedule ∧ rest.direction = run.direction := by
  cases event with
  | none =>
    obtain ⟨same, -⟩ := pull_eq_ok_none h
    exact same ▸ ⟨rfl, rfl⟩
  | some e =>
    obtain ⟨-, following, -, same⟩ := pull_eq_ok_some h
    exact same ▸ ⟨rfl, rfl⟩

theorem EventRun.Pulls.upcoming_none (h : run.Pulls events rest) (ended : none ∈ events) :
    rest.upcoming = none := by
  induction h with
  | stop => simp at ended
  | @pull run next rest event events first more ih =>
    by_cases later : none ∈ events
    · exact ih later
    · cases (List.mem_cons.mp ended).resolve_right later
      obtain ⟨rfl, now⟩ := pull_eq_ok_none first
      have stays := pulls_none now events.length
      obtain ⟨-, rfl⟩ := more.unique stays (by simp)
      exact now

/-- After an event a run is where a lookup from that event would open it. -/
theorem EventRun.Pulls.run_of_last {e : Minute} (h : run.Pulls (events ++ [some e]) rest) :
    run.schedule.run run.direction e false = .ok rest := by
  induction events generalizing run with
  | nil =>
    cases h with
    | pull first more =>
      cases more
      obtain ⟨-, following, hf, same⟩ := pull_eq_ok_some first
      rw [same, Schedule.run_eq_ok hf]
  | cons event events ih =>
    cases h with
    | pull first more =>
      obtain ⟨schedule, direction⟩ := pull_keeps first
      rw [← schedule, ← direction]
      exact ih more

theorem EventRun.Pulls.ordered (h : run.Pulls events rest) (allowed : run.schedule.Allowed) :
    ∃ (found : List Minute) (missing : Nat),
      events = found.map some ++ List.replicate missing none ∧
        (∀ f ∈ found, ∃ e, run.upcoming = some e ∧ run.direction.Reaches e f) ∧
          found.Pairwise run.direction.Before := by
  induction h with
  | stop => exact ⟨[], 0, rfl, by simp, List.Pairwise.nil⟩
  | @pull run next rest event events first more ih =>
    cases event with
    | none =>
      obtain ⟨rfl, ended⟩ := pull_eq_ok_none first
      obtain ⟨same, -⟩ := more.unique (pulls_none ended events.length) (by simp)
      exact ⟨[], events.length + 1, by rw [same, List.length_replicate]; rfl, by simp,
        List.Pairwise.nil⟩
    | some e =>
      obtain ⟨here, following, hf, rfl⟩ := pull_eq_ok_some first
      obtain ⟨found, missing, rfl, reached, ordered⟩ := ih allowed
      have later : ∀ f ∈ found, run.direction.Before e f := by
        intro f member
        obtain ⟨e', upcoming, reaches⟩ := reached f member
        have leads : run.schedule.Leads run.direction e e' := hf.trans (congrArg _ upcoming)
        exact (leads.before allowed).trans_reaches reaches
      refine ⟨e :: found, missing, rfl, ?_, List.pairwise_cons.mpr ⟨later, ordered⟩⟩
      intro f member
      refine ⟨e, here, ?_⟩
      rcases List.mem_cons.mp member with same | member
      · exact same ▸ run.direction.reaches_refl e
      · exact (later f member).reaches

end Pulls

section Lookups

variable {s : Schedule} {d : Direction} {m : Minute} {inclusive : Bool} {count : Nat}
  {events : List (Option Minute)}

/-- A pull gives what the run holds ready, and the next value of a list of lookups is made ready. -/
theorem Schedule.Allowed.pull_follows (allowed : s.Allowed) (d : Direction)
    (upcoming : Option Minute) :
    ∃ following, EventRun.pull ⟨s, d, upcoming⟩ = .ok (upcoming, ⟨s, d, following⟩) ∧
      ∀ count, s.follow d (count + 1) upcoming =
        (s.follow d count following).map (following :: ·) := by
  cases upcoming with
  | none => exact ⟨none, EventRun.pull_none rfl, fun count => rfl⟩
  | some e =>
    obtain ⟨following, hf, -⟩ := allowed.nearest_found d e false
    refine ⟨following, EventRun.pull_some hf, ?_⟩
    intro count
    rw [Schedule.follow, hf, ok_bind]
    rfl

theorem Schedule.Allowed.follow_pulls (allowed : s.Allowed) (d : Direction) (count : Nat)
    (upcoming : Option Minute) :
    ∃ events following, s.follow d count upcoming = .ok events ∧ events.length = count ∧
      EventRun.Pulls ⟨s, d, upcoming⟩ (upcoming :: events) ⟨s, d, following⟩ := by
  induction count generalizing upcoming with
  | zero =>
    obtain ⟨following, first, -⟩ := allowed.pull_follows d upcoming
    exact ⟨[], following, by cases upcoming <;> rfl, rfl, .pull first .stop⟩
  | succ count ih =>
    obtain ⟨next, first, follows⟩ := allowed.pull_follows d upcoming
    obtain ⟨events, following, hf, length, pulls⟩ := ih next
    refine ⟨next :: events, following, ?_, congrArg (· + 1) length, .pull first pulls⟩
    rw [follows, hf]
    rfl

theorem Schedule.Allowed.pulls_exist (allowed : s.Allowed) (d : Direction) (count : Nat)
    (upcoming : Option Minute) :
    ∃ events following, events.length = count ∧
      EventRun.Pulls ⟨s, d, upcoming⟩ events ⟨s, d, following⟩ := by
  cases count with
  | zero => exact ⟨[], upcoming, rfl, .stop⟩
  | succ count =>
    obtain ⟨events, following, -, length, pulls⟩ := allowed.follow_pulls d count upcoming
    exact ⟨upcoming :: events, following, congrArg (· + 1) length, pulls⟩

/-- Lists of lookups are what pulls from a run give. -/
theorem Schedule.Allowed.sequence_eq_ok_iff (allowed : s.Allowed) :
    s.sequence d m count inclusive = .ok events ↔
      ∃ run rest, s.run d m inclusive = .ok run ∧ events.length = count ∧
        run.Pulls events rest := by
  obtain ⟨upcoming, found, -⟩ := allowed.nearest_found d m inclusive
  have opened := Schedule.run_eq_ok found
  have pulls : ∃ events rest, s.sequence d m count inclusive = .ok events ∧
      events.length = count ∧ EventRun.Pulls ⟨s, d, upcoming⟩ events rest := by
    cases count with
    | zero => exact ⟨[], _, rfl, rfl, .stop⟩
    | succ count =>
      obtain ⟨events, following, hf, length, pulls⟩ := allowed.follow_pulls d count upcoming
      refine ⟨upcoming :: events, _, ?_, congrArg (· + 1) length, pulls⟩
      rw [Schedule.sequence, found, ok_bind, hf, ok_bind]
  obtain ⟨listed, rest, hl, length, pulls⟩ := pulls
  constructor
  · intro h
    cases Except.ok.inj (hl.symm.trans h)
    exact ⟨_, rest, opened, length, pulls⟩
  · intro h
    obtain ⟨run, rest', opened', length', pulls'⟩ := h
    cases Except.ok.inj (opened.symm.trans opened')
    rw [hl, (pulls.unique pulls' (length.trans length'.symm)).1]

theorem Schedule.Allowed.sequence_ordered (allowed : s.Allowed) (d : Direction) (m : Minute)
    (count : Nat) (inclusive : Bool) :
    ∃ (found : List Minute) (missing : Nat), s.sequence d m count inclusive =
        .ok (found.map some ++ List.replicate missing none) ∧
      found.length + missing = count ∧ found.Pairwise d.Before := by
  obtain ⟨upcoming, hf, -⟩ := allowed.nearest_found d m inclusive
  obtain ⟨events, following, length, pulls⟩ := allowed.pulls_exist d count upcoming
  obtain ⟨found, missing, rfl, -, ordered⟩ := pulls.ordered allowed
  refine ⟨found, missing, ?_, by simpa using length, ordered⟩
  exact allowed.sequence_eq_ok_iff.mpr ⟨_, _, Schedule.run_eq_ok hf, length, pulls⟩

/-- A list goes on from its last event as a list of its own, and after nothing with nothing. -/
theorem Schedule.Allowed.sequence_split (allowed : s.Allowed) (d : Direction) (m : Minute)
    {count : Nat} (more : Nat) (inclusive : Bool) (positive : 1 ≤ count) :
    ∃ first rest, s.sequence d m count inclusive = .ok first ∧
      s.sequence d m (count + more) inclusive = .ok (first ++ rest) ∧
        ((∃ e, first.getLast? = some (some e) ∧ s.sequence d e more false = .ok rest) ∨
          first.getLast? = some none ∧ rest = List.replicate more none) := by
  obtain ⟨upcoming, hf, -⟩ := allowed.nearest_found d m inclusive
  have opened := Schedule.run_eq_ok hf
  obtain ⟨first, following, length, pulls⟩ := allowed.pulls_exist d count upcoming
  obtain ⟨rest, last, length', pulls'⟩ := allowed.pulls_exist d more following
  refine ⟨first, rest, allowed.sequence_eq_ok_iff.mpr ⟨_, _, opened, length, pulls⟩,
    allowed.sequence_eq_ok_iff.mpr
      ⟨_, _, opened, by rw [List.length_append, length, length'], pulls.append pulls'⟩, ?_⟩
  have nonempty : first ≠ [] := List.ne_nil_of_length_pos (by omega)
  obtain ⟨front, event, rfl⟩ := (List.eq_nil_or_concat' first).resolve_left nonempty
  cases event with
  | none =>
    have ended := pulls.upcoming_none (by simp)
    obtain ⟨same, -⟩ := pulls'.unique (EventRun.pulls_none ended more) (by simp [length'])
    exact Or.inr ⟨List.getLast?_concat .., same⟩
  | some e =>
    exact Or.inl ⟨e, List.getLast?_concat ..,
      allowed.sequence_eq_ok_iff.mpr ⟨_, _, pulls.run_of_last, length', pulls'⟩⟩

/-- However pulls are grouped, they give the same events. -/
theorem Schedule.Allowed.pullGroups_pulls (allowed : s.Allowed) (d : Direction) (sizes : List Nat)
    (upcoming : Option Minute) :
    ∃ groups rest, EventRun.pullGroups sizes ⟨s, d, upcoming⟩ = .ok (groups, rest) ∧
      groups.map List.length = sizes ∧
        EventRun.Pulls ⟨s, d, upcoming⟩ groups.flatten rest := by
  induction sizes generalizing upcoming with
  | nil => exact ⟨[], _, rfl, rfl, .stop⟩
  | cons size sizes ih =>
    obtain ⟨events, following, length, pulls⟩ := allowed.pulls_exist d size upcoming
    obtain ⟨groups, rest, hg, lengths, pulls'⟩ := ih following
    refine ⟨events :: groups, rest, ?_, by rw [List.map_cons, length, lengths],
      pulls.append pulls'⟩
    simp only [EventRun.pullGroups, EventRun.pullN_eq_ok_iff.mpr ⟨length, pulls⟩, hg, ok_bind]

theorem Schedule.Allowed.come_down_to_lookups (allowed : s.Allowed) (d : Direction) :
    ComeDownToLookups d (fun i inclusive => s.nearest d i.minute inclusive)
      (fun i count inclusive => s.sequence d i.minute count inclusive)
      (fun i => s.run d i.minute false) where
  single i inclusive := by
    obtain ⟨found, hf, -⟩ := allowed.nearest_found d i.minute inclusive
    refine ⟨found, hf, ?_⟩
    rw [Schedule.sequence, hf, ok_bind]
    rfl
  ordered i count inclusive := allowed.sequence_ordered d i.minute count inclusive
  split i count more inclusive positive :=
    allowed.sequence_split d i.minute more inclusive positive
  pulls i sizes := by
    obtain ⟨upcoming, hf, -⟩ := allowed.nearest_found d i.minute false
    have opened := Schedule.run_eq_ok hf
    obtain ⟨groups, rest, hg, lengths, pulls⟩ := allowed.pullGroups_pulls d sizes upcoming
    exact ⟨_, groups, rest, opened, hg, lengths,
      allowed.sequence_eq_ok_iff.mpr ⟨_, rest, opened, rfl, pulls⟩⟩
  ended i count more := by
    obtain ⟨upcoming, hf, -⟩ := allowed.nearest_found d i.minute false
    obtain ⟨pulled, following, length, pulls⟩ := allowed.pulls_exist d count upcoming
    refine ⟨_, pulled, _, Schedule.run_eq_ok hf, EventRun.pullN_eq_ok_iff.mpr ⟨length, pulls⟩, ?_⟩
    intro missed
    exact EventRun.pullN_eq_ok_iff.mpr
      ⟨List.length_replicate, EventRun.pulls_none (pulls.upcoming_none missed) more⟩

end Lookups

/-- Lists and runs are the same lookups, in either direction. Every lookup starts afresh, with all
the passes that a lookup has. -/
theorem Schedule.lists_and_runs_come_down_to_lookups {text : String} {s : Schedule}
    (parsed : Schedule.parse text = .ok s) :
    ComeDownToLookups .forward s.next s.nextN s.upcoming ∧
      ComeDownToLookups .backward s.prev s.prevN s.preceding := by
  have allowed := Schedule.parse_allowed parsed
  exact ⟨allowed.come_down_to_lookups .forward, allowed.come_down_to_lookups .backward⟩

def lateOnNewYearsEve2022 : Instant :=
  (Instant.of? (.clock 2022 12 31 23 23 (by decide)) 40 0).get (by decide)

def lastEvent2022 : Minute := .clock 2022 12 31 23 46 (by decide)

/-- The last two events of a schedule. The list from the first one on is the rest of the list that
includes it, and so are the pulls, grouped in a way that stops on both sides of the end. -/
theorem Schedule.lists_and_runs_past_last_event :
    (thriceHourly.nextN lateOnNewYearsEve2022 3 true =
        .ok [some lateOnNewYearsEve2022.minute, some lastEvent2022, none] ∧
      thriceHourly.nextN lateOnNewYearsEve2022.minute.start 2 false =
        .ok [some lastEvent2022, none]) ∧
    ∃ run groups rest, thriceHourly.upcoming lateOnNewYearsEve2022 = .ok run ∧
      run.pullGroups [1, 0, 2] = .ok (groups, rest) ∧ groups.map List.length = [1, 0, 2] ∧
        groups.flatten = [some lastEvent2022, none, none] := by
  have one : thriceHourly.nextN lateOnNewYearsEve2022 1 true =
      .ok [some lateOnNewYearsEve2022.minute] := by
    decide +kernel
  have three : thriceHourly.nextN lateOnNewYearsEve2022 (1 + 2) true =
      .ok [some lateOnNewYearsEve2022.minute, some lastEvent2022, none] := by
    decide +kernel
  have after : thriceHourly.nextN lateOnNewYearsEve2022 3 false =
      .ok [some lastEvent2022, none, none] := by
    decide +kernel
  have laws := (Schedule.lists_and_runs_come_down_to_lookups parse_thriceHourly).1
  refine ⟨⟨three, ?_⟩, ?_⟩
  · obtain ⟨first, rest, hf, hs, goesOn⟩ :=
      laws.split lateOnNewYearsEve2022 1 2 true (Nat.le_refl 1)
    cases Except.ok.inj (one.symm.trans hf)
    cases Except.ok.inj (three.symm.trans hs)
    rcases goesOn with ⟨e, last, hr⟩ | ⟨last, -⟩
    · cases Option.some.inj (Option.some.inj last)
      exact hr
    · simp at last
  · obtain ⟨run, groups, rest, opened, pulled, lengths, listed⟩ :=
      laws.pulls lateOnNewYearsEve2022 [1, 0, 2]
    rw [List.length_flatten, lengths] at listed
    exact ⟨run, groups, rest, opened, pulled, lengths, Except.ok.inj (listed.symm.trans after)⟩

end CronTimes
