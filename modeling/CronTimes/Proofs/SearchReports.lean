import CronTimes.Proofs.GapDepth
import CronTimes.Proofs.NearestEvents

namespace CronTimes

/-- What the report of a retry stands for: the next anchor is the first minute to be met past the
reported span, it opens a unit of time of that kind, and nothing was missed on the way to it. -/
structure Schedule.Hop (s : Schedule) (d : Direction) (x : Minute) (span : Span) (next : Minute) :
    Prop where
  onward : d.Before x next
  past : ∀ u ∈ span, d.Before u next
  first : ∀ t, (∀ u ∈ span, d.Before u t) → d.Reaches next t
  opens : ∀ unit : Span, unit.depth = span.depth → next ∈ unit → ∀ t ∈ unit, d.Reaches next t
  silent : ∀ t, d.Reaches x t → d.Before t next → s.firesAt t = .ok false

/-- Reports of a number of retries that lead from the first minute to the second one. Depths count
on from the given one. -/
inductive Schedule.Trail (s : Schedule) (d : Direction) :
    (depth retries : Nat) → Minute → List SearchEvent → Minute → Prop
  | stay {depth : Nat} {x : Minute} : Trail s d depth 0 x [] x
  | retry {depth retries : Nat} {x next last : Minute} {span : Span} {log : List SearchEvent}
      (hop : s.Hop d x span next) (rest : Trail s d (depth + 1) retries next log last) :
      Trail s d depth (retries + 1) x (.gap span :: .retry depth x next :: log) last

/-- A search that may make some passes from a minute reports its retries, and then why it ends
without an event: there is no year left, or the passes are used up. -/
def Schedule.Reports (s : Schedule) (d : Direction) (passes depth : Nat) (x : Minute)
    (result : SearchResult) : Prop :=
  ∃ retries log last, s.Trail d depth retries x log last ∧
    (retries < passes ∧ result.found.isSome ∧ result.log = log ∨
      retries < passes ∧ result = ⟨none, log ++ [.noMoreYears last]⟩ ∧
        (∀ y ∈ s.year.toList, ¬ d.Reaches last.date.year y) ∨
      retries = passes ∧ result = ⟨none, log ++ [.tooDeep last]⟩)

section Reports

variable {s : Schedule} {d : Direction} {x next : Minute} {span : Span} {passes depth : Nat}
  {rest : SearchResult}

theorem Schedule.Skips.hop (skips : s.Skips d x span next) (allowed : s.Allowed) :
    s.Hop d x span next where
  onward := skips.before allowed
  past _ hu := Direction.before_beyond? skips.2 hu
  first _ ht := Direction.beyond?_reaches skips.2 ht
  opens unit hd hn := Direction.opens_beyond skips.2 unit hn hd.ge
  silent t hxt htn := by
    apply allowed.firesAt_false
    intro fires
    exact htn.not_reaches (skips.reaches_event allowed fires hxt)

/-- A pass runs out of years only where the schedule has no year left. -/
theorem Schedule.Allowed.no_year_left (allowed : s.Allowed) (h : s.passAt d x = .noYear) :
    ∀ y ∈ s.year.toList, ¬ d.Reaches x.date.year y := by
  rw [Schedule.passAt, Direction.descend] at h
  split at h
  next hp =>
    intro y hy
    have hb := Direction.pick_eq_none_iff.mp hp y hy
    have hyear := allowed.year_bounds hy
    cases d <;> simp only [Direction.Reaches] at * <;> omega
  next y hp =>
    have lands : s.Lands (.year y) .noYear := h ▸ allowed.passIn_lands (Direction.pick_mem hp)
    exact lands.elim

theorem Schedule.Reports.retry (h : s.Reports d passes (depth + 1) next rest)
    (hop : s.Hop d x span next) :
    s.Reports d (passes + 1) depth x
      ⟨rest.found, .gap span :: .retry depth x next :: rest.log⟩ := by
  obtain ⟨retries, log, last, trail, ending⟩ := h
  refine ⟨retries + 1, _, last, .retry hop trail, ?_⟩
  rcases ending with ⟨few, found, rfl⟩ | ⟨few, rfl, none_left⟩ | ⟨spent, rfl⟩
  · exact Or.inl ⟨Nat.succ_lt_succ few, found, rfl⟩
  · exact Or.inr (Or.inl ⟨Nat.succ_lt_succ few, rfl, none_left⟩)
  · exact Or.inr (Or.inr ⟨congrArg (· + 1) spent, rfl⟩)

theorem Schedule.Allowed.searchFrom_reports (allowed : s.Allowed) (d : Direction)
    (passes depth : Nat) (x : Minute) :
    ∃ result, s.searchFrom d passes depth x = .ok result ∧ s.Reports d passes depth x result := by
  induction passes generalizing depth x with
  | zero => exact ⟨_, rfl, 0, [], x, .stay, Or.inr (Or.inr ⟨rfl, rfl⟩)⟩
  | succ passes ih =>
    rw [Schedule.searchFrom, allowed.pass_eq, ok_bind]
    cases hp : s.passAt d x with
    | event found => exact ⟨_, rfl, 0, [], x, .stay, Or.inl ⟨Nat.succ_pos passes, rfl, rfl⟩⟩
    | gap span =>
      obtain ⟨next, skips⟩ := allowed.skips_exists hp
      obtain ⟨rest, hrest, reports⟩ := ih (depth + 1) next
      exact ⟨_, by simp only [skips.2, hrest, ok_bind], reports.retry (skips.hop allowed)⟩
    | noYear =>
      exact ⟨_, rfl, 0, [], x, .stay,
        Or.inr (Or.inl ⟨Nat.succ_pos passes, rfl, allowed.no_year_left hp⟩)⟩

end Reports

/-- The log of a search tells the truth: which way it took, that it missed nothing there, and why
it gave up. A search that cannot start has no log. -/
theorem Schedule.search_reports {text : String} {s : Schedule}
    (parsed : Schedule.parse text = .ok s) (d : Direction) (i : Instant) (inclusive : Bool) :
    ∃ result, s.search d i.minute inclusive = .ok result ∧
      s.nearest d i.minute inclusive = .ok result.found ∧
      (d.start? i.minute inclusive = none → result = ⟨none, []⟩) ∧
      (∀ a, d.start? i.minute inclusive = some a → s.Reports d 11 1 a result) := by
  have allowed := Schedule.parse_allowed parsed
  rw [Schedule.nearest, Schedule.search_eq]
  cases d.start? i.minute inclusive with
  | none => exact ⟨_, rfl, rfl, fun _ => rfl, by simp⟩
  | some a =>
    obtain ⟨result, hs, reports⟩ := allowed.searchFrom_reports d (maxRetries + 1) 1 a
    refine ⟨result, hs, by simp only [hs]; rfl, by simp, ?_⟩
    rintro b ⟨rfl⟩
    exact reports

def march2040 : Minute := .midnight 2040 3 1 (by decide)

def newYear2041 : Minute := .midnight 2041 1 1 (by decide)

/-- After the last leap day one retry leads past the last year. Too early before the first one all
passes are used up. -/
theorem Schedule.search_reports_leap_days :
    (leapDays.search .forward march2040 true =
        .ok ⟨none, [.gap (.year 2040), .retry 1 march2040 newYear2041, .noMoreYears newYear2041]⟩ ∧
      leapDays.Reports .forward 11 1 march2040
        ⟨none, [.gap (.year 2040), .retry 1 march2040 newYear2041, .noMoreYears newYear2041]⟩) ∧
    ∃ result, leapDays.search .forward (.midnight 2001 1 1 (by decide)) true = .ok result ∧
      result.log.getLast? = some (.tooDeep (.midnight 2007 3 1 (by decide))) ∧
      leapDays.Reports .forward 11 1 (.midnight 2001 1 1 (by decide)) result := by
  have few : leapDays.search .forward march2040 true =
      .ok ⟨none, [.gap (.year 2040), .retry 1 march2040 newYear2041, .noMoreYears newYear2041]⟩ := by
    decide +kernel
  have many : (leapDays.search .forward (.midnight 2001 1 1 (by decide)) true).map
      (fun result => result.log.getLast?) =
        .ok (some (.tooDeep (.midnight 2007 3 1 (by decide)))) := by
    decide +kernel
  obtain ⟨result, hs, -, -, reports⟩ :=
    Schedule.search_reports parse_leapDays .forward march2040.start true
  obtain ⟨result', hs', -, -, reports'⟩ :=
    Schedule.search_reports parse_leapDays .forward (Minute.midnight 2001 1 1 (by decide)).start true
  cases Except.ok.inj (few.symm.trans hs)
  refine ⟨⟨few, reports _ rfl⟩, result', hs', ?_, reports' _ rfl⟩
  have hs'' : leapDays.search .forward (.midnight 2001 1 1 (by decide)) true = .ok result' := hs'
  rw [hs''] at many
  exact Except.ok.inj many

end CronTimes
