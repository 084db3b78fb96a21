import CronTimes.Proofs.GapDepth
import CronTimes.Proofs.NearestEvents

namespace CronTimes

/-- A schedule has a day in every month that it selects. -/
def Schedule.Dense (s : Schedule) : Prop :=
  ∀ y ∈ s.year.toList, ∀ m ∈ s.month.toList,
    ∃ days, s.days.daysIn y m = .ok days ∧ days ≠ []

/-- The rules that pick a day in every month, however short. -/
def DayRule.PicksInEveryMonth : DayRule → Prop
  | .daysOfMonth days => ∃ day ∈ days.toList, day ≤ 28
  | .fromLast offset => offset ≤ 27
  | .weekdayNear day => day ≤ 28
  | .lastWeekday => True
  | .daysOfWeek _ => True
  | .lastOfWeek _ => True
  | .nthOfWeek _ nth => nth ≤ 4

def SearchEvent.isRetry : SearchEvent → Bool
  | .retry .. => true
  | _ => false

def SearchResult.retries (result : SearchResult) : Nat :=
  result.log.countP SearchEvent.isRetry

theorem SearchResult.retries_cons {found : Option Minute} {span : Span} {depth : Nat}
    {anchor next : Minute} {log : List SearchEvent} :
    retries ⟨found, .gap span :: .retry depth anchor next :: log⟩ = retries ⟨found, log⟩ + 1 := by
  simp [retries, List.countP_cons, SearchEvent.isRetry]

theorem DayRule.Allowed.daysIn_ne_nil {rule : DayRule} {year month : Nat} (allowed : rule.Allowed)
    (picks : rule.PicksInEveryMonth) (hy : year ≠ 0) (hm : 1 ≤ month ∧ month ≤ 12) :
    ∃ days, rule.daysIn year month = .ok days ∧ days ≠ [] := by
  have hlen : daysInMonth year month = .ok (monthLength year month) := daysInMonth_eq hm
  have hmin : 28 ≤ monthLength year month := le_monthLength hm.1 hm.2
  cases rule with
  | daysOfMonth days =>
    obtain ⟨day, hd, hle⟩ := picks
    have hpos : 1 ≤ day := allowed.least_le day hd
    have valid : isValidDate year month day := isValidDate_natCast_iff.mpr ⟨hpos, by omega⟩
    exact ⟨_, by rw [daysIn, hlen, ok_bind], List.ne_nil_of_mem (List.mem_filter.mpr ⟨hd, valid⟩)⟩
  | fromLast offset =>
    have hlt : offset < monthLength year month := Nat.lt_of_le_of_lt picks (by omega)
    refine ⟨_, by rw [daysIn, hlen, ok_bind], ?_⟩
    simp [hlt]
  | weekdayNear day =>
    have hle : day ≤ monthLength year month := Nat.le_trans picks hmin
    obtain ⟨n, hn⟩ := nearestWeekday_exists hy hm allowed.1 hle
    exact ⟨[n], by rw [daysIn, hlen, ok_bind, hn, ok_bind]; rfl, by simp⟩
  | lastWeekday =>
    obtain ⟨n, hn⟩ := nearestWeekday_exists hy hm (by omega) (Nat.le_refl (monthLength year month))
    exact ⟨[n], by rw [daysIn, hlen, ok_bind, hn, ok_bind]; rfl, by simp⟩
  | daysOfWeek weekdays =>
    obtain ⟨weekday, hw⟩ := allowed.nonempty
    obtain ⟨n, hn, hn', he⟩ := exists_day_on year month
      ⟨allowed.least_le weekday hw, allowed.le_greatest weekday hw⟩
    have hday : n ∈ List.range' 1 (monthLength year month) :=
      List.mem_range'_1.mpr ⟨hn, by omega⟩
    have hpicked : weekdays.contains (weekdayOf year month n) := he ▸ FieldSet.contains_iff.mpr hw
    exact ⟨_, daysIn_daysOfWeek hy hm, List.ne_nil_of_mem (List.mem_filter.mpr ⟨hday, hpicked⟩)⟩
  | lastOfWeek weekday =>
    obtain ⟨day, hd, _⟩ := lastDayOn_total hy hm allowed
    exact ⟨[day], by rw [daysIn, hd, ok_bind], by simp⟩
  | nthOfWeek weekday nth =>
    have hnth : nth ≤ 4 := picks
    obtain ⟨hw, hpos, _⟩ := allowed
    refine ⟨_, by rw [daysIn, nthDayOn_eq hy hm hw (by omega), ok_bind], ?_⟩
    rw [if_pos (by omega)]
    simp

section Dense

variable {s : Schedule} {d : Direction} {span : Span}

theorem Schedule.Allowed.dense (allowed : s.Allowed) (picks : s.days.PicksInEveryMonth) :
    s.Dense := by
  intro y hy m hm
  have hb := allowed.year_bounds hy
  exact allowed.days.daysIn_ne_nil picks (by omega) (allowed.month_bounds hm)

theorem Schedule.Dense.daysOf_ne_nil (dense : s.Dense) {y m : Nat}
    (selected : s.Selects (.month y m)) : s.daysOf y m ≠ [] := by
  obtain ⟨days, hd, hne⟩ := dense y selected.1 m selected.2
  simpa only [Schedule.daysOf, hd] using hne

theorem Schedule.Dense.fires_in (dense : s.Dense) (allowed : s.Allowed)
    (selected : s.Selects span) : ∃ t ∈ span, s.firesAt t = .ok true := by
  cases span with
  | year y =>
    obtain ⟨m, hm⟩ := allowed.month.nonempty
    have hmonth : s.Selects (.month y m) := ⟨selected, hm⟩
    obtain ⟨t, ht, fires⟩ := allowed.fires_in_month hmonth (dense.daysOf_ne_nil hmonth)
    exact ⟨t, ht.1, fires⟩
  | month y m => exact allowed.fires_in_month selected (dense.daysOf_ne_nil selected)
  | day y m v => exact allowed.fires_in_day selected
  | hour y m v h => exact allowed.fires_in_hour selected

/-- In a dense schedule every retry leaves a wider unit of time than the one before, so that a
search never runs out of passes. -/
theorem Schedule.Dense.searchFrom_complete (dense : s.Dense) (allowed : s.Allowed)
    {passes depth : Nat} {x : Minute} (number : Nat) (opens : d.Opens depth x)
    (enough : depth ≤ passes) (hpos : 1 ≤ depth) :
    ∃ result, s.searchFrom d passes number x = .ok result ∧ result.retries < depth ∧
      (result.found = none → ∀ t, d.Reaches x t → s.firesAt t = .ok false) := by
  induction passes generalizing depth number x with
  | zero => omega
  | succ passes ih =>
    rw [Schedule.searchFrom, allowed.pass_eq, ok_bind]
    cases hp : s.passAt d x with
    | event found => exact ⟨_, rfl, hpos, by simp⟩
    | gap span =>
      obtain ⟨next, skips⟩ := allowed.skips_exists hp
      obtain ⟨t, ht, fires⟩ := dense.fires_in allowed (allowed.selects_of_gap hp)
      have hlt := allowed.gap_depth_lt hp opens ht fires
      obtain ⟨rest, hrest, hretries, silent⟩ := ih (number + 1) (Direction.opens_beyond skips.2)
        (by omega) span.depth_bounds.1
      refine ⟨⟨rest.found, .gap span :: .retry number x next :: rest.log⟩, ?_, ?_, ?_⟩
      · simp only [skips.2, hrest, ok_bind]
      · rw [SearchResult.retries_cons]
        exact Nat.lt_of_lt_of_le (Nat.succ_lt_succ hretries) hlt
      · intro hnone t hxt
        apply allowed.firesAt_false
        intro fires
        have := silent hnone t (skips.reaches_event allowed fires hxt)
        simp [fires] at this
    | noYear =>
      refine ⟨_, rfl, hpos, ?_⟩
      intro _ t hxt
      exact allowed.firesAt_false (allowed.no_event_of_noYear hp hxt)

theorem Schedule.Dense.search_complete (dense : s.Dense) (allowed : s.Allowed) (d : Direction)
    (m : Minute) (inclusive : Bool) :
    ∃ result, s.search d m inclusive = .ok result ∧ result.retries ≤ 4 ∧
      (result.found = none → ∀ a, d.start? m inclusive = some a → ∀ t, d.Reaches a t →
        s.firesAt t = .ok false) := by
  rw [Schedule.search_eq]
  cases d.start? m inclusive with
  | none => exact ⟨_, rfl, Nat.zero_le 4, by simp⟩
  | some a =>
    obtain ⟨result, hs, hretries, silent⟩ := dense.searchFrom_complete allowed 1 (d.opens_five a)
      (show 5 ≤ maxRetries + 1 by decide) (by decide)
    refine ⟨result, hs, Nat.le_of_lt_succ hretries, ?_⟩
    intro hnone a' same
    cases same
    exact silent hnone

theorem Schedule.Dense.nearest_none_iff (dense : s.Dense) (allowed : s.Allowed) (d : Direction)
    (m : Minute) (inclusive : Bool) :
    ∃ found, s.nearest d m inclusive = .ok found ∧
      (found = none ↔ ∀ a, d.start? m inclusive = some a → ∀ t, d.Reaches a t →
        s.firesAt t = .ok false) := by
  obtain ⟨result, hs, -, silent⟩ := dense.search_complete allowed d m inclusive
  have hn : s.nearest d m inclusive = .ok result.found := by
    rw [Schedule.nearest, hs]
    rfl
  refine ⟨result.found, hn, silent, ?_⟩
  intro hsilent
  obtain ⟨found, hn', sound⟩ := allowed.nearest_sound d m inclusive
  cases Except.ok.inj (hn.symm.trans hn')
  cases hf : result.found with
  | none => rfl
  | some r =>
    obtain ⟨a, ha, hr, fires, -⟩ := sound r hf
    have := hsilent a ha r hr
    simp [fires] at this

end Dense

/-- In a dense schedule the bound on retries makes no difference: a lookup finds nothing only where
there is nothing to find, and it makes four retries at most. The schedules whose day rule picks a
day in every month are dense. -/
theorem Schedule.dense_lookup_complete {text : String} {s : Schedule}
    (parsed : Schedule.parse text = .ok s) :
    (s.Dense → ∀ (i : Instant) (inclusive : Bool),
      (∃ found, s.next i inclusive = .ok found ∧
        (found = none ↔ ∀ a, (if inclusive then some i.minute else i.minute.next?) = some a →
          ∀ t, a ≤ t → s.firesAt t = .ok false)) ∧
      (∃ found, s.prev i inclusive = .ok found ∧
        (found = none ↔ ∀ a, (if inclusive then some i.minute else i.minute.prev?) = some a →
          ∀ t, t ≤ a → s.firesAt t = .ok false)) ∧
      ∀ d, ∃ result, s.search d i.minute inclusive = .ok result ∧ result.retries ≤ 4) ∧
    (s.days.PicksInEveryMonth → s.Dense) := by
  have allowed := Schedule.parse_allowed parsed
  refine ⟨?_, allowed.dense⟩
  intro dense i inclusive
  refine ⟨dense.nearest_none_iff allowed .forward i.minute inclusive,
    dense.nearest_none_iff allowed .backward i.minute inclusive, ?_⟩
  intro d
  obtain ⟨result, hs, hretries, -⟩ := dense.search_complete allowed d i.minute inclusive
  exact ⟨result, hs, hretries⟩

/-- Noon on the last day of every month. -/
def monthEnds : Schedule where
  expression := "0 12 L * ? *"
  minute := FieldSet.ofList [0]
  hour := FieldSet.ofList [12]
  days := .fromLast 0
  month := FieldSet.ofList (List.range' 1 12)
  year := FieldSet.ofList (List.range' 1970 230)

/-- After the last month end that a schedule can have, nothing is left to find. -/
theorem Schedule.dense_lookup_complete_month_ends :
    Schedule.parse "0 12 L * ? *" = .ok monthEnds ∧ monthEnds.days.PicksInEveryMonth ∧
      monthEnds.Dense ∧
      ∀ t, Minute.midnight 2200 1 1 (by decide) ≤ t → monthEnds.firesAt t = .ok false := by
  have parsed : Schedule.parse "0 12 L * ? *" = .ok monthEnds := by decide +kernel
  have picks : monthEnds.days.PicksInEveryMonth := Nat.zero_le 27
  have dense := (Schedule.dense_lookup_complete parsed).2 picks
  refine ⟨parsed, picks, dense, ?_⟩
  have none : monthEnds.next (Minute.midnight 2200 1 1 (by decide)).start true = .ok none := by
    decide +kernel
  obtain ⟨found, hn, hf⟩ := ((Schedule.dense_lookup_complete parsed).1 dense
    (Minute.midnight 2200 1 1 (by decide)).start true).1
  exact hf.mp (Except.ok.inj (hn.symm.trans none)) _ rfl

end CronTimes
