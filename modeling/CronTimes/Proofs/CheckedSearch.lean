import CronTimes.Proofs.NarrowCalendar
import CronTimes.Proofs.SearchReports

namespace CronTimes

/-- A computation that checks what it does and one that does not come to the same result, and nothing
stops either of them. -/
def Agrees {α : Type} (checked : Except Halt α) (plain : Except CalendarFault α) : Prop :=
  ∃ result, checked = .ok result ∧ plain = .ok result

namespace Agrees

variable {α β : Type} {checked : Except Halt α} {plain : Except CalendarFault α}

theorem pure (result : α) : Agrees (.ok result) (.ok result) :=
  ⟨result, rfl, rfl⟩

theorem bind {next : α → Except Halt β} {next' : α → Except CalendarFault β}
    (h : Agrees checked plain)
    (rest : ∀ result, plain = .ok result → Agrees (next result) (next' result)) :
    Agrees (checked >>= next) (plain >>= next') := by
  obtain ⟨result, rfl, rfl⟩ := h
  exact rest result rfl

theorem map (f : α → β) (h : Agrees checked plain) : Agrees (checked.map f) (plain.map f) := by
  obtain ⟨result, rfl, rfl⟩ := h
  exact pure (f result)

end Agrees

theorem Fits.agrees {α : Type} {narrow : Except Halt α} {plain : Except CalendarFault α}
    (h : Fits narrow plain) {result : α} (answer : plain = .ok result) : Agrees narrow plain := by
  subst answer
  exact ⟨result, h, rfl⟩

def Minute.nextDay? (m : Minute) : Option Minute :=
  m.date.next?.bind fun date => ofClock? date m.hour m.minute

def Minute.nextHour? (m : Minute) : Option Minute :=
  if m.hour < 23 then ofClock? m.date (m.hour + 1) m.minute
  else m.date.next?.bind fun date => ofClock? date 0 m.minute

namespace Checked

open Narrow (plus minus plus_eq minus_eq)

/-- Years that are no 16 bit numbers count as the nearest one. -/
def yearOf (m : Minute) : Nat := min m.date.year.toNat wordCeiling

def minuteAt (year month day hour minute : Nat) : Except Halt Minute :=
  match Minute.ofCivil? year month day hour minute with
  | some found => .ok found
  | none => .error (.minute year month day hour minute)

def moved (move : Minute → Option Minute) (m : Minute) : Except Halt Minute :=
  match move m with
  | some next => .ok next
  | none => .error (.calendarEnd m)

/-- The minute at which a search goes on after a span, reached from the start of the span or by the
number of the next one. -/
def resume : Direction → Span → Except Halt Minute
  | .forward, .year y => do minuteAt (← plus y 1) 1 1 0 0
  | .forward, .month y m =>
    if m = 12 then do minuteAt (← plus y 1) 1 1 0 0 else do minuteAt y (← plus m 1) 1 0 0
  | .forward, .day y m d => do moved Minute.nextDay? (← minuteAt y m d 0 0)
  | .forward, .hour y m d h => do moved Minute.nextHour? (← minuteAt y m d h 0)
  | .backward, .year y => do minuteAt (← minus y 1) 12 31 23 59
  | .backward, .month y m => do moved Minute.prev? (← minuteAt y m 1 0 0)
  | .backward, .day y m d => do moved Minute.prev? (← minuteAt y m d 0 0)
  | .backward, .hour y m d h => do moved Minute.prev? (← minuteAt y m d h 0)

def passHour (s : Schedule) (d : Direction) (year month day hour : Nat) (bounds : Bounds) :
    Except Halt Pass :=
  match d.pick s.minute.toList bounds.minute with
  | none => .ok (.gap (.hour year month day hour))
  | some minute => do .ok (.event (← minuteAt year month day hour minute))

def passDay (s : Schedule) (d : Direction) (year month day : Nat) (bounds : Bounds) :
    Except Halt Pass :=
  match d.pick s.hour.toList bounds.hour with
  | none => .ok (.gap (.day year month day))
  | some hour => passHour s d year month day hour (if hour = bounds.hour then bounds else d.widest)

def passMonth (s : Schedule) (d : Direction) (year month : Nat) (bounds : Bounds) :
    Except Halt Pass := do
  let days ← Narrow.daysIn .ofSchedules s.days year month
  match d.pick days bounds.day with
  | none => .ok (.gap (.month year month))
  | some day => passDay s d year month day (if day = bounds.day then bounds else d.widest)

def passYear (s : Schedule) (d : Direction) (year : Nat) (bounds : Bounds) : Except Halt Pass :=
  match d.pick s.month.toList bounds.month with
  | none => .ok (.gap (.year year))
  | some month => passMonth s d year month (if month = bounds.month then bounds else d.widest)

/-- Only the lack of a year leaves a pass without an event and without a minute to go on from. -/
def pass (s : Schedule) (d : Direction) (anchor : Minute) : Except Halt Pass :=
  match d.pick s.year.toList (yearOf anchor) with
  | none => .ok .noYear
  | some year => passYear s d year (if year = yearOf anchor then anchor.bounds else d.widest)

def searchFrom (s : Schedule) (d : Direction) :
    (passes depth : Nat) → (anchor : Minute) → Except Halt SearchResult
  | 0, _, anchor => .ok ⟨none, [.tooDeep anchor]⟩
  | passes + 1, depth, anchor => do
    match ← pass s d anchor with
    | .event found => .ok ⟨some found, []⟩
    | .noYear => .ok ⟨none, [.noMoreYears anchor]⟩
    | .gap span => do
      let next ← resume d span
      let rest ← searchFrom s d passes (depth + 1) next
      .ok ⟨rest.found, .gap span :: .retry depth anchor next :: rest.log⟩

def search (s : Schedule) (d : Direction) (start : Minute) (inclusive : Bool) :
    Except Halt SearchResult :=
  match d.start? start inclusive with
  | none => .ok ⟨none, []⟩
  | some anchor => searchFrom s d (maxRetries + 1) 1 anchor

def firesAt (s : Schedule) (m : Minute) : Except Halt Bool :=
  if s.year.contains (yearOf m) && s.month.contains m.date.month then do
    let days ← Narrow.daysIn .ofSchedules s.days (yearOf m) m.date.month
    .ok (days.contains m.date.day && s.hour.contains m.hour && s.minute.contains m.minute)
  else .ok false

theorem minuteAt_eq {year month day hour minute : Nat} {m : Minute}
    (h : Minute.ofCivil? year month day hour minute = some m) :
    minuteAt year month day hour minute = .ok m := by
  rw [minuteAt, h]

theorem moved_eq {move : Minute → Option Minute} {m next : Minute} (h : move m = some next) :
    moved move m = .ok next := by
  rw [moved, h]

section Resume

variable {s : Schedule} {d : Direction} {span : Span} {next : Minute}

/-- What begins right past a span is the minute at which a search goes on. -/
theorem minuteAt_beyond {year month day hour minute : Nat} {c u : Minute}
    (beyond : d.beyond? span = some next) (hu : u ∈ span)
    (hc : Minute.ofCivil? year month day hour minute = some c)
    (past : ∀ t ∈ span, d.Before t c)
    (least : ∀ t ∉ span, d.Before u t → d.Reaches c t) :
    minuteAt year month day hour minute = .ok next := by
  have hnext := Direction.beyond?_reaches beyond past
  have outside : next ∉ span := fun hn =>
    d.before_irrefl next (Direction.before_beyond? beyond hn)
  have hc' := least next outside (Direction.before_beyond? beyond hu)
  rw [minuteAt_eq hc, hnext.antisymm hc']

theorem minuteAt_next_month {y m y' m' : Nat} (hm : 1 ≤ m ∧ m ≤ 12) (hm' : 1 ≤ m' ∧ m' ≤ 12)
    (following : y' * 12 + m' = y * 12 + m + 1) (hy' : y' ≤ lastYear + 1)
    (beyond : Direction.forward.beyond? (.month y m) = some next) :
    minuteAt y' m' 1 0 0 = .ok next := by
  unfold lastYear at hy'
  obtain ⟨last, hlast, -⟩ := Option.bind_eq_some_iff.mp beyond
  have hmem := (Span.last?_greatest hlast).1
  have hlen : 28 ≤ monthLength y' m' := le_monthLength hm'.1 hm'.2
  obtain ⟨c, hc⟩ : ∃ c, Minute.ofCivil? y' m' 1 0 0 = some c :=
    Minute.ofCivil?_exists (by unfold calendarStart; omega) (by unfold calendarEnd; omega)
      (by decide) (by omega) (by decide) (by decide)
  obtain ⟨hcy, hcm, hcd, hch, hcmi⟩ := Minute.ofCivil?_eq_some_iff.mp hc
  apply minuteAt_beyond beyond hmem hc
  · intro t ht
    obtain ⟨hty, htm⟩ := ht
    change t < c
    rw [← not_le, Minute.le_iff_digits]
    omega
  · intro t outside later
    obtain ⟨hly, hlm⟩ := hmem
    have hout : ¬ (t.date.year = y ∧ t.date.month = m) := outside
    have hle : last ≤ t := later.reaches
    have := t.date.month_bounds
    have := t.date.day_pos
    change c ≤ t
    rw [Minute.le_iff_digits] at hle ⊢
    omega

theorem resume_next_month {y m : Nat} (hy : y ≤ lastYear) (hm : 1 ≤ m ∧ m ≤ 12)
    (beyond : Direction.forward.beyond? (.month y m) = some next) :
    resume .forward (.month y m) = .ok next := by
  have hlast : lastYear + 1 ≤ wordCeiling := by decide
  rw [resume]
  split
  next closing =>
    rw [plus_eq (by omega), ok_bind]
    exact minuteAt_next_month hm (by decide) (by omega) (by omega) beyond
  next =>
    rw [plus_eq (by unfold wordCeiling; omega), ok_bind]
    exact minuteAt_next_month hm (by omega) (by omega) (by omega) beyond

/-- A year ends with its last month. -/
theorem resume_next_year {y : Nat} (hy : y ≤ lastYear)
    (beyond : Direction.forward.beyond? (.year y) = some next) :
    resume .forward (.year y) = .ok next := by
  have hlast : lastYear + 1 ≤ wordCeiling := by decide
  rw [resume, plus_eq (by omega), ok_bind]
  exact minuteAt_next_month (m := 12) (by decide) (by decide) (by omega) (by omega) beyond

theorem resume_previous_year {y : Nat} (hy : 1 ≤ y ∧ y ≤ lastYear)
    (beyond : Direction.backward.beyond? (.year y) = some next) :
    resume .backward (.year y) = .ok next := by
  unfold lastYear at hy
  obtain ⟨first, hfirst, -⟩ := Option.bind_eq_some_iff.mp beyond
  have hmem := (Span.first?_least hfirst).1
  obtain ⟨c, hc⟩ : ∃ c, Minute.ofCivil? (y - 1 : Nat) 12 31 23 59 = some c :=
    Minute.ofCivil?_exists (by unfold calendarStart; omega) (by unfold calendarEnd; omega)
      (by decide) (show 31 ≤ 31 by decide) (by decide) (by decide)
  obtain ⟨hcy, hcm, hcd, hch, hcmi⟩ := Minute.ofCivil?_eq_some_iff.mp hc
  rw [resume, minus_eq hy.1, ok_bind]
  apply minuteAt_beyond beyond hmem hc
  · intro t ht
    have hty : t.date.year = y := ht
    exact Direction.Before.of_year (d := .backward) (show c.date.year < t.date.year by omega)
  · intro t outside later
    have hfy : first.date.year = y := hmem
    have hty : t.date.year ≠ y := outside
    have hle : t.date.year ≤ first.date.year := later.reaches.year
    have := t.date.month_bounds
    have := t.date.day_le_31
    have := t.hour_lt
    have := t.minute_lt
    change t ≤ c
    rw [Minute.le_iff_digits]
    omega

theorem resume_next_day {y m v : Nat}
    (beyond : Direction.forward.beyond? (.day y m v) = some next) :
    resume .forward (.day y m v) = .ok next := by
  obtain ⟨last, hlast, hnext⟩ := Option.bind_eq_some_iff.mp beyond
  obtain ⟨first, hfirst⟩ := Span.first?_exists (Span.last?_greatest hlast).1
  have same : first.date = last.date := Minute.same_date hfirst hlast
  obtain ⟨-, -, -, hlh, hlmi⟩ := Minute.ofCivil?_eq_some_iff.mp hlast
  obtain ⟨-, -, -, hfh, hfmi⟩ := Minute.ofCivil?_eq_some_iff.mp hfirst
  rw [Minute.next?, if_neg (by omega), if_neg (by omega)] at hnext
  rw [resume, minuteAt_eq hfirst, ok_bind, moved_eq]
  rw [Minute.nextDay?, same, hfh, hfmi, hnext]

theorem resume_next_hour {y m v h : Nat}
    (beyond : Direction.forward.beyond? (.hour y m v h) = some next) :
    resume .forward (.hour y m v h) = .ok next := by
  obtain ⟨last, hlast, hnext⟩ := Option.bind_eq_some_iff.mp beyond
  obtain ⟨first, hfirst⟩ := Span.first?_exists (Span.last?_greatest hlast).1
  have same : first.date = last.date := Minute.same_date hfirst hlast
  obtain ⟨-, -, -, hlh, hlmi⟩ := Minute.ofCivil?_eq_some_iff.mp hlast
  obtain ⟨-, -, -, hfh, hfmi⟩ := Minute.ofCivil?_eq_some_iff.mp hfirst
  rw [Minute.next?, if_neg (by omega)] at hnext
  rw [resume, minuteAt_eq hfirst, ok_bind, moved_eq]
  rw [Minute.nextHour?, same, hfh.trans hlh.symm, hfmi, hnext]

/-- Wherever a search leaves a span that a schedule selects, the minute to go on at exists, and is
counted without an overflow. -/
theorem resume_eq (allowed : s.Allowed) (selected : s.Selects span)
    (beyond : d.beyond? span = some next) : resume d span = .ok next := by
  cases d with
  | forward =>
    cases span with
    | year y => exact resume_next_year (allowed.year_bounds selected).2 beyond
    | month y m =>
      exact resume_next_month (allowed.year_bounds selected.1).2 (allowed.month_bounds selected.2)
        beyond
    | day y m v => exact resume_next_day beyond
    | hour y m v h => exact resume_next_hour beyond
  | backward =>
    cases span with
    | year y =>
      have hy := allowed.year_bounds selected
      exact resume_previous_year ⟨by omega, hy.2⟩ beyond
    | month y m =>
      obtain ⟨first, hfirst, hprev⟩ := Option.bind_eq_some_iff.mp beyond
      rw [resume, minuteAt_eq hfirst, ok_bind, moved_eq hprev]
    | day y m v =>
      obtain ⟨first, hfirst, hprev⟩ := Option.bind_eq_some_iff.mp beyond
      rw [resume, minuteAt_eq hfirst, ok_bind, moved_eq hprev]
    | hour y m v h =>
      obtain ⟨first, hfirst, hprev⟩ := Option.bind_eq_some_iff.mp beyond
      rw [resume, minuteAt_eq hfirst, ok_bind, moved_eq hprev]

end Resume

section Search

variable {s : Schedule} {d : Direction}

theorem passHour_eq (allowed : s.Allowed) {y m v h : Nat} {bounds : Bounds}
    (selected : s.Selects (.hour y m v h)) :
    passHour s d y m v h bounds = .ok (s.passHour d y m v h bounds) := by
  rw [passHour, Schedule.passHour]
  cases hp : d.pick s.minute.toList bounds.minute with
  | none => rfl
  | some mi =>
    obtain ⟨found, hf, -⟩ := allowed.fires_at_minute selected (Direction.pick_mem hp)
    simp only [minuteAt_eq hf, hf, ok_bind]

theorem passDay_eq (allowed : s.Allowed) {y m v : Nat} {bounds : Bounds}
    (selected : s.Selects (.day y m v)) :
    passDay s d y m v bounds = .ok (s.passDay d y m v bounds) := by
  rw [passDay, Schedule.passDay]
  cases hp : d.pick s.hour.toList bounds.hour with
  | none => rfl
  | some h =>
    obtain ⟨hy, hm, hv⟩ := selected
    exact passHour_eq allowed ⟨hy, hm, hv, Direction.pick_mem hp⟩

/-- A schedule asks only about months of its own years. -/
theorem daysIn_agrees (allowed : s.Allowed) {y m : Nat} (hy : y ∈ s.year.toList)
    (hm : m ∈ s.month.toList) :
    Agrees (Narrow.daysIn .ofSchedules s.days y m) (s.days.daysIn y m) := by
  have asked : Scope.ofSchedules.month y m :=
    Scope.ofSchedules_month_iff.mpr ⟨allowed.year_bounds hy, allowed.month_bounds hm⟩
  have fits := Narrow.daysIn_fits asked allowed.days ?_
  · exact fits.agrees (allowed.daysIn_eq hy hm).1
  · intro weekday nth same
    have named : DayRule.Allowed (.nthOfWeek weekday nth) := same ▸ allowed.days
    exact Scope.ofSchedules_weekday_iff.mpr ⟨named.2.1, named.1⟩

theorem passMonth_agrees (allowed : s.Allowed) {y m : Nat} {bounds : Bounds}
    (selected : s.Selects (.month y m)) :
    Agrees (passMonth s d y m bounds) (s.passMonth d y m bounds) := by
  obtain ⟨hy, hm⟩ := selected
  refine (daysIn_agrees allowed hy hm).bind fun picked hpicked => ?_
  cases Except.ok.inj (hpicked.symm.trans (allowed.daysIn_eq hy hm).1)
  cases hp : d.pick (s.daysOf y m) bounds.day with
  | none => exact Agrees.pure _
  | some v => exact ⟨_, passDay_eq allowed ⟨hy, hm, Direction.pick_mem hp⟩, rfl⟩

theorem passYear_agrees (allowed : s.Allowed) {y : Nat} {bounds : Bounds}
    (selected : s.Selects (.year y)) :
    Agrees (passYear s d y bounds) (s.passYear d y bounds) := by
  rw [passYear, Schedule.passYear]
  cases hp : d.pick s.month.toList bounds.month with
  | none => exact Agrees.pure _
  | some m => exact passMonth_agrees allowed ⟨selected, Direction.pick_mem hp⟩

theorem eq_yearOf_iff {y : Nat} {m : Minute} (hy : y ≤ lastYear) :
    y = yearOf m ↔ y = m.date.year.toNat := by
  have hlast : lastYear < wordCeiling := by decide
  unfold yearOf
  omega

/-- The years of a schedule are far below the ceiling, so that it does not matter to them where a
search begins beyond it. -/
theorem pick_yearOf (allowed : s.Allowed) (d : Direction) (m : Minute) :
    d.pick s.year.toList (yearOf m) = d.pick s.year.toList m.date.year.toNat := by
  apply Direction.pick_congr s.year.pairwise_toList
  intro y hy
  have hyear := (allowed.year_bounds hy).2
  unfold yearOf wordCeiling
  cases d <;> simp only [Direction.Reaches] <;> omega

theorem contains_yearOf (allowed : s.Allowed) (m : Minute) :
    s.year.contains (yearOf m) = s.year.contains m.date.year.toNat := by
  rw [Bool.eq_iff_iff, FieldSet.contains_iff, FieldSet.contains_iff]
  constructor
  · intro hy
    rwa [(eq_yearOf_iff (allowed.year_bounds hy).2).mp rfl] at hy
  · intro hy
    rwa [(eq_yearOf_iff (allowed.year_bounds hy).2).mpr rfl] at hy

theorem pass_agrees (allowed : s.Allowed) (d : Direction) (x : Minute) :
    Agrees (pass s d x) (s.pass d x) := by
  simp only [pass, Schedule.pass, pick_yearOf allowed]
  cases hp : d.pick s.year.toList x.date.year.toNat with
  | none => exact Agrees.pure _
  | some y =>
    have hy : y ∈ s.year.toList := Direction.pick_mem hp
    simp only [eq_yearOf_iff (allowed.year_bounds hy).2]
    exact passYear_agrees allowed hy

theorem searchFrom_agrees (allowed : s.Allowed) (d : Direction) (passes depth : Nat)
    (x : Minute) : Agrees (searchFrom s d passes depth x) (s.searchFrom d passes depth x) := by
  induction passes generalizing depth x with
  | zero => exact Agrees.pure _
  | succ passes ih =>
    refine (pass_agrees allowed d x).bind fun ending hpass => ?_
    cases ending with
    | event found => exact Agrees.pure _
    | noYear => exact Agrees.pure _
    | gap span =>
      have hgap := Except.ok.inj ((allowed.pass_eq d x).symm.trans hpass)
      obtain ⟨next, skips⟩ := allowed.skips_exists hgap
      simp only [resume_eq allowed (allowed.selects_of_gap hgap) skips.2, skips.2, ok_bind]
      exact (ih (depth + 1) next).bind fun rest _ => Agrees.pure _

theorem search_agrees (allowed : s.Allowed) (d : Direction) (m : Minute) (inclusive : Bool) :
    Agrees (search s d m inclusive) (s.search d m inclusive) := by
  rw [search, Schedule.search_eq]
  cases d.start? m inclusive with
  | none => exact Agrees.pure _
  | some x => exact searchFrom_agrees allowed d _ _ x

theorem firesAt_agrees (allowed : s.Allowed) (m : Minute) :
    Agrees (firesAt s m) (s.firesAt m) := by
  simp only [firesAt, Schedule.firesAt, contains_yearOf allowed]
  split
  next selected =>
    obtain ⟨hy, hm⟩ := Bool.and_eq_true_iff.mp selected
    rw [FieldSet.contains_iff] at hy hm
    rw [← (eq_yearOf_iff (allowed.year_bounds hy).2).mpr rfl]
    exact (daysIn_agrees allowed hy hm).bind fun _ _ => Agrees.pure _
  next => exact Agrees.pure false

end Search

end Checked

end CronTimes
