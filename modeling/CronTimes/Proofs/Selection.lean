import CronTimes.Proofs.ScheduleBounds
import CronTimes.Proofs.SpanOrder

namespace CronTimes

def Schedule.daysOf (s : Schedule) (year month : Nat) : List Nat :=
  match s.days.daysIn year month with
  | .ok days => days
  | .error _ => []

/-- Whether a schedule picks every number that a span fixes. -/
def Schedule.Selects (s : Schedule) : Span → Prop
  | .year y => y ∈ s.year.toList
  | .month y m => y ∈ s.year.toList ∧ m ∈ s.month.toList
  | .day y m d => y ∈ s.year.toList ∧ m ∈ s.month.toList ∧ d ∈ s.daysOf y m
  | .hour y m d h =>
    y ∈ s.year.toList ∧ m ∈ s.month.toList ∧ d ∈ s.daysOf y m ∧ h ∈ s.hour.toList

section Allowed

variable {s : Schedule}

theorem Schedule.Allowed.daysIn_eq (allowed : s.Allowed) {y m : Nat} (hy : y ∈ s.year.toList)
    (hm : m ∈ s.month.toList) :
    s.days.daysIn y m = .ok (s.daysOf y m) ∧ IsMonthDays y m (s.daysOf y m) := by
  have hb := allowed.year_bounds hy
  have positive : y ≠ 0 := by omega
  obtain ⟨days, hd, picked⟩ :=
    DayRule.daysIn_total allowed.days positive (allowed.month_bounds hm)
  have same : s.daysOf y m = days := by simp only [Schedule.daysOf, hd]
  exact ⟨same ▸ hd, same ▸ picked⟩

/-- The hour that a minute is in. Hours of years before year 0 count as hours of year 0. -/
def Minute.hourSpan (t : Minute) : Span :=
  .hour t.date.year.toNat t.date.month t.date.day t.hour

theorem Schedule.Allowed.firesAt_eq (allowed : s.Allowed) (t : Minute) :
    s.firesAt t = .ok (s.year.contains t.date.year.toNat && s.month.contains t.date.month &&
      (s.daysOf t.date.year.toNat t.date.month).contains t.date.day &&
        s.hour.contains t.hour && s.minute.contains t.minute) := by
  simp only [Schedule.firesAt]
  split
  next selected =>
    obtain ⟨hy, hm⟩ := Bool.and_eq_true_iff.mp selected
    have hd := (allowed.daysIn_eq (FieldSet.contains_iff.mp hy) (FieldSet.contains_iff.mp hm)).1
    rw [hd, ok_bind, selected, Bool.true_and]
  next missing =>
    rw [Bool.not_eq_true] at missing
    simp only [missing, Bool.false_and]

theorem Schedule.Allowed.firesAt_iff (allowed : s.Allowed) {t : Minute} :
    s.firesAt t = .ok true ↔ s.Selects t.hourSpan ∧ t.minute ∈ s.minute.toList := by
  rw [allowed.firesAt_eq, Except.ok.injEq]
  simp only [Bool.and_eq_true, FieldSet.contains_iff, List.contains_iff_mem, Schedule.Selects,
    Minute.hourSpan, and_assoc]

theorem Schedule.Allowed.firesAt_false (allowed : s.Allowed) {t : Minute}
    (h : s.firesAt t ≠ .ok true) : s.firesAt t = .ok false := by
  rw [allowed.firesAt_eq] at h ⊢
  rw [Except.ok.injEq]
  exact Bool.eq_false_iff.mpr fun fires => h (by rw [fires])

theorem Minute.mem_hour_iff {t : Minute} {y m d h : Nat} (hy : y ≠ 0) :
    t ∈ Span.hour y m d h ↔ t.hourSpan = .hour y m d h := by
  simp only [Membership.mem, Span.Holds, hourSpan, Span.hour.injEq]
  omega

theorem Schedule.Allowed.fires_at_minute (allowed : s.Allowed) {y m d h mi : Nat}
    (selected : s.Selects (.hour y m d h)) (hmi : mi ∈ s.minute.toList) :
    ∃ t, Minute.ofCivil? y m d h mi = some t ∧ t ∈ Span.hour y m d h ∧
      s.firesAt t = .ok true := by
  obtain ⟨hy, hm, hd, hh⟩ := selected
  have hyear := allowed.year_bounds hy
  obtain ⟨hpos, hle⟩ := (allowed.daysIn_eq hy hm).2.2 d hd
  obtain ⟨t, ht⟩ : ∃ t, Minute.ofCivil? y m d h mi = some t :=
    Minute.ofCivil?_exists (by unfold calendarStart; omega) (by unfold calendarEnd; omega) hpos hle
      (allowed.hour_lt hh) (allowed.minute_lt hmi)
  obtain ⟨hty, htm, htd, hth, htmi⟩ := Minute.ofCivil?_eq_some_iff.mp ht
  have hmem : t ∈ Span.hour y m d h := ⟨hty, htm, htd, hth⟩
  refine ⟨t, ht, hmem, allowed.firesAt_iff.mpr ⟨?_, htmi ▸ hmi⟩⟩
  rw [(Minute.mem_hour_iff (by omega)).mp hmem]
  exact ⟨hy, hm, hd, hh⟩

theorem Schedule.Allowed.fires_in_hour (allowed : s.Allowed) {y m d h : Nat}
    (selected : s.Selects (.hour y m d h)) :
    ∃ t ∈ Span.hour y m d h, s.firesAt t = .ok true := by
  obtain ⟨mi, hmi⟩ := allowed.minute.nonempty
  obtain ⟨t, -, ht, fires⟩ := allowed.fires_at_minute selected hmi
  exact ⟨t, ht, fires⟩

theorem Schedule.Allowed.fires_in_day (allowed : s.Allowed) {y m d : Nat}
    (selected : s.Selects (.day y m d)) : ∃ t ∈ Span.day y m d, s.firesAt t = .ok true := by
  obtain ⟨h, hh⟩ := allowed.hour.nonempty
  obtain ⟨hy, hm, hd⟩ := selected
  obtain ⟨t, ⟨hty, htm, htd, _⟩, fires⟩ := allowed.fires_in_hour ⟨hy, hm, hd, hh⟩
  exact ⟨t, ⟨hty, htm, htd⟩, fires⟩

theorem Schedule.Allowed.fires_in_month (allowed : s.Allowed) {y m : Nat}
    (selected : s.Selects (.month y m)) (days : s.daysOf y m ≠ []) :
    ∃ t ∈ Span.month y m, s.firesAt t = .ok true := by
  obtain ⟨d, hd⟩ := List.exists_mem_of_ne_nil _ days
  obtain ⟨t, ⟨hty, htm, _⟩, fires⟩ := allowed.fires_in_day ⟨selected.1, selected.2, hd⟩
  exact ⟨t, ⟨hty, htm⟩, fires⟩

theorem Schedule.Allowed.exists_mem (allowed : s.Allowed) {span : Span}
    (selected : s.Selects span) : ∃ t ∈ span, 1970 ≤ t.date.year ∧ t.date.year ≤ 2199 := by
  cases span with
  | year y =>
    have hb := allowed.year_bounds selected
    obtain ⟨t, ht⟩ : ∃ t, Minute.ofCivil? y 1 1 0 0 = some t :=
      Minute.ofCivil?_exists (by unfold calendarStart; omega) (by unfold calendarEnd; omega)
        (by decide) (show 1 ≤ 31 by decide) (by decide) (by decide)
    have hty := (Minute.ofCivil?_eq_some_iff.mp ht).1
    exact ⟨t, hty, by omega⟩
  | month y m =>
    have hb := allowed.year_bounds selected.1
    have hm := allowed.month_bounds selected.2
    have hlen : 28 ≤ monthLength y m := le_monthLength hm.1 hm.2
    obtain ⟨t, ht⟩ : ∃ t, Minute.ofCivil? y m 1 0 0 = some t :=
      Minute.ofCivil?_exists (by unfold calendarStart; omega) (by unfold calendarEnd; omega)
        (by decide) (by omega) (by decide) (by decide)
    have hty := (Minute.ofCivil?_eq_some_iff.mp ht).1
    exact ⟨t, ⟨hty, (Minute.ofCivil?_eq_some_iff.mp ht).2.1⟩, by omega⟩
  | day y m d =>
    have hb := allowed.year_bounds selected.1
    obtain ⟨t, ht, _⟩ := allowed.fires_in_day selected
    have hty : t.date.year = y := ht.1
    exact ⟨t, ht, by omega⟩
  | hour y m d h =>
    have hb := allowed.year_bounds selected.1
    obtain ⟨t, ht, _⟩ := allowed.fires_in_hour selected
    have hty : t.date.year = y := ht.1
    exact ⟨t, ht, by omega⟩

theorem Schedule.Allowed.beyond?_exists (allowed : s.Allowed) {span : Span} (d : Direction)
    (selected : s.Selects span) : ∃ next, d.beyond? span = some next := by
  obtain ⟨t, ht, hlo, hhi⟩ := allowed.exists_mem selected
  exact Direction.beyond?_exists_of_year ht (by unfold calendarStart; omega)
    (by unfold calendarEnd; omega)

end Allowed

end CronTimes
