import CronTimes.MonthDays
import CronTimes.Proofs.FieldValues

namespace CronTimes

/-- The day of the week of a day that is on the calendar. -/
def weekdayOf (year month day : Nat) : Nat :=
  weekdaySum year month day % 7 + 1

theorem weekdaySum_add (year month day : Nat) :
    weekdaySum year month day = day + weekdaySum year month 0 := by
  unfold weekdaySum
  omega

theorem dayOfWeek_eq {year month day : Nat} (hy : year ≠ 0) (hp : 1 ≤ day)
    (hd : day ≤ monthLength year month) :
    dayOfWeek year month day = .ok (weekdayOf year month day) := by
  have valid : isValidDate year month day := isValidDate_natCast_iff.mpr ⟨hp, hd⟩
  simp [dayOfWeek, valid, hy, weekdayOf]

def isWorkday (year month : Nat) (day : Int) : Bool :=
  isValidDate year month day &&
    (2 ≤ weekdayOf year month day.toNat && weekdayOf year month day.toNat ≤ 6)

theorem isWeekday_eq {year month : Nat} {day : Int} (hy : year ≠ 0) :
    isWeekday year month day = .ok (isWorkday year month day) := by
  unfold isWeekday isWorkday
  split
  next valid =>
    obtain ⟨hp, hd⟩ := isValidDate_iff.mp valid
    rw [dayOfWeek_eq hy (by omega) (by omega), valid, Bool.true_and]
    rfl
  next outside =>
    rw [Bool.not_eq_true] at outside
    rw [outside, Bool.false_and]

theorem nearestWeekday_eq {year month : Nat} {day : Int} (hy : year ≠ 0)
    (valid : isValidDate year month day) :
    nearestWeekday year month day =
      .ok (([day, day + 1, day - 1, day + 2, day - 2].find? (isWorkday year month)).map
        Int.toNat) := by
  have pure_form : isWeekday year month = fun candidate => pure (isWorkday year month candidate) :=
    funext fun candidate => isWeekday_eq hy
  rw [nearestWeekday, if_pos valid, pure_form, List.findM?_pure]
  rfl

theorem nearestWeekday_off_calendar {year month : Nat} {day : Int}
    (h : ¬ isValidDate year month day) : nearestWeekday year month day = .ok none := by
  rw [nearestWeekday, if_neg h]

theorem nearestWeekday_total {year : Nat} (month : Nat) (day : Int) (hy : year ≠ 0) :
    ∃ found, nearestWeekday year month day = .ok found ∧
      ∀ n, found = some n → 1 ≤ n ∧ n ≤ monthLength year month := by
  by_cases valid : isValidDate year month day
  · refine ⟨_, nearestWeekday_eq hy valid, ?_⟩
    intro n hn
    obtain ⟨candidate, hc, rfl⟩ := Option.map_eq_some_iff.mp hn
    have hw := List.find?_some hc
    obtain ⟨hp, hd⟩ := isValidDate_iff.mp (Bool.and_eq_true_iff.mp hw).1
    omega
  · exact ⟨none, nearestWeekday_off_calendar valid, by simp⟩

/-- Among a day, its neighbours and the days next to those there is a working day of the month: a
weekend has two days, and a month has more than four. -/
theorem nearestWeekday_exists {year month day : Nat} (hy : year ≠ 0) (hm : 1 ≤ month ∧ month ≤ 12)
    (hp : 1 ≤ day) (hd : day ≤ monthLength year month) :
    ∃ n, nearestWeekday year month day = .ok (some n) := by
  have valid : isValidDate year month day := isValidDate_natCast_iff.mpr ⟨hp, hd⟩
  have hlen : 28 ≤ monthLength year month := le_monthLength hm.1 hm.2
  rw [nearestWeekday_eq hy valid]
  cases hf : [(day : Int), day + 1, day - 1, day + 2, day - 2].find? (isWorkday year month) with
  | some n => exact ⟨n.toNat, rfl⟩
  | none =>
    rw [List.find?_eq_none] at hf
    have here := hf day (by simp)
    have after := hf (day + 1) (by simp)
    have before := hf (day - 1) (by simp)
    have later := hf (day + 2) (by simp)
    have earlier := hf (day - 2) (by simp)
    simp only [isWorkday, Bool.and_eq_true, decide_eq_true_eq, isValidDate_iff, weekdayOf,
      weekdaySum_add _ _ (Int.toNat _)] at here after before later earlier
    omega

theorem ok_bind {α β ε : Type} {x : α} {f : α → Except ε β} : (Except.ok x >>= f) = f x := rfl

theorem filterM_eq_ok {α ε : Type} {f : α → Except ε Bool} {keep : α → Bool} {xs : List α}
    (h : ∀ x ∈ xs, f x = .ok (keep x)) : xs.filterM f = .ok (xs.filter keep) := by
  have aux : ∀ acc, xs.filterAuxM f acc = .ok ((xs.filter keep).reverse ++ acc) := by
    induction xs with
    | nil => intro acc; rfl
    | cons x xs ih =>
      intro acc
      have rest := ih fun y hy => h y (List.mem_cons_of_mem x hy)
      rw [List.filterAuxM, h x (by simp), ok_bind]
      cases hk : keep x with
      | true => simpa [hk] using rest (x :: acc)
      | false => simpa [hk] using rest acc
  rw [List.filterM, aux [], ok_bind, List.append_nil, List.reverse_reverse]
  rfl

theorem lastDayUpTo_total {year month weekday day : Nat} (hy : year ≠ 0)
    (hd : day ≤ monthLength year month)
    (h : ∃ n, 1 ≤ n ∧ n ≤ day ∧ weekdayOf year month n = weekday) :
    ∃ n, lastDayUpTo year month weekday day = .ok n ∧ 1 ≤ n ∧ n ≤ day := by
  induction day with
  | zero =>
    obtain ⟨n, hn, hn', _⟩ := h
    omega
  | succ day ih =>
    obtain ⟨n, hn, hn', hw⟩ := h
    rw [lastDayUpTo, dayOfWeek_eq hy (by omega) hd]
    by_cases same : weekdayOf year month (day + 1) = weekday
    · exact ⟨day + 1, by rw [ok_bind, if_pos same], by omega, by omega⟩
    · have hne : n ≠ day + 1 := by
        rintro rfl
        exact same hw
      obtain ⟨found, hf, hlo, hhi⟩ := ih (by omega) ⟨n, hn, by omega, hw⟩
      exact ⟨found, by rw [ok_bind, if_neg same, hf], hlo, by omega⟩

theorem exists_day_on (year month : Nat) {weekday : Nat} (hw : 1 ≤ weekday ∧ weekday ≤ 7) :
    ∃ n, 1 ≤ n ∧ n ≤ 7 ∧ weekdayOf year month n = weekday := by
  refine ⟨1 + (weekday + 7 - weekdayOf year month 1) % 7, by omega, by omega, ?_⟩
  simp only [weekdayOf]
  rw [weekdaySum_add, weekdaySum_add _ _ 1]
  omega

theorem lastDayOn_total {year month weekday : Nat} (hy : year ≠ 0) (hm : 1 ≤ month ∧ month ≤ 12)
    (hw : 1 ≤ weekday ∧ weekday ≤ 7) :
    ∃ n, lastDayOn year month weekday = .ok n ∧ 1 ≤ n ∧ n ≤ monthLength year month := by
  have hlen : 28 ≤ monthLength year month := le_monthLength hm.1 hm.2
  obtain ⟨n, hn, hn', he⟩ := exists_day_on year month hw
  obtain ⟨found, hf, hb⟩ := lastDayUpTo_total hy (Nat.le_refl _) ⟨n, hn, by omega, he⟩
  exact ⟨found, by rw [lastDayOn, if_pos hw, daysInMonth_eq hm, ok_bind, hf], hb⟩

theorem nthDayOn_eq {year month weekday nth : Nat} (hy : year ≠ 0) (hm : 1 ≤ month ∧ month ≤ 12)
    (hw : 1 ≤ weekday ∧ weekday ≤ 7) (hn : nth ≠ 0) :
    nthDayOn year month weekday nth =
      let day := 1 + (weekday + 7 - weekdayOf year month 1) % 7 + (nth - 1) * 7
      .ok (if day ≤ monthLength year month then some day else none) := by
  have hlen : 28 ≤ monthLength year month := le_monthLength hm.1 hm.2
  have hneg : ¬ (nth = 0 ∨ ¬ (1 ≤ weekday ∧ weekday ≤ 7)) := by omega
  rw [nthDayOn, if_neg hneg, dayOfWeek_eq hy (Nat.le_refl 1) (by omega), daysInMonth_eq hm]
  rfl

/-- What reading the two day fields guarantees about the numbers of a rule. -/
def DayRule.Allowed : DayRule → Prop
  | .daysOfMonth days => CronField.dayOfMonth.Allows days
  | .fromLast offset => offset ≤ 30
  | .weekdayNear day => 1 ≤ day ∧ day ≤ 31
  | .lastWeekday => True
  | .daysOfWeek weekdays => CronField.dayOfWeek.Allows weekdays
  | .lastOfWeek weekday => 1 ≤ weekday ∧ weekday ≤ 7
  | .nthOfWeek weekday nth => (1 ≤ weekday ∧ weekday ≤ 7) ∧ 1 ≤ nth ∧ nth ≤ 5

def IsMonthDays (year month : Nat) (days : List Nat) : Prop :=
  days.Pairwise (· < ·) ∧ ∀ day ∈ days, 1 ≤ day ∧ day ≤ monthLength year month

theorem isMonthDays_filter {year month : Nat} {days : List Nat} {keep : Nat → Bool}
    (ascending : days.Pairwise (· < ·))
    (h : ∀ day ∈ days, keep day → 1 ≤ day ∧ day ≤ monthLength year month) :
    IsMonthDays year month (days.filter keep) := by
  refine ⟨ascending.sublist List.filter_sublist, ?_⟩
  intro day hd
  obtain ⟨hm, hk⟩ := List.mem_filter.mp hd
  exact h day hm hk

theorem isMonthDays_toList {year month : Nat} (found : Option Nat)
    (h : ∀ day, found = some day → 1 ≤ day ∧ day ≤ monthLength year month) :
    IsMonthDays year month found.toList := by
  cases found with
  | none => exact ⟨List.Pairwise.nil, by simp⟩
  | some day => exact ⟨List.pairwise_singleton _ _, by simpa using h day rfl⟩

theorem DayRule.daysIn_daysOfWeek {year month : Nat} {weekdays : FieldSet} (hy : year ≠ 0)
    (hm : 1 ≤ month ∧ month ≤ 12) :
    (daysOfWeek weekdays).daysIn year month =
      .ok ((List.range' 1 (monthLength year month)).filter fun day =>
        weekdays.contains (weekdayOf year month day)) := by
  rw [daysIn, daysInMonth_eq hm, ok_bind]
  apply filterM_eq_ok
  intro day hd
  rw [List.mem_range'_1] at hd
  rw [dayOfWeek_eq hy (by omega) (by omega), ok_bind]

theorem DayRule.daysIn_total {rule : DayRule} {year month : Nat} (allowed : rule.Allowed)
    (hy : year ≠ 0) (hm : 1 ≤ month ∧ month ≤ 12) :
    ∃ days, rule.daysIn year month = .ok days ∧ IsMonthDays year month days := by
  have hlen : daysInMonth year month = .ok (monthLength year month) := daysInMonth_eq hm
  cases rule with
  | daysOfMonth days =>
    refine ⟨_, by rw [daysIn, hlen, ok_bind], isMonthDays_filter days.pairwise_toList ?_⟩
    intro day _ hk
    exact isValidDate_natCast_iff.mp hk
  | fromLast offset =>
    refine ⟨_, by rw [daysIn, hlen, ok_bind], ?_⟩
    split
    next hlt => exact isMonthDays_toList (some _) (by simp; omega)
    next => exact isMonthDays_toList none (by simp)
  | weekdayNear day =>
    obtain ⟨found, hf, hb⟩ := nearestWeekday_total month day hy
    exact ⟨found.toList, by rw [daysIn, hlen, ok_bind, hf, ok_bind], isMonthDays_toList found hb⟩
  | lastWeekday =>
    obtain ⟨found, hf, hb⟩ := nearestWeekday_total month (monthLength year month : Nat) hy
    exact ⟨found.toList, by rw [daysIn, hlen, ok_bind, hf, ok_bind], isMonthDays_toList found hb⟩
  | daysOfWeek weekdays =>
    refine ⟨_, daysIn_daysOfWeek hy hm, isMonthDays_filter List.pairwise_lt_range' ?_⟩
    intro day hd _
    rw [List.mem_range'_1] at hd
    omega
  | lastOfWeek weekday =>
    obtain ⟨day, hd, hb⟩ := lastDayOn_total hy hm allowed
    exact ⟨[day], by rw [daysIn, hd, ok_bind], isMonthDays_toList (some day) (by simpa using hb)⟩
  | nthOfWeek weekday nth =>
    refine ⟨_, by rw [daysIn, nthDayOn_eq hy hm allowed.1 (by have := allowed.2; omega), ok_bind],
      isMonthDays_toList _ ?_⟩
    intro day hd
    simp only [Option.ite_none_right_eq_some, Option.some.injEq] at hd
    omega

end CronTimes
