import CronTimes.Proofs.GregorianWeekday
import CronTimes.Proofs.ScheduleBounds
import Mathlib.Data.Finset.Card
import Mathlib.Order.Bounds.Basic
import Mathlib.Order.Interval.Finset.Nat

namespace CronTimes

/-- A day of a month that is on the given day of the week. -/
def IsDayOn (year month weekday day : Nat) : Prop :=
  (1 ≤ day ∧ day ≤ monthLength year month) ∧ gregorianWeekday year month day = weekday

instance (year month weekday day : Nat) : Decidable (IsDayOn year month weekday day) :=
  inferInstanceAs (Decidable (_ ∧ _))

/-- A day of a month from Monday to Friday. -/
def IsWorkingDay (year month day : Nat) : Prop :=
  (1 ≤ day ∧ day ≤ monthLength year month) ∧
    2 ≤ gregorianWeekday year month day ∧ gregorianWeekday year month day ≤ 6

/-- A working day of a month that is closer to a day than any other one. -/
def IsNearestWorkingDay (year month near day : Nat) : Prop :=
  IsWorkingDay year month day ∧ ∀ other, IsWorkingDay year month other → other ≠ day →
    ((day : Int) - near).natAbs < ((other : Int) - near).natAbs

/-- Whether a rule means a day of a month. -/
def DayRule.Means (year month day : Nat) : DayRule → Prop
  | .daysOfMonth days => day ∈ days.toList
  | .fromLast offset => day + offset = monthLength year month
  | .weekdayNear near => near ≤ monthLength year month ∧ IsNearestWorkingDay year month near day
  | .lastWeekday => IsGreatest {other | IsWorkingDay year month other} day
  | .daysOfWeek weekdays => gregorianWeekday year month day ∈ weekdays.toList
  | .lastOfWeek weekday => IsGreatest {other | IsDayOn year month weekday other} day
  | .nthOfWeek weekday nth => IsDayOn year month weekday day ∧
    ((Finset.Ico 1 day).filter fun earlier => IsDayOn year month weekday earlier).card + 1 = nth

section Month

variable {year month weekday near day : Nat}

theorem gregorianWeekday_eq_sum (day : Nat) (hy : 1 ≤ year) (hm : 1 ≤ month ∧ month ≤ 12) :
    gregorianWeekday year month day = (day + weekdaySum year month 0) % 7 + 1 := by
  rw [← weekdayOf_eq_gregorianWeekday day hy hm, weekdayOf, weekdaySum_add]

theorem isDayOn_iff_sum (hy : 1 ≤ year) (hm : 1 ≤ month ∧ month ≤ 12) :
    IsDayOn year month weekday day ↔ (1 ≤ day ∧ day ≤ monthLength year month) ∧
      (day + weekdaySum year month 0) % 7 + 1 = weekday := by
  rw [IsDayOn, gregorianWeekday_eq_sum day hy hm]

theorem isWorkingDay_iff_sum (hy : 1 ≤ year) (hm : 1 ≤ month ∧ month ≤ 12) :
    IsWorkingDay year month day ↔ (1 ≤ day ∧ day ≤ monthLength year month) ∧
      1 ≤ (day + weekdaySum year month 0) % 7 ∧ (day + weekdaySum year month 0) % 7 ≤ 5 := by
  rw [IsWorkingDay, gregorianWeekday_eq_sum day hy hm]
  omega

theorem isWorkday_iff_sum {day : Int} :
    isWorkday year month day ↔ (1 ≤ day ∧ day ≤ monthLength year month) ∧
      1 ≤ (day.toNat + weekdaySum year month 0) % 7 ∧
        (day.toNat + weekdaySum year month 0) % 7 ≤ 5 := by
  have sum := weekdaySum_add year month day.toNat
  simp only [isWorkday, Bool.and_eq_true, decide_eq_true_eq, isValidDate_iff]
  unfold weekdayOf
  omega

theorem IsNearestWorkingDay.unique {other : Nat} (h : IsNearestWorkingDay year month near day)
    (h' : IsNearestWorkingDay year month near other) : other = day := by
  by_contra hne
  have closer := h.2 other h'.1 hne
  have further := h'.2 day h.1 (Ne.symm hne)
  omega

/-- Among the candidates around a day, taken by their distance, the first working day is the
nearest one: two working days at the same distance would enclose a weekend of three days. -/
theorem isNearestWorkingDay_of_find {found : Int} (hy : 1 ≤ year) (hm : 1 ≤ month ∧ month ≤ 12)
    (hf : [(near : Int), near + 1, near - 1, near + 2, near - 2].find? (isWorkday year month) =
      some found) : IsNearestWorkingDay year month near found.toNat := by
  -- One case for each candidate: it is a working day, and those before it are none.
  simp only [List.find?_cons_eq_some, List.find?_nil, Bool.not_eq_true', ← Bool.not_eq_true,
    isWorkday_iff_sum, reduceCtorEq, and_false, or_false] at hf
  unfold IsNearestWorkingDay
  simp only [isWorkingDay_iff_sum hy hm]
  refine ⟨by omega, ?_⟩
  intro other ho hne
  omega

theorem nearestWeekday_nearest (hy : 1 ≤ year) (hm : 1 ≤ month ∧ month ≤ 12) (hp : 1 ≤ near)
    (hd : near ≤ monthLength year month) :
    ∃ day, nearestWeekday year month near = .ok (some day) ∧
      IsNearestWorkingDay year month near day := by
  have positive : year ≠ 0 := by omega
  have valid : isValidDate year month near := isValidDate_natCast_iff.mpr ⟨hp, hd⟩
  obtain ⟨day, hn⟩ := nearestWeekday_exists positive hm hp hd
  refine ⟨day, hn, ?_⟩
  rw [nearestWeekday_eq positive valid] at hn
  obtain ⟨found, hf, rfl⟩ := Option.map_eq_some_iff.mp (Except.ok.inj hn)
  exact isNearestWorkingDay_of_find hy hm hf

/-- Nearest to the last day of a month is the last working day. -/
theorem IsNearestWorkingDay.greatest
    (h : IsNearestWorkingDay year month (monthLength year month) day) :
    IsGreatest {other | IsWorkingDay year month other} day := by
  refine ⟨h.1, ?_⟩
  intro other ho
  by_contra later
  have hle := ho.1.2
  have closer := h.2 other ho (by omega)
  omega

theorem lastDayUpTo_greatest {found : Nat} (hy : 1 ≤ year) (hm : 1 ≤ month ∧ month ≤ 12)
    (hd : day ≤ monthLength year month) (h : lastDayUpTo year month weekday day = .ok found) :
    IsGreatest {other | IsDayOn year month weekday other ∧ other ≤ day} found := by
  induction day with
  | zero => simp [lastDayUpTo] at h
  | succ day ih =>
    rw [lastDayUpTo, dayOfWeek_eq (by omega) (by omega) hd, ok_bind,
      weekdayOf_eq_gregorianWeekday _ hy hm] at h
    split at h
    next same =>
      cases Except.ok.inj h
      exact ⟨⟨⟨⟨by omega, hd⟩, same⟩, Nat.le_refl _⟩, fun other ho => ho.2⟩
    next different =>
      obtain ⟨⟨hon, hle⟩, greatest⟩ := ih (by omega) h
      refine ⟨⟨hon, by omega⟩, ?_⟩
      intro other ho
      have hne : other ≠ day + 1 := by
        intro same
        exact different (same ▸ ho.1.2)
      have hlast := ho.2
      exact greatest ⟨ho.1, by omega⟩

theorem lastDayOn_greatest (hy : 1 ≤ year) (hm : 1 ≤ month ∧ month ≤ 12)
    (h : lastDayOn year month weekday = .ok day) :
    IsGreatest {other | IsDayOn year month weekday other} day := by
  unfold lastDayOn at h
  split at h
  next =>
    rw [daysInMonth_eq hm, ok_bind] at h
    obtain ⟨⟨hon, -⟩, greatest⟩ := lastDayUpTo_greatest hy hm (Nat.le_refl _) h
    exact ⟨hon, fun other ho => greatest ⟨ho, ho.1.2⟩⟩
  next => simp at h

/-- The days of a month on one day of the week are a week apart, from the first seven days on. -/
theorem card_earlier_days (hy : 1 ≤ year) (hm : 1 ≤ month ∧ month ≤ 12)
    (h : IsDayOn year month weekday day) :
    ((Finset.Ico 1 day).filter fun earlier => IsDayOn year month weekday earlier).card =
      (day - 1) / 7 := by
  rw [isDayOn_iff_sum hy hm] at h
  have weeks : (Finset.Ico 1 day).filter (fun earlier => IsDayOn year month weekday earlier) =
      (Finset.range ((day - 1) / 7)).image fun back => day - 7 * (back + 1) := by
    ext earlier
    simp only [Finset.mem_filter, Finset.mem_Ico, Finset.mem_image, Finset.mem_range,
      isDayOn_iff_sum hy hm]
    constructor
    · intro he
      exact ⟨(day - earlier) / 7 - 1, by omega, by omega⟩
    · intro counted
      obtain ⟨back, hb, rfl⟩ := counted
      omega
  rw [weeks, Finset.card_image_of_injOn, Finset.card_range]
  intro back hb back' hb' same
  simp only [Finset.coe_range, Set.mem_Iio] at hb hb'
  have same' : day - 7 * (back + 1) = day - 7 * (back' + 1) := same
  omega

theorem nthDay_iff {nth : Nat} (hy : 1 ≤ year) (hm : 1 ≤ month ∧ month ≤ 12)
    (hw : 1 ≤ weekday ∧ weekday ≤ 7) (hn : 1 ≤ nth)
    (valid : 1 ≤ day ∧ day ≤ monthLength year month) :
    day = 1 + (weekday + 7 - weekdayOf year month 1) % 7 + (nth - 1) * 7 ↔
      IsDayOn year month weekday day ∧ (day - 1) / 7 + 1 = nth := by
  rw [isDayOn_iff_sum hy hm, weekdayOf, weekdaySum_add _ _ 1]
  omega

end Month

theorem mem_singleton_iff_of_unique {P : Nat → Prop} {found day : Nat} (holds : P found)
    (unique : P day → day = found) : day ∈ [found] ↔ P day := by
  rw [List.mem_singleton]
  constructor
  · intro same
    exact same ▸ holds
  · exact unique

namespace DayRule

section Rules

variable {year month day : Nat} {days : List Nat}

theorem mem_weekdayNear_iff {near : Nat} (hy : 1 ≤ year) (hm : 1 ≤ month ∧ month ≤ 12)
    (hp : 1 ≤ near) (hd : (weekdayNear near).daysIn year month = .ok days) :
    day ∈ days ↔ near ≤ monthLength year month ∧ IsNearestWorkingDay year month near day := by
  have hlen : daysInMonth year month = .ok (monthLength year month) := daysInMonth_eq hm
  rw [daysIn, hlen, ok_bind] at hd
  by_cases inside : near ≤ monthLength year month
  · obtain ⟨nearest, hf, hnear⟩ := nearestWeekday_nearest hy hm hp inside
    rw [hf, ok_bind] at hd
    cases Except.ok.inj hd
    rw [and_iff_right inside]
    exact mem_singleton_iff_of_unique hnear hnear.unique
  · have off : ¬ isValidDate year month near := by
      rw [isValidDate_natCast_iff]
      omega
    rw [nearestWeekday_off_calendar off, ok_bind] at hd
    cases Except.ok.inj hd
    simp [inside]

theorem mem_lastWeekday_iff (hy : 1 ≤ year) (hm : 1 ≤ month ∧ month ≤ 12)
    (hd : lastWeekday.daysIn year month = .ok days) :
    day ∈ days ↔ IsGreatest {other | IsWorkingDay year month other} day := by
  have hmin : 28 ≤ monthLength year month := le_monthLength hm.1 hm.2
  have hlen : daysInMonth year month = .ok (monthLength year month) := daysInMonth_eq hm
  obtain ⟨last, hf, hnear⟩ :=
    nearestWeekday_nearest hy hm (by omega) (Nat.le_refl (monthLength year month))
  rw [daysIn, hlen, ok_bind, hf, ok_bind] at hd
  cases Except.ok.inj hd
  exact mem_singleton_iff_of_unique hnear.greatest fun last => last.unique hnear.greatest

theorem mem_lastOfWeek_iff {weekday : Nat} (hy : 1 ≤ year) (hm : 1 ≤ month ∧ month ≤ 12)
    (hw : 1 ≤ weekday ∧ weekday ≤ 7) (hd : (lastOfWeek weekday).daysIn year month = .ok days) :
    day ∈ days ↔ IsGreatest {other | IsDayOn year month weekday other} day := by
  have positive : year ≠ 0 := by omega
  obtain ⟨last, hf, -⟩ := lastDayOn_total positive hm hw
  rw [daysIn, hf, ok_bind] at hd
  cases Except.ok.inj hd
  have greatest := lastDayOn_greatest hy hm hf
  exact mem_singleton_iff_of_unique greatest fun last => last.unique greatest

theorem mem_nthOfWeek_iff {weekday nth : Nat} (hy : 1 ≤ year) (hm : 1 ≤ month ∧ month ≤ 12)
    (hw : 1 ≤ weekday ∧ weekday ≤ 7) (hn : 1 ≤ nth)
    (hd : (nthOfWeek weekday nth).daysIn year month = .ok days)
    (valid : 1 ≤ day ∧ day ≤ monthLength year month) :
    day ∈ days ↔ IsDayOn year month weekday day ∧
      ((Finset.Ico 1 day).filter fun earlier => IsDayOn year month weekday earlier).card + 1 =
        nth := by
  have positive : year ≠ 0 := by omega
  rw [daysIn, nthDayOn_eq positive hm hw (by omega), ok_bind] at hd
  cases Except.ok.inj hd
  rw [and_congr_right fun hon => by rw [card_earlier_days hy hm hon],
    ← nthDay_iff hy hm hw hn valid]
  split
  next => simp
  next outside =>
    simp only [Option.toList_none, List.not_mem_nil, false_iff]
    omega

theorem Allowed.mem_daysIn_iff {rule : DayRule} (allowed : rule.Allowed) (hy : 1 ≤ year)
    (hm : 1 ≤ month ∧ month ≤ 12) (hd : rule.daysIn year month = .ok days)
    (valid : 1 ≤ day ∧ day ≤ monthLength year month) :
    day ∈ days ↔ rule.Means year month day := by
  have hlen : daysInMonth year month = .ok (monthLength year month) := daysInMonth_eq hm
  cases rule with
  | daysOfMonth list =>
    have date : isValidDate year month day := isValidDate_natCast_iff.mpr valid
    rw [daysIn, hlen, ok_bind] at hd
    cases Except.ok.inj hd
    rw [List.mem_filter, and_iff_left date, Means]
  | fromLast offset =>
    rw [daysIn, hlen, ok_bind] at hd
    cases Except.ok.inj hd
    rw [Means]
    split
    next inside =>
      rw [List.mem_singleton]
      omega
    next outside =>
      simp only [List.not_mem_nil, false_iff]
      omega
  | weekdayNear near => exact mem_weekdayNear_iff hy hm allowed.1 hd
  | lastWeekday => exact mem_lastWeekday_iff hy hm hd
  | daysOfWeek weekdays =>
    have positive : year ≠ 0 := by omega
    rw [daysIn_daysOfWeek positive hm] at hd
    cases Except.ok.inj hd
    rw [List.mem_filter, FieldSet.contains_iff, weekdayOf_eq_gregorianWeekday day hy hm, Means,
      List.mem_range'_1, and_iff_right (by omega)]
  | lastOfWeek weekday => exact mem_lastOfWeek_iff hy hm allowed hd
  | nthOfWeek weekday nth => exact mem_nthOfWeek_iff hy hm allowed.1 allowed.2.1 hd valid

end Rules

end DayRule

/-- The days of a month that a rule picks are the days it means, in order. The nearest working day
to a day of the month always exists and is one only. -/
theorem DayRule.picks_days_it_means {dayOfMonth dayOfWeek : String} {rule : DayRule}
    (parsed : DayRule.parse dayOfMonth dayOfWeek = .ok rule) (year month : Nat) (hy : 1 ≤ year)
    (hm : 1 ≤ month ∧ month ≤ 12) :
    (∃ days, rule.daysIn year month = .ok days ∧ days.Pairwise (· < ·) ∧
      (∀ day ∈ days, 1 ≤ day ∧ day ≤ monthLength year month) ∧
      ∀ day, 1 ≤ day → day ≤ monthLength year month →
        (day ∈ days ↔ rule.Means year month day)) ∧
    ∀ near, rule = .weekdayNear near → near ≤ monthLength year month →
      ∃! day, IsNearestWorkingDay year month near day := by
  have allowed := DayRule.parse_allowed parsed
  have positive : year ≠ 0 := by omega
  constructor
  · obtain ⟨days, hd, ascending, inMonth⟩ := DayRule.daysIn_total allowed positive hm
    exact ⟨days, hd, ascending, inMonth,
      fun day hp hl => allowed.mem_daysIn_iff hy hm hd ⟨hp, hl⟩⟩
  · intro near same inside
    subst same
    obtain ⟨day, -, hnear⟩ := nearestWeekday_nearest hy hm allowed.1 inside
    exact ⟨day, hnear, fun other ho => hnear.unique ho⟩

/-- Both ends of a month fall on a weekend: the first of October 2022 is a Saturday, and the last of
April 2023 is a Sunday. -/
theorem DayRule.picks_days_at_month_ends :
    (DayRule.parse "1W" "?" = .ok (.weekdayNear 1) ∧ IsNearestWorkingDay 2022 10 1 3 ∧
        ∃! day, IsNearestWorkingDay 2022 10 1 day) ∧
      DayRule.parse "LW" "?" = .ok .lastWeekday ∧
        IsGreatest {day | IsWorkingDay 2023 4 day} 28 := by
  have first : DayRule.parse "1W" "?" = .ok (.weekdayNear 1) := by decide +kernel
  have last : DayRule.parse "LW" "?" = .ok .lastWeekday := by decide +kernel
  have days : (DayRule.weekdayNear 1).daysIn 2022 10 = .ok [3] := by decide +kernel
  have days' : DayRule.lastWeekday.daysIn 2023 4 = .ok [28] := by decide +kernel
  obtain ⟨⟨picked, hp, -, -, means⟩, unique⟩ :=
    DayRule.picks_days_it_means first 2022 10 (by decide) (by decide)
  obtain ⟨⟨picked', hp', -, -, means'⟩, -⟩ :=
    DayRule.picks_days_it_means last 2023 4 (by decide) (by decide)
  cases Except.ok.inj (days.symm.trans hp)
  cases Except.ok.inj (days'.symm.trans hp')
  exact ⟨⟨first, ((means 3 (by decide) (by decide)).mp (by decide)).2, unique 1 rfl (by decide)⟩,
    last, (means' 28 (by decide) (by decide)).mp (by decide)⟩

end CronTimes
