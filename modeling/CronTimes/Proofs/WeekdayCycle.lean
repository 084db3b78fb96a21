import CronTimes.Proofs.GregorianWeekday
import CronTimes.Proofs.NarrowCalendar

namespace CronTimes

namespace Date

/-- The years from 1 on that 16 bits can count. -/
def InWord (date : Date) : Prop :=
  1 ≤ date.year ∧ date.year ≤ wordCeiling

/-- A day has a weekday by the formula, and 16 bits hold every number on the way to it. -/
def FallsOn (date : Date) (weekday : Nat) : Prop :=
  dayOfWeek date.year.toNat date.month date.day = .ok weekday ∧
    Narrow.dayOfWeek .all date.year.toNat date.month date.day = .ok weekday

/-- The number of days from one day to another, counted by going from day to day. It is negative
where the other day is the earlier one. -/
inductive Apart (first : Date) : Date → Int → Prop
  | same : Apart first first 0
  | later {date next : Date} {days : Int} (h : Apart first date days)
      (step : date.next? = some next) : Apart first next (days + 1)
  | earlier {date next : Date} {days : Int} (h : Apart first next days)
      (step : date.next? = some next) : Apart first date (days - 1)

variable {first date next other : Date} {days : Int} {weekday : Nat}

theorem fallsOn_iff (range : date.InWord) :
    date.FallsOn weekday ↔ (weekday : Int) = (date.dayNumber + 4) % 7 + 1 := by
  obtain ⟨hy, hw⟩ := range
  have same : (date.year.toNat : Int) = date.year := Int.toNat_of_nonneg (by omega)
  have hd : date.day ≤ monthLength date.year.toNat date.month := by
    rw [same]
    exact date.day_le
  have plain : dayOfWeek date.year.toNat date.month date.day =
      .ok (gregorianWeekday date.year.toNat date.month date.day) := by
    rw [dayOfWeek_eq (by omega) date.day_pos hd,
      weekdayOf_eq_gregorianWeekday date.day (by omega) date.month_bounds]
  have narrow : Fits (Narrow.dayOfWeek .all date.year.toNat date.month date.day)
      (dayOfWeek date.year.toNat date.month date.day) :=
    Narrow.dayOfWeek_fits rfl date.day
  unfold Fits at narrow
  rw [FallsOn, narrow, plain]
  simp only [Except.mapError, Except.ok.injEq, and_self]
  rw [gregorianWeekday, same, ← dayNumber_eq]
  omega

theorem next?_year (h : date.next? = some next) : date.year ≤ next.year := by
  obtain ⟨lt, -⟩ := next?_nearest h
  rcases rank_lt_iff.mp lt with year | ⟨year, -⟩ <;> omega

/-- Each day but the first of the calendar is the next one to some day. -/
theorem exists_next?_eq (h : other.rank < date.rank) :
    ∃ prior : Date, prior.next? = some date ∧ other.rank ≤ prior.rank := by
  obtain ⟨prior, hp⟩ := prev?_exists h
  obtain ⟨before, last⟩ := prev?_nearest hp
  obtain ⟨next, hn⟩ := next?_exists before
  obtain ⟨after, least⟩ := next?_nearest hn
  have hle := least date before
  have hge : ¬ next.rank < date.rank := by
    intro between
    have := last next between
    omega
  have same : next = date := rank_inj.mp (by omega)
  exact ⟨prior, same ▸ hn, last other h⟩

theorem Apart.dayNumber (h : first.Apart date days) : date.dayNumber = first.dayNumber + days := by
  induction h with
  | same => omega
  | later _ step ih =>
    have := dayNumber_next? step
    omega
  | earlier _ step ih =>
    have := dayNumber_next? step
    omega

theorem exists_apart_of_le (h : first.rank ≤ date.rank) : ∃ days, first.Apart date days := by
  induction distance : (date.rank - first.rank).toNat using Nat.strong_induction_on
    generalizing date with
  | _ distance ih =>
    by_cases same : first.rank = date.rank
    · cases rank_inj.mp same
      exact ⟨0, .same⟩
    · obtain ⟨prior, step, hle⟩ := exists_next?_eq (show first.rank < date.rank by omega)
      obtain ⟨lt, -⟩ := next?_nearest step
      obtain ⟨days, apart⟩ := ih (prior.rank - first.rank).toNat (by omega) hle rfl
      exact ⟨days + 1, apart.later step⟩

theorem exists_apart_of_ge (h : date.rank ≤ first.rank) : ∃ days, first.Apart date days := by
  induction distance : (first.rank - date.rank).toNat using Nat.strong_induction_on
    generalizing date with
  | _ distance ih =>
    by_cases same : first.rank = date.rank
    · cases rank_inj.mp same
      exact ⟨0, .same⟩
    · have lt : date.rank < first.rank := by omega
      obtain ⟨next, step⟩ := next?_exists lt
      obtain ⟨after, least⟩ := next?_nearest step
      have hle := least first lt
      obtain ⟨days, apart⟩ := ih (first.rank - next.rank).toNat (by omega) hle rfl
      exact ⟨days - 1, apart.earlier step⟩

/-- Going from day to day leads from any day to any other one, and the count of days on the way does
not depend on the way. -/
theorem apart_iff (first date : Date) :
    first.Apart date days ↔ days = date.dayNumber - first.dayNumber := by
  constructor
  · intro h
    have := h.dayNumber
    omega
  · rintro rfl
    obtain ⟨days, h⟩ : ∃ days, first.Apart date days := by
      rcases Int.le_total first.rank date.rank with le | ge
      · exact exists_apart_of_le le
      · exact exists_apart_of_ge ge
    have same : days = date.dayNumber - first.dayNumber := by
      have := h.dayNumber
      omega
    exact same ▸ h

theorem ofCivil?_exists {year month day : Nat} (hy : 1 ≤ year) (hw : year ≤ wordCeiling)
    (valid : isValidDate year month day) :
    ∃ date, ofCivil? year month day = some date ∧ date.InWord := by
  obtain ⟨hp, hd⟩ := isValidDate_natCast_iff.mp valid
  unfold wordCeiling at hw
  have inside : calendarStart ≤ year ∧ (year : Int) ≤ calendarEnd ∧ 1 ≤ day ∧
      day ≤ monthLength year month := by
    unfold calendarStart calendarEnd
    omega
  refine ⟨_, dif_pos inside, ?_⟩
  unfold InWord wordCeiling
  dsimp only
  omega

/-- Weekdays go round with the days of the Gregorian calendar, through all years that 16 bits can
count: from a day to the next one the weekday moves on by one, and between any two days by the number
of days that they are apart. -/
theorem weekday_follows_days :
    (∃ epoch, ofCivil? 1970 1 1 = some epoch ∧ epoch.FallsOn 5) ∧
    ∀ year month day : Nat, 1 ≤ year → year ≤ wordCeiling → isValidDate year month day →
      ∃ date weekday, ofCivil? year month day = some date ∧ date.FallsOn weekday ∧
        (1 ≤ weekday ∧ weekday ≤ 7) ∧
        (∀ next, date.next? = some next → next.year ≤ wordCeiling →
          next.FallsOn (weekday % 7 + 1)) ∧
        ∀ other : Date, other.InWord → ∃ days, (∀ count, other.Apart date count ↔ count = days) ∧
          ∀ weekday', other.FallsOn weekday' → (weekday : Int) = (weekday' - 1 + days) % 7 + 1 := by
  constructor
  · obtain ⟨epoch, he, range⟩ : ∃ epoch, ofCivil? (1970 : Nat) 1 1 = some epoch ∧ epoch.InWord :=
      ofCivil?_exists (by decide) (by decide) (by decide)
    obtain ⟨hy, hm, hd⟩ := ofCivil?_eq_some_iff.mp he
    refine ⟨epoch, he, (fallsOn_iff range).mpr ?_⟩
    rw [dayNumber_eq, hy, hm, hd]
    decide
  · intro year month day hy hw valid
    obtain ⟨date, hdate, range⟩ := ofCivil?_exists hy hw valid
    have falls : date.FallsOn ((date.dayNumber + 4) % 7 + 1).toNat :=
      (fallsOn_iff range).mpr (by omega)
    refine ⟨date, _, hdate, falls, by omega, ?_, ?_⟩
    · intro next step last
      have range' : next.InWord := ⟨Int.le_trans range.1 (next?_year step), last⟩
      have following := dayNumber_next? step
      rw [fallsOn_iff range']
      omega
    · intro other range'
      refine ⟨date.dayNumber - other.dayNumber, fun count => apart_iff other date, ?_⟩
      intro weekday' falls'
      rw [fallsOn_iff range'] at falls'
      omega

/-- The year 2100 has no leap day. -/
theorem weekday_follows_days_of_2100 :
    ∃ date next, ofCivil? 2100 2 28 = some date ∧ date.next? = some next ∧
      ofCivil? 2100 3 1 = some next ∧ date.FallsOn 1 ∧ next.FallsOn 2 := by
  obtain ⟨-, weekdays⟩ := weekday_follows_days
  obtain ⟨date, weekday, hdate, falls, -, onward, -⟩ :=
    weekdays 2100 2 28 (by decide) (by decide) (by decide)
  obtain ⟨hy, hm, hd⟩ := ofCivil?_eq_some_iff.mp hdate
  have sunday : dayOfWeek 2100 2 28 = .ok 1 := by decide
  have same : dayOfWeek 2100 2 28 = .ok weekday := by
    have plain := falls.1
    rwa [hy, hm, hd] at plain
  cases Except.ok.inj (sunday.symm.trans same)
  have following : date.next? = ofCivil? 2100 3 1 := by
    rw [next?, hy, hm, hd]
    decide
  obtain ⟨next, hnext⟩ : ∃ next, ofCivil? 2100 3 1 = some next := ⟨_, rfl⟩
  have step := following.trans hnext
  have last : next.year ≤ wordCeiling := by
    rw [(ofCivil?_eq_some_iff.mp hnext).1]
    decide
  exact ⟨date, next, hdate, step, hnext, falls, onward next step last⟩

end Date

end CronTimes
