import CronTimes.Calendar

namespace CronTimes

/-- The first year of the calendar that instants live in. -/
def calendarStart : Int := -262143

/-- The last year of the calendar that instants live in. -/
def calendarEnd : Int := 262142

/-- A day of the proleptic Gregorian calendar; the year before year 1 is year 0. -/
@[ext]
structure Date where
  year : Int
  month : Nat
  day : Nat
  year_ge : calendarStart ≤ year
  year_le : year ≤ calendarEnd
  day_pos : 1 ≤ day
  day_le : day ≤ monthLength year month
deriving DecidableEq

def Date.ofCivil? (year : Int) (month day : Nat) : Option Date :=
  if h : calendarStart ≤ year ∧ year ≤ calendarEnd ∧ 1 ≤ day ∧ day ≤ monthLength year month then
    some ⟨year, month, day, h.1, h.2.1, h.2.2.1, h.2.2.2⟩
  else none

/-- The day after, which opens a month or a year where the running one has no further day. -/
def Date.next? (date : Date) : Option Date :=
  ofCivil? date.year date.month (date.day + 1) <|>
    ofCivil? date.year (date.month + 1) 1 <|> ofCivil? (date.year + 1) 1 1

/-- The day before, which closes a month or a year where the running one has no earlier day. -/
def Date.prev? (date : Date) : Option Date :=
  ofCivil? date.year date.month (date.day - 1) <|>
    ofCivil? date.year (date.month - 1) (monthLength date.year (date.month - 1)) <|>
      ofCivil? (date.year - 1) 12 31

/-- The place of a day in a calendar whose months all have 31 days. It orders the days, but
differences are no durations. -/
def Date.rank (date : Date) : Int :=
  (date.year * 12 + date.month) * 31 + date.day

/-- Days from the start of year 1 to the start of a year. -/
def daysBeforeYear (year : Int) : Int :=
  (year - 1) * 365 + (year - 1) / 4 - (year - 1) / 100 + (year - 1) / 400

/-- Days from the start of a year to the start of a month. -/
def daysBeforeMonth (year : Int) (month : Nat) : Nat :=
  (List.range' 1 (month - 1)).foldl (fun days month => days + monthLength year month) 0

/-- Days since 1970-01-01. -/
def Date.dayNumber (date : Date) : Int :=
  daysBeforeYear date.year + daysBeforeMonth date.year date.month + (date.day - 1) -
    daysBeforeYear 1970

/-- The month and day that lie a number of days after the first of the given months, which follow
each other. -/
def monthAndDay? (year : Int) : List Nat → Nat → Option (Nat × Nat)
  | [], _ => none
  | month :: months, days =>
    if days < monthLength year month then some (month, days + 1)
    else monthAndDay? year months (days - monthLength year month)

/-- The year of a day counted from the start of year 1. The mean length of a year is 146097 / 400
days; dividing by it misses the year by one at most. -/
def yearOfDay (days : Int) : Int :=
  let guess := days * 400 / 146097 + 1
  if days < daysBeforeYear guess then guess - 1
  else if daysBeforeYear (guess + 1) ≤ days then guess + 1
  else guess

def Date.ofDayNumber? (number : Int) : Option Date := do
  let days := number + daysBeforeYear 1970
  let year := yearOfDay days
  let (month, day) ← monthAndDay? year (List.range' 1 12) (days - daysBeforeYear year).toNat
  ofCivil? year month day

theorem Date.ofCivil?_eq_some_iff {year : Int} {month day : Nat} {date : Date} :
    ofCivil? year month day = some date ↔
      date.year = year ∧ date.month = month ∧ date.day = day := by
  unfold ofCivil?
  split
  · constructor
    · intro h
      cases Option.some.inj h
      exact ⟨rfl, rfl, rfl⟩
    · rintro ⟨rfl, rfl, rfl⟩
      rfl
  next outside =>
    constructor
    · intro h
      simp at h
    · rintro ⟨rfl, rfl, rfl⟩
      exact absurd ⟨date.year_ge, date.year_le, date.day_pos, date.day_le⟩ outside

theorem Date.month_bounds (date : Date) : 1 ≤ date.month ∧ date.month ≤ 12 :=
  monthLength_pos_iff.mp (Nat.lt_of_lt_of_le date.day_pos date.day_le)

theorem Date.day_le_31 (date : Date) : date.day ≤ 31 :=
  Nat.le_trans date.day_le monthLength_le

theorem Date.rank_lt_iff {first second : Date} :
    first.rank < second.rank ↔
      first.year < second.year ∨
        first.year = second.year ∧
          (first.month < second.month ∨ first.month = second.month ∧ first.day < second.day) := by
  have := first.month_bounds
  have := second.month_bounds
  have := first.day_le_31
  have := second.day_le_31
  have := first.day_pos
  have := second.day_pos
  unfold rank
  omega

theorem Date.rank_inj {first second : Date} : first.rank = second.rank ↔ first = second := by
  refine ⟨fun same => ?_, fun same => same ▸ rfl⟩
  have := first.month_bounds
  have := second.month_bounds
  have := first.day_le_31
  have := second.day_le_31
  have := first.day_pos
  have := second.day_pos
  unfold rank at same
  exact Date.ext (by omega) (by omega) (by omega)

end CronTimes
