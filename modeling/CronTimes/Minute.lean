import CronTimes.Date

namespace CronTimes

/-- A whole minute. -/
@[ext]
structure Minute where
  date : Date
  hour : Nat
  minute : Nat
  hour_lt : hour < 24
  minute_lt : minute < 60
deriving DecidableEq

def Minute.ofClock? (date : Date) (hour minute : Nat) : Option Minute :=
  if h : hour < 24 ∧ minute < 60 then some ⟨date, hour, minute, h.1, h.2⟩ else none

def Minute.ofCivil? (year : Int) (month day hour minute : Nat) : Option Minute := do
  let date ← Date.ofCivil? year month day
  ofClock? date hour minute

/-- The minute after, which opens an hour or a day where the running one has no further one. -/
def Minute.next? (m : Minute) : Option Minute :=
  if m.minute < 59 then ofClock? m.date m.hour (m.minute + 1)
  else if m.hour < 23 then ofClock? m.date (m.hour + 1) 0
  else m.date.next?.bind fun date => ofClock? date 0 0

/-- The minute before, which closes an hour or a day where the running one has no earlier one. -/
def Minute.prev? (m : Minute) : Option Minute :=
  if 0 < m.minute then ofClock? m.date m.hour (m.minute - 1)
  else if 0 < m.hour then ofClock? m.date (m.hour - 1) 59
  else m.date.prev?.bind fun date => ofClock? date 23 59

/-- The place of a minute in a calendar whose months all have 31 days. It orders the minutes. -/
def Minute.rank (m : Minute) : Int :=
  (m.date.rank * 24 + m.hour) * 60 + m.minute

instance : LE Minute := ⟨fun first second => first.rank ≤ second.rank⟩

instance : LT Minute := ⟨fun first second => first.rank < second.rank⟩

instance (first second : Minute) : Decidable (first ≤ second) :=
  inferInstanceAs (Decidable (first.rank ≤ second.rank))

instance (first second : Minute) : Decidable (first < second) :=
  inferInstanceAs (Decidable (first.rank < second.rank))

theorem Minute.le_iff_rank {first second : Minute} : first ≤ second ↔ first.rank ≤ second.rank :=
  Iff.rfl

theorem Minute.lt_iff_rank {first second : Minute} : first < second ↔ first.rank < second.rank :=
  Iff.rfl

theorem Minute.rank_inj {first second : Minute} : first.rank = second.rank ↔ first = second := by
  refine ⟨fun same => ?_, fun same => same ▸ rfl⟩
  have := first.hour_lt
  have := second.hour_lt
  have := first.minute_lt
  have := second.minute_lt
  unfold rank at same
  exact Minute.ext (Date.rank_inj.mp (by omega)) (by omega) (by omega)

theorem Minute.le_antisymm {first second : Minute} (le : first ≤ second) (ge : second ≤ first) :
    first = second :=
  rank_inj.mp (Int.le_antisymm le ge)

theorem Minute.ofCivil?_eq_some_iff {year : Int} {month day hour minute : Nat} {m : Minute} :
    ofCivil? year month day hour minute = some m ↔
      m.date.year = year ∧ m.date.month = month ∧ m.date.day = day ∧
        m.hour = hour ∧ m.minute = minute := by
  simp only [ofCivil?, Option.bind_eq_bind, Option.bind_eq_some_iff, Date.ofCivil?_eq_some_iff,
    ofClock?]
  constructor
  · rintro ⟨date, ⟨rfl, rfl, rfl⟩, clock⟩
    split at clock
    · cases Option.some.inj clock
      exact ⟨rfl, rfl, rfl, rfl, rfl⟩
    · simp at clock
  · rintro ⟨rfl, rfl, rfl, rfl, rfl⟩
    exact ⟨m.date, ⟨rfl, rfl, rfl⟩, by simp [m.hour_lt, m.minute_lt]⟩

end CronTimes
