import CronTimes.Minute

namespace CronTimes

/-- A point in time, to the nanosecond. In the last second of a minute the nanoseconds may run on
through a leap second. -/
@[ext]
structure Instant where
  minute : Minute
  second : Nat
  nanosecond : Nat
  second_le : second ≤ 59
  nanosecond_lt : nanosecond < 2000000000
  leap_only_at_end : nanosecond < 1000000000 ∨ second = 59
deriving DecidableEq

def Instant.of? (minute : Minute) (second nanosecond : Nat) : Option Instant :=
  if h : second ≤ 59 ∧ nanosecond < 2000000000 ∧ (nanosecond < 1000000000 ∨ second = 59) then
    some ⟨minute, second, nanosecond, h.1, h.2.1, h.2.2⟩
  else none

/-- The first instant of a minute. -/
def Minute.start (minute : Minute) : Instant :=
  ⟨minute, 0, 0, by decide, by decide, by decide⟩

/-- The place of an instant among all instants, in the calendar of `Minute.rank`. -/
def Instant.rank (instant : Instant) : Int :=
  (instant.minute.rank * 60 + instant.second) * 2000000000 + instant.nanosecond

instance : LE Instant := ⟨fun first second => first.rank ≤ second.rank⟩

instance : LT Instant := ⟨fun first second => first.rank < second.rank⟩

instance (first second : Instant) : Decidable (first ≤ second) :=
  inferInstanceAs (Decidable (first.rank ≤ second.rank))

instance (first second : Instant) : Decidable (first < second) :=
  inferInstanceAs (Decidable (first.rank < second.rank))

/-- Seconds since 1970-01-01T00:00:00, leap seconds not counted. -/
def Instant.unixSeconds (instant : Instant) : Int :=
  ((instant.minute.date.dayNumber * 24 + instant.minute.hour) * 60 + instant.minute.minute) * 60 +
    instant.second

def Instant.ofUnix? (seconds : Int) (nanosecond : Nat) : Option Instant := do
  let date ← Date.ofDayNumber? (seconds / 86400)
  let second := (seconds % 86400).toNat
  let minute ← Minute.ofClock? date (second / 3600) (second / 60 % 60)
  of? minute (second % 60) nanosecond

theorem Instant.of?_eq_some_iff {minute : Minute} {second nanosecond : Nat} {instant : Instant} :
    of? minute second nanosecond = some instant ↔
      instant.minute = minute ∧ instant.second = second ∧ instant.nanosecond = nanosecond := by
  unfold of?
  split
  · constructor
    · intro h
      cases Option.some.inj h
      exact ⟨rfl, rfl, rfl⟩
    · rintro ⟨rfl, rfl, rfl⟩
      rfl
  next outside =>
    constructor
    · intro h
      simp at h
    · rintro ⟨rfl, rfl, rfl⟩
      exact absurd ⟨instant.second_le, instant.nanosecond_lt, instant.leap_only_at_end⟩ outside

/-- No instant of an earlier minute is at or past the start of a later one. -/
theorem Instant.le_start_iff {instant : Instant} {minute : Minute} :
    instant ≤ minute.start ↔
      instant.minute < minute ∨ instant = instant.minute.start ∧ instant.minute = minute := by
  have second := instant.second_le
  have nano := instant.nanosecond_lt
  change instant.rank ≤ minute.start.rank ↔ instant.minute.rank < minute.rank ∨ _
  have ranks : minute.start.rank = minute.rank * 60 * 2000000000 := by
    simp [Instant.rank, Minute.start]
  rw [ranks]
  unfold Instant.rank
  constructor
  · intro le
    by_cases earlier : instant.minute.rank < minute.rank
    · exact Or.inl earlier
    · have whole : instant.minute.rank = minute.rank ∧ instant.second = 0 ∧
          instant.nanosecond = 0 := by omega
      exact Or.inr ⟨Instant.ext rfl whole.2.1 whole.2.2, Minute.rank_inj.mp whole.1⟩
  · rintro (earlier | ⟨whole, rfl⟩)
    · omega
    · have : instant.second = 0 := by rw [whole]; rfl
      have : instant.nanosecond = 0 := by rw [whole]; rfl
      omega

end CronTimes
