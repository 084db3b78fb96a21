namespace CronTimes

/-- Whether a year of the proleptic Gregorian calendar has a leap day. Of the years that close a
century every fourth one has, as of all other years. -/
def hasLeapDay (year : Int) : Bool :=
  if year % 100 = 0 then year % 400 = 0 else year % 4 = 0

/-- The number of days of a month. Outside 1 to 12 there is no month, and it has no day. -/
def monthLength (year : Int) (month : Nat) : Nat :=
  if month = 2 then if hasLeapDay year then 29 else 28
  else if month = 4 ∨ month = 6 ∨ month = 9 ∨ month = 11 then 30
  else if 1 ≤ month ∧ month ≤ 12 then 31
  else 0

theorem monthLength_le {year : Int} {month : Nat} : monthLength year month ≤ 31 := by
  unfold monthLength
  grind

theorem monthLength_pos_iff {year : Int} {month : Nat} :
    0 < monthLength year month ↔ 1 ≤ month ∧ month ≤ 12 := by
  unfold monthLength
  grind

theorem le_monthLength {year : Int} {month : Nat} (first : 1 ≤ month) (last : month ≤ 12) :
    28 ≤ monthLength year month := by
  unfold monthLength
  grind

end CronTimes
