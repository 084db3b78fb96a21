import CronTimes.Proofs.NarrowCalendar
import CronTimes.Proofs.PickedDays

namespace CronTimes

/-- The days of a month on one day of the week: from the one among the first seven days on, every
seventh day. -/
def daysOn (year month weekday : Nat) : List Nat :=
  let first := 1 + (weekday + 7 - weekdayOf year month 1) % 7
  List.range' first ((monthLength year month - first) / 7 + 1) 7

section Month

variable {year month weekday day : Nat}

theorem pairwise_daysOn : (daysOn year month weekday).Pairwise (· < ·) :=
  List.pairwise_lt_range' 7 (by decide)

/-- A month of 28 days has every weekday four times, and three days more are less than a week. -/
theorem length_daysOn (year weekday : Nat) (hm : 1 ≤ month ∧ month ≤ 12) :
    (daysOn year month weekday).length = 4 ∨ (daysOn year month weekday).length = 5 := by
  have least : 28 ≤ monthLength year month := le_monthLength hm.1 hm.2
  have greatest : monthLength year month ≤ 31 := monthLength_le
  rw [daysOn, List.length_range']
  omega

theorem mem_daysOn_iff (hm : 1 ≤ month ∧ month ≤ 12) (hw : 1 ≤ weekday ∧ weekday ≤ 7) :
    day ∈ daysOn year month weekday ↔
      (1 ≤ day ∧ day ≤ monthLength year month) ∧ weekdayOf year month day = weekday := by
  have least : 28 ≤ monthLength year month := le_monthLength hm.1 hm.2
  rw [daysOn, List.mem_range', weekdayOf, weekdayOf, weekdaySum_add _ _ day,
    weekdaySum_add _ _ 1]
  constructor
  · rintro ⟨week, hweek, rfl⟩
    omega
  · rintro ⟨inside, on⟩
    exact ⟨(day - 1) / 7, by omega, by omega⟩

theorem mem_daysOn_iff_dayOfWeek (hy : 1 ≤ year) (hm : 1 ≤ month ∧ month ≤ 12)
    (hw : 1 ≤ weekday ∧ weekday ≤ 7) :
    day ∈ daysOn year month weekday ↔
      isValidDate year month day ∧ dayOfWeek year month day = .ok weekday := by
  rw [mem_daysOn_iff hm hw, isValidDate_natCast_iff]
  refine and_congr_right fun valid => ?_
  rw [dayOfWeek_eq (by omega) valid.1 valid.2, Except.ok.injEq]

theorem getElem?_daysOn (hm : 1 ≤ month ∧ month ≤ 12) (week : Nat) :
    (daysOn year month weekday)[week]? =
      let day := 1 + (weekday + 7 - weekdayOf year month 1) % 7 + week * 7
      if day ≤ monthLength year month then some day else none := by
  have least : 28 ≤ monthLength year month := le_monthLength hm.1 hm.2
  dsimp only [daysOn]
  split
  next inside =>
    rw [List.getElem?_range' (by omega), Nat.mul_comm 7 week]
  next outside =>
    rw [List.getElem?_eq_none_iff, List.length_range']
    omega

theorem nthDayOn_eq_getElem? (hy : 1 ≤ year) (hm : 1 ≤ month ∧ month ≤ 12)
    (hw : 1 ≤ weekday ∧ weekday ≤ 7) (nth : Nat) (hn : 1 ≤ nth) :
    nthDayOn year month weekday nth = .ok (daysOn year month weekday)[nth - 1]? := by
  rw [nthDayOn_eq (by omega) hm hw (by omega), getElem?_daysOn hm]

/-- Counting down from the end of a month meets the last of the days within a week. -/
theorem getLast?_daysOn {last : Nat} (hy : 1 ≤ year) (hm : 1 ≤ month ∧ month ≤ 12)
    (hw : 1 ≤ weekday ∧ weekday ≤ 7) (h : lastDayOn year month weekday = .ok last) :
    (daysOn year month weekday).getLast? = some last ∧ monthLength year month < last + 7 := by
  have least : 28 ≤ monthLength year month := le_monthLength hm.1 hm.2
  have member_iff (day : Nat) :
      day ∈ daysOn year month weekday ↔ IsDayOn year month weekday day := by
    rw [mem_daysOn_iff hm hw, weekdayOf_eq_gregorianWeekday day hy hm, IsDayOn]
  obtain ⟨on, greatest⟩ := lastDayOn_greatest hy hm h
  have above : ∀ day ∈ daysOn year month weekday, day ≤ last :=
    fun day hd => greatest ((member_iff day).mp hd)
  have member := (member_iff last).mpr on
  rw [List.getLast?_eq_getElem?]
  rw [daysOn, List.mem_range'] at member
  obtain ⟨week, hweek, same⟩ := member
  have final := above _ (List.mem_range'.mpr ⟨_, Nat.lt_succ_self _, rfl⟩)
  rw [daysOn, List.length_range', List.getElem?_range' (by omega), Option.some.injEq]
  omega

/-- The last of four or five days is the fifth one, if there is a fifth one, and else the fourth. -/
theorem nthDayOn_of_getLast? {last : Nat} (hy : 1 ≤ year) (hm : 1 ≤ month ∧ month ≤ 12)
    (hw : 1 ≤ weekday ∧ weekday ≤ 7) (h : (daysOn year month weekday).getLast? = some last) :
    nthDayOn year month weekday 5 = .ok (some last) ∨
      nthDayOn year month weekday 5 = .ok none ∧
        nthDayOn year month weekday 4 = .ok (some last) := by
  rw [nthDayOn_eq_getElem? hy hm hw 5 (by decide), nthDayOn_eq_getElem? hy hm hw 4 (by decide),
    Except.ok.injEq, Except.ok.injEq, Except.ok.injEq]
  rw [List.getLast?_eq_getElem?] at h
  rcases length_daysOn year weekday hm with four | five
  · rw [four] at h
    exact Or.inr ⟨List.getElem?_eq_none (by omega), h⟩
  · rw [five] at h
    exact Or.inl h

end Month

/-- The days of a month on one day of the week are found in two ways, by their number from the start
of the month and by counting down from its end. Both ways lead to the same four or five days. -/
theorem weekdays_run_through_month (year month weekday : Nat) (hy : 1 ≤ year)
    (hm : 1 ≤ month ∧ month ≤ 12) (hw : 1 ≤ weekday ∧ weekday ≤ 7) :
    ∃ days : List Nat, (days.length = 4 ∨ days.length = 5) ∧ days.Pairwise (· < ·) ∧
      (∀ day : Nat, day ∈ days ↔
        isValidDate year month day ∧ dayOfWeek year month day = .ok weekday) ∧
      (∀ nth, 1 ≤ nth → nthDayOn year month weekday nth = .ok days[nth - 1]? ∧
        (7 * nth ≤ wordCeiling →
          Narrow.nthDayOn .all year month weekday nth = .ok days[nth - 1]?)) ∧
      ∃ last, (lastDayOn year month weekday = .ok last ∧
          Narrow.lastDayOn .all year month weekday = .ok last) ∧
        days.getLast? = some last ∧
        (last ≤ monthLength year month ∧ monthLength year month < last + 7) ∧
        (∀ day, last < day → day ≤ monthLength year month →
          ∃ other, dayOfWeek year month day = .ok other ∧ other ≠ weekday) ∧
        (nthDayOn year month weekday 5 = .ok (some last) ∨
          nthDayOn year month weekday 5 = .ok none ∧
            nthDayOn year month weekday 4 = .ok (some last)) := by
  have positive : year ≠ 0 := by omega
  have numbered := nthDayOn_eq_getElem? hy hm hw
  obtain ⟨last, hlast, hp, hl⟩ := lastDayOn_total positive hm hw
  obtain ⟨final, near⟩ := getLast?_daysOn hy hm hw hlast
  refine ⟨daysOn year month weekday, length_daysOn year weekday hm, pairwise_daysOn,
    fun day => mem_daysOn_iff_dayOfWeek hy hm hw, ?_, last, ⟨hlast, ?_⟩, final, ⟨hl, near⟩, ?_,
    nthDayOn_of_getLast? hy hm hw final⟩
  · intro nth hn
    refine ⟨numbered nth hn, ?_⟩
    intro small
    rw [Narrow.nthDayOn_fits rfl rfl small, numbered nth hn]
    rfl
  · rw [Narrow.lastDayOn_fits rfl weekday, hlast]
    rfl
  · intro day after inside
    refine ⟨_, dayOfWeek_eq positive (by omega) inside, ?_⟩
    intro same
    rw [weekdayOf_eq_gregorianWeekday day hy hm] at same
    have := (lastDayOn_greatest hy hm hlast).2 ⟨⟨by omega, inside⟩, same⟩
    omega

/-- The last month that 16 bits can count begins on a Sunday and has four Saturdays. The largest number
that can be asked for is no danger. -/
theorem weekdays_run_through_last_month :
    dayOfWeek 65535 12 1 = .ok 1 ∧ nthDayOn 65535 12 7 4 = .ok (some 28) ∧
      Narrow.nthDayOn .all 65535 12 7 9362 = .ok none ∧
        Narrow.lastDayOn .all 65535 12 7 = .ok 28 := by
  have four : nthDayOn 65535 12 7 4 = .ok (some 28) := by decide
  have five : nthDayOn 65535 12 7 5 = .ok none := by decide
  obtain ⟨days, count, -, -, numbered, last, ⟨-, hlast⟩, -, -, -, final⟩ :=
    weekdays_run_through_month 65535 12 7 (by decide) (by decide) (by decide)
  have short : days[4]? = none := (Except.ok.inj ((numbered 5 (by decide)).1.symm.trans five))
  have end_of_days := List.getElem?_eq_none_iff.mp short
  have beyond := (numbered 9362 (by decide)).2 (by decide)
  rw [List.getElem?_eq_none (by omega)] at beyond
  have same : last = 28 := by
    rcases final with fifth | ⟨-, fourth⟩
    · simp [five] at fifth
    · simpa [four, eq_comm] using fourth
  exact ⟨by decide, four, beyond, same ▸ hlast⟩

end CronTimes
