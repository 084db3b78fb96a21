import CronTimes.Proofs.DigitWidths
import CronTimes.Proofs.NarrowCalendar
import CronTimes.Proofs.ScheduleBounds

namespace CronTimes

/-- What a fault is called: years have four digits at least, months and days of a date two. -/
def CalendarFault.Announces (text : String) : CalendarFault → Prop
  | .month m => ∃ month, IsFilled 1 m month ∧ text = "Invalid month: " ++ String.ofList month
  | .date y m d => ∃ year month day, IsFilled 4 y year ∧ IsFilled 2 m month ∧ IsFilled 2 d day ∧
    text = "Invalid date: " ++ String.ofList (year ++ '-' :: month ++ '-' :: day)
  | .weekday w =>
    ∃ weekday, IsFilled 1 w weekday ∧ text = "Invalid day of week: " ++ String.ofList weekday

/-- Where a rule has no answer. A month that does not exist is refused by its number, except that
the nth day on a weekday is counted from the first of the month, which is asked for first. The year
before year 1 has no weekdays; a rule that needs one asks for the day that it looks at first. -/
inductive DayRule.Refuses (year month : Nat) : DayRule → CalendarFault → Prop
  | month {rule : DayRule} (outside : month = 0 ∨ 12 < month)
      (other : ∀ weekday nth, rule ≠ .nthOfWeek weekday nth) : Refuses year month rule (.month month)
  | firstOfNoMonth {weekday nth : Nat} (outside : month = 0 ∨ 12 < month) :
      Refuses year month (.nthOfWeek weekday nth) (.date year month 1)
  | day {day : Nat} (inside : 1 ≤ month ∧ month ≤ 12) (zero : year = 0)
      (listed : day ≤ monthLength year month) :
      Refuses year month (.weekdayNear day) (.date year month day)
  | lastDay {rule : DayRule} (inside : 1 ≤ month ∧ month ≤ 12) (zero : year = 0)
      (closing : rule = .lastWeekday ∨ ∃ weekday, rule = .lastOfWeek weekday) :
      Refuses year month rule (.date year month (monthLength year month))
  | firstDay {rule : DayRule} (inside : 1 ≤ month ∧ month ≤ 12) (zero : year = 0)
      (opening : (∃ weekdays, rule = .daysOfWeek weekdays) ∨
        ∃ weekday nth, rule = .nthOfWeek weekday nth) :
      Refuses year month rule (.date year month 1)

theorem error_bind {α β ε : Type} {e : ε} {f : α → Except ε β} :
    (Except.error e >>= f) = .error e := rfl

namespace CalendarFault

theorem message_month (m : Nat) :
    (month m).message = "Invalid month: " ++ String.ofList (padded 1 m) := rfl

theorem message_date (y m d : Nat) :
    (date y m d).message =
      "Invalid date: " ++ String.ofList (padded 4 y ++ '-' :: padded 2 m ++ '-' :: padded 2 d) := rfl

theorem message_weekday (w : Nat) :
    (weekday w).message = "Invalid day of week: " ++ String.ofList (padded 1 w) := rfl

/-- A fault has one message. -/
theorem announces_iff {fault : CalendarFault} {text : String} :
    fault.Announces text ↔ text = fault.message := by
  have one {value : Nat} {number : List Char} : IsFilled 1 value number ↔ number = padded 1 value :=
    isFilled_iff (by decide)
  have two {value : Nat} {number : List Char} : IsFilled 2 value number ↔ number = padded 2 value :=
    isFilled_iff (by decide)
  have four {value : Nat} {number : List Char} : IsFilled 4 value number ↔ number = padded 4 value :=
    isFilled_iff (by decide)
  cases fault with
  | month m => simp only [Announces, message_month, one, exists_eq_left]
  | date y m d =>
    simp only [Announces, message_date, two, four, exists_and_left, exists_eq_left]
  | weekday w => simp only [Announces, message_weekday, one, exists_eq_left]

end CalendarFault

section Questions

variable {year month weekday nth day : Nat} {fault : CalendarFault}

theorem dayOfWeek_outside (outside : month = 0 ∨ 12 < month) (day : Nat) :
    dayOfWeek year month day = .error (.date year month day) := by
  apply if_neg
  intro h
  have := month_of_isValidDate h.1
  omega

theorem dayOfWeek_zero (zero : year = 0) (day : Nat) :
    dayOfWeek year month day = .error (.date year month day) :=
  if_neg fun h => h.2 zero

theorem nearestWeekday_zero (zero : year = 0) (hp : 1 ≤ day) (hd : day ≤ monthLength year month) :
    nearestWeekday year month day = .error (.date year month day) := by
  have valid : isValidDate year month day := isValidDate_natCast_iff.mpr ⟨hp, hd⟩
  have first : isWeekday year month day = .error (.date year month day) := by
    rw [isWeekday, if_pos valid, Int.toNat_natCast, dayOfWeek_zero zero]
    rfl
  rw [nearestWeekday, if_pos valid, List.findM?, first]
  rfl

theorem lastDayUpTo_zero (zero : year = 0) (hp : 1 ≤ day) :
    lastDayUpTo year month weekday day = .error (.date year month day) := by
  cases day with
  | zero => omega
  | succ day => rw [lastDayUpTo, dayOfWeek_zero zero, error_bind]

theorem lastDayOn_eq (hw : 1 ≤ weekday ∧ weekday ≤ 7) :
    lastDayOn year month weekday =
      daysInMonth year month >>= lastDayUpTo year month weekday :=
  if_pos hw

theorem nthDayOn_of_first (hw : 1 ≤ weekday ∧ weekday ≤ 7) (hn : 1 ≤ nth)
    (first : dayOfWeek year month 1 = .error fault) :
    nthDayOn year month weekday nth = .error fault := by
  rw [nthDayOn, if_neg (by omega), first, error_bind]

end Questions

namespace DayRule

variable {rule : DayRule} {year month : Nat} {fault : CalendarFault}

theorem daysIn_outside (allowed : rule.Allowed) (outside : month = 0 ∨ 12 < month)
    (other : ∀ weekday nth, rule ≠ .nthOfWeek weekday nth) :
    rule.daysIn year month = .error (.month month) := by
  have length := daysInMonth_outside year outside
  cases rule with
  | nthOfWeek weekday nth => exact absurd rfl (other weekday nth)
  | lastOfWeek weekday =>
    rw [daysIn, lastDayOn_eq allowed, length, error_bind, error_bind]
  | daysOfMonth | fromLast | weekdayNear | lastWeekday | daysOfWeek =>
    rw [daysIn, length, error_bind]

/-- A list of weekdays is looked up from the first of the month on. -/
theorem daysIn_daysOfWeek_zero {weekdays : FieldSet} (zero : year = 0)
    (inside : 1 ≤ month ∧ month ≤ 12) :
    (daysOfWeek weekdays).daysIn year month = .error (.date year month 1) := by
  have least : 28 ≤ monthLength year month := le_monthLength inside.1 inside.2
  obtain ⟨rest, hrest⟩ : ∃ rest, monthLength year month = rest + 1 :=
    ⟨monthLength year month - 1, by omega⟩
  rw [daysIn, daysInMonth_eq inside, ok_bind, hrest, List.range'_succ, List.filterM,
    List.filterAuxM, dayOfWeek_zero zero]
  rfl

theorem Refuses.daysIn_eq (allowed : rule.Allowed) (h : rule.Refuses year month fault) :
    rule.daysIn year month = .error fault := by
  cases h with
  | month outside other => exact daysIn_outside allowed outside other
  | firstOfNoMonth outside =>
    have first : CronTimes.dayOfWeek year month 1 = .error (.date year month 1) :=
      dayOfWeek_outside outside 1
    rw [daysIn, nthDayOn_of_first allowed.1 allowed.2.1 first, error_bind]
  | day inside zero listed =>
    rw [daysIn, daysInMonth_eq inside, ok_bind, nearestWeekday_zero zero allowed.1 listed,
      error_bind]
  | lastDay inside zero closing =>
    have least : 28 ≤ monthLength year month := le_monthLength inside.1 inside.2
    have length : daysInMonth year month = .ok (monthLength year month) := daysInMonth_eq inside
    rcases closing with rfl | ⟨weekday, rfl⟩
    · rw [daysIn, length, ok_bind, nearestWeekday_zero zero (by omega) (Nat.le_refl _), error_bind]
    · rw [daysIn, lastDayOn_eq allowed, length, ok_bind, lastDayUpTo_zero zero (by omega),
        error_bind]
  | firstDay inside zero opening =>
    rcases opening with ⟨weekdays, rfl⟩ | ⟨weekday, nth, rfl⟩
    · exact daysIn_daysOfWeek_zero zero inside
    · rw [daysIn, nthDayOn_of_first allowed.1 allowed.2.1 (dayOfWeek_zero zero 1), error_bind]

/-- A day that the month does not have is no question about a weekday. -/
theorem daysIn_weekdayNear_unlisted {day : Nat} (inside : 1 ≤ month ∧ month ≤ 12)
    (unlisted : monthLength year month < day) :
    (weekdayNear day).daysIn year month = .ok [] := by
  have off : ¬ isValidDate year month day := by
    rw [isValidDate_natCast_iff]
    omega
  rw [daysIn, daysInMonth_eq inside, ok_bind, nearestWeekday_off_calendar off, ok_bind]
  rfl

/-- Before year 1 the rules that need no weekday have their answer. -/
theorem daysIn_or_refuses_zero (rule : DayRule) (zero : year = 0)
    (inside : 1 ≤ month ∧ month ≤ 12) :
    (∃ days, rule.daysIn year month = .ok days) ∨ ∃ fault, rule.Refuses year month fault := by
  have length : daysInMonth year month = .ok (monthLength year month) := daysInMonth_eq inside
  cases rule with
  | daysOfMonth days => exact Or.inl ⟨_, by rw [daysIn, length, ok_bind]⟩
  | fromLast offset => exact Or.inl ⟨_, by rw [daysIn, length, ok_bind]⟩
  | weekdayNear day =>
    by_cases listed : day ≤ monthLength year month
    · exact Or.inr ⟨_, .day inside zero listed⟩
    · exact Or.inl ⟨[], daysIn_weekdayNear_unlisted inside (by omega)⟩
  | lastWeekday => exact Or.inr ⟨_, .lastDay inside zero (Or.inl rfl)⟩
  | daysOfWeek weekdays => exact Or.inr ⟨_, .firstDay inside zero (Or.inl ⟨weekdays, rfl⟩)⟩
  | lastOfWeek weekday => exact Or.inr ⟨_, .lastDay inside zero (Or.inr ⟨weekday, rfl⟩)⟩
  | nthOfWeek weekday nth =>
    exact Or.inr ⟨_, .firstDay inside zero (Or.inr ⟨weekday, nth, rfl⟩)⟩

theorem daysIn_or_refuses (allowed : rule.Allowed) (year month : Nat) :
    (∃ days, rule.daysIn year month = .ok days) ∨ ∃ fault, rule.Refuses year month fault := by
  by_cases inside : 1 ≤ month ∧ month ≤ 12
  · by_cases zero : year = 0
    · exact daysIn_or_refuses_zero rule zero inside
    · obtain ⟨days, hd, -⟩ := daysIn_total allowed zero inside
      exact Or.inl ⟨days, hd⟩
  · have outside : month = 0 ∨ 12 < month := by omega
    by_cases counted : ∃ weekday nth, rule = .nthOfWeek weekday nth
    · obtain ⟨weekday, nth, rfl⟩ := counted
      exact Or.inr ⟨_, .firstOfNoMonth outside⟩
    · refine Or.inr ⟨_, .month outside ?_⟩
      intro weekday nth same
      exact counted ⟨weekday, nth, same⟩

theorem daysIn_eq_error_iff (allowed : rule.Allowed) :
    rule.daysIn year month = .error fault ↔ rule.Refuses year month fault := by
  refine ⟨?_, fun h => h.daysIn_eq allowed⟩
  intro h
  rcases daysIn_or_refuses allowed year month with ⟨days, hd⟩ | ⟨cause, refuses⟩
  · simp [hd] at h
  · rw [refuses.daysIn_eq allowed] at h
    exact Except.error.inj h ▸ refuses

/-- A rule refuses the months that do not exist and, where it needs a weekday, the months of year 0,
each with one fault and one message. Everywhere else it has an answer, and nowhere does a number
overflow. -/
theorem refuses_exactly {dayOfMonth dayOfWeek : String} {rule : DayRule}
    (parsed : DayRule.parse dayOfMonth dayOfWeek = .ok rule) (year month : Nat) :
    (∀ fault, rule.daysIn year month = .error fault ↔ rule.Refuses year month fault) ∧
    (∀ fault, rule.Refuses year month fault → ∀ text, fault.Announces text ↔ text = fault.message) ∧
    ((∃ days, rule.daysIn year month = .ok days) ↔ ¬ ∃ fault, rule.Refuses year month fault) ∧
    (∀ days, Narrow.daysIn .all rule year month = .ok days ↔ rule.daysIn year month = .ok days) ∧
    (∀ halt, Narrow.daysIn .all rule year month = .error halt ↔
      ∃ fault, halt = .fault fault ∧ rule.Refuses year month fault) ∧
    ∀ day, rule = .weekdayNear day → 1 ≤ month → month ≤ 12 → monthLength year month < day →
      rule.daysIn year month = .ok [] := by
  have allowed := DayRule.parse_allowed parsed
  have refused (fault : CalendarFault) :
      rule.daysIn year month = .error fault ↔ rule.Refuses year month fault :=
    daysIn_eq_error_iff allowed
  have narrow : Fits (Narrow.daysIn .all rule year month) (rule.daysIn year month) :=
    Narrow.daysIn_fits rfl allowed fun _ _ _ => rfl
  unfold Fits at narrow
  refine ⟨refused, fun _ _ _ => CalendarFault.announces_iff, ?_, ?_, ?_, ?_⟩
  · rw [← exists_congr refused]
    cases rule.daysIn year month <;> simp
  · intro days
    rw [narrow]
    cases rule.daysIn year month <;> simp [Except.mapError]
  · intro halt
    rw [narrow, exists_congr fun fault => and_congr_right fun _ => (refused fault).symm]
    cases rule.daysIn year month <;> simp [Except.mapError, eq_comm]
  · rintro day rfl first last unlisted
    exact daysIn_weekdayNear_unlisted ⟨first, last⟩ unlisted

/-- Year 0 has a leap day, but no weekdays; the second Monday of a thirteenth month is looked for from
the first of that month on. -/
theorem refuses_exactly_leap_day :
    (DayRule.parse "29W" "?" = .ok (.weekdayNear 29) ∧
      Narrow.daysIn .all (.weekdayNear 29) 0 2 = .error (.fault (.date 0 2 29)) ∧
      (CalendarFault.date 0 2 29).Announces "Invalid date: 0000-02-29") ∧
    (DayRule.parse "?" "mon#2" = .ok (.nthOfWeek 2 2) ∧
      DayRule.daysIn (.nthOfWeek 2 2) 65535 13 = .error (.date 65535 13 1) ∧
      (CalendarFault.date 65535 13 1).Announces "Invalid date: 65535-13-01") := by
  have near : DayRule.parse "29W" "?" = .ok (.weekdayNear 29) := by decide +kernel
  have nth : DayRule.parse "?" "mon#2" = .ok (.nthOfWeek 2 2) := by decide +kernel
  have zero : Refuses 0 2 (.weekdayNear 29) (.date 0 2 29) :=
    .day (by decide) rfl (by decide)
  have outside : Refuses 65535 13 (.nthOfWeek 2 2) (.date 65535 13 1) :=
    .firstOfNoMonth (by decide)
  obtain ⟨-, announces, -, -, halts, -⟩ := refuses_exactly near 0 2
  obtain ⟨faults, announces', -⟩ := refuses_exactly nth 65535 13
  exact ⟨⟨near, (halts _).mpr ⟨_, rfl, zero⟩, (announces _ zero _).mpr (by decide +kernel)⟩,
    nth, (faults _).mpr outside, (announces' _ outside _).mpr (by decide +kernel)⟩

end DayRule

end CronTimes
