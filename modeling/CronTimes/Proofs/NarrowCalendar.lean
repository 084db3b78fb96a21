import CronTimes.Minute
import CronTimes.Proofs.MonthDayLists

namespace CronTimes

/-- The largest 16 bit number. -/
def wordCeiling : Nat := 65535

/-- What stops a computation with numbers of a fixed width: a result that does not fit, a question to
the calendar that has no answer, a question that is not to be asked, or a minute that does not
exist. -/
inductive Halt
  | overflow
  | fault (fault : CalendarFault)
  | month (year month : Nat)
  | weekday (weekday nth : Nat)
  | minute (year month day hour minute : Nat)
  | calendarEnd (minute : Minute)
deriving DecidableEq

/-- A computation with numbers of a fixed width comes to what the one with natural numbers comes to,
be it a result or a fault. Nothing overflows on the way, and nothing is asked that is not to be
asked. -/
def Fits {α : Type} (narrow : Except Halt α) (plain : Except CalendarFault α) : Prop :=
  narrow = plain.mapError .fault

namespace Fits

variable {α β : Type} {narrow : Except Halt α} {plain : Except CalendarFault α}

theorem ok (result : α) : Fits (.ok result) (.ok result) := rfl

theorem fault (cause : CalendarFault) : @Fits α (.error (.fault cause)) (.error cause) := rfl

theorem bind {next : α → Except Halt β} {next' : α → Except CalendarFault β}
    (h : Fits narrow plain)
    (rest : ∀ result, plain = .ok result → Fits (next result) (next' result)) :
    Fits (narrow >>= next) (plain >>= next') := by
  unfold Fits at h
  subst h
  cases plain with
  | error cause => exact fault cause
  | ok result => exact rest result rfl

theorem map (f : α → β) (h : Fits narrow plain) : Fits (narrow.map f) (plain.map f) := by
  unfold Fits at h
  subst h
  cases plain with
  | error cause => exact fault cause
  | ok result => exact ok (f result)

theorem filterM {keep : α → Except Halt Bool} {keep' : α → Except CalendarFault Bool} {xs : List α}
    (h : ∀ x ∈ xs, Fits (keep x) (keep' x)) : Fits (xs.filterM keep) (xs.filterM keep') := by
  have aux : ∀ acc, Fits (xs.filterAuxM keep acc) (xs.filterAuxM keep' acc) := by
    induction xs with
    | nil => exact fun acc => ok acc
    | cons x xs ih =>
      intro acc
      obtain ⟨first, others⟩ := List.forall_mem_cons.mp h
      exact first.bind fun kept _ => ih others _
  exact (aux []).bind fun kept _ => ok kept.reverse

end Fits

/-- What a computation may ask the calendar about: months, and the nth day on a weekday. -/
structure Scope where
  month : Nat → Nat → Bool
  weekday : Nat → Nat → Bool

namespace Scope

/-- Everything may be asked about. -/
def all : Scope := ⟨fun _ _ => true, fun _ _ => true⟩

/-- The months of the years that a schedule can have, and the days of the week. -/
def ofSchedules : Scope where
  month year month := (firstYear ≤ year && year ≤ lastYear) && (1 ≤ month && month ≤ 12)
  weekday weekday nth := 1 ≤ nth && (1 ≤ weekday && weekday ≤ 7)

def ensureMonth (scope : Scope) (year month : Nat) : Except Halt Unit :=
  if scope.month year month then .ok () else .error (.month year month)

def ensureWeekday (scope : Scope) (weekday nth : Nat) : Except Halt Unit :=
  if scope.weekday weekday nth then .ok () else .error (.weekday weekday nth)

variable {scope : Scope} {year month weekday nth : Nat}

theorem ensureMonth_eq (asked : scope.month year month) : scope.ensureMonth year month = .ok () :=
  if_pos asked

theorem ensureWeekday_eq (named : scope.weekday weekday nth) :
    scope.ensureWeekday weekday nth = .ok () :=
  if_pos named

theorem ofSchedules_month_iff :
    ofSchedules.month year month ↔
      (firstYear ≤ year ∧ year ≤ lastYear) ∧ 1 ≤ month ∧ month ≤ 12 := by
  simp [ofSchedules]

theorem ofSchedules_weekday_iff :
    ofSchedules.weekday weekday nth ↔ 1 ≤ nth ∧ 1 ≤ weekday ∧ weekday ≤ 7 := by
  simp [ofSchedules]

end Scope

namespace Narrow

def plus (first second : Nat) : Except Halt Nat :=
  if first + second ≤ wordCeiling then .ok (first + second) else .error .overflow

def minus (first second : Nat) : Except Halt Nat :=
  if second ≤ first then .ok (first - second) else .error .overflow

def times (first second : Nat) : Except Halt Nat :=
  if first * second ≤ wordCeiling then .ok (first * second) else .error .overflow

/-- A day moved by an offset, as a number of 32 bits with a sign. -/
def shift (day offset : Int) : Except Halt Int :=
  if -2147483648 ≤ day + offset ∧ day + offset ≤ 2147483647 then .ok (day + offset)
  else .error .overflow

def daysInMonth (scope : Scope) (year month : Nat) : Except Halt Nat := do
  scope.ensureMonth year month
  (CronTimes.daysInMonth year month).mapError .fault

/-- A month that does not exist has no day, and its length is not asked for. -/
def isValidDate (scope : Scope) (year month : Nat) (day : Int) : Except Halt Bool :=
  if (1 ≤ month ∧ month ≤ 12) ∧ 1 ≤ day then do
    let length ← daysInMonth scope year month
    .ok (day ≤ length)
  else .ok false

def dayOfWeek (scope : Scope) (year month day : Nat) : Except Halt Nat := do
  scope.ensureMonth year month
  let valid ← isValidDate scope year month day
  if valid ∧ year ≠ 0 then do
    let _ ← minus month 1
    let prior ← minus year 1
    let sum ← plus day (monthOffset (isLeapYear year) month)
    let sum ← plus sum (← times 5 (prior % 4))
    let sum ← plus sum (← times 4 (prior % 100))
    let sum ← plus sum (← times 6 (prior % 400))
    plus (sum % 7) 1
  else .error (.fault (.date year month day))

def isWeekday (scope : Scope) (year month : Nat) (day : Int) : Except Halt Bool := do
  if ← isValidDate scope year month day then
    (dayOfWeek scope year month day.toNat).map fun weekday => 2 ≤ weekday && weekday ≤ 6
  else .ok false

def lastDayUpTo (scope : Scope) (year month weekday : Nat) : Nat → Except Halt Nat
  | 0 => .error (.fault (.date year month 0))
  | day + 1 => do
    let found ← dayOfWeek scope year month (day + 1)
    if found = weekday then .ok (day + 1) else lastDayUpTo scope year month weekday day

def lastDayOn (scope : Scope) (year month weekday : Nat) : Except Halt Nat := do
  scope.ensureMonth year month
  if 1 ≤ weekday ∧ weekday ≤ 7 then do
    let length ← daysInMonth scope year month
    lastDayUpTo scope year month weekday length
  else .error (.fault (.weekday weekday))

def nthDayOn (scope : Scope) (year month weekday nth : Nat) : Except Halt (Option Nat) := do
  scope.ensureMonth year month
  scope.ensureWeekday weekday nth
  if nth = 0 ∨ ¬(1 ≤ weekday ∧ weekday ≤ 7) then .ok none
  else do
    let first ← dayOfWeek scope year month 1
    let ahead ← minus (← plus weekday 7) first
    let weeks ← times (← minus nth 1) 7
    let day ← plus (← plus 1 (ahead % 7)) weeks
    let length ← daysInMonth scope year month
    .ok (if day ≤ length then some day else none)

/-- The first weekday among the days that lie at the given offsets. -/
def firstWeekday (scope : Scope) (year month : Nat) (day : Int) :
    List Int → Except Halt (Option Int)
  | [] => .ok none
  | offset :: offsets => do
    let candidate ← shift day offset
    if ← isWeekday scope year month candidate then .ok (some candidate)
    else firstWeekday scope year month day offsets

def nearestWeekday (scope : Scope) (year month : Nat) (day : Int) : Except Halt (Option Nat) := do
  if ← isValidDate scope year month day then
    (firstWeekday scope year month day [0, 1, -1, 2, -2]).map fun found => found.map Int.toNat
  else .ok none

/-- The days of a month that a rule picks, found with numbers of a fixed width and with no question
out of scope. -/
def daysIn (scope : Scope) (rule : DayRule) (year month : Nat) : Except Halt (List Nat) := do
  scope.ensureMonth year month
  match rule with
  | .daysOfMonth days => do
    let _ ← daysInMonth scope year month
    days.toList.filterM fun day => isValidDate scope year month day
  | .fromLast offset => do
    let length ← daysInMonth scope year month
    if offset < length then do
      let day ← minus length offset
      .ok [day]
    else .ok []
  | .weekdayNear day => do
    let _ ← daysInMonth scope year month
    let found ← nearestWeekday scope year month day
    .ok found.toList
  | .lastWeekday => do
    let length ← daysInMonth scope year month
    let found ← nearestWeekday scope year month length
    .ok found.toList
  | .daysOfWeek weekdays => do
    let length ← daysInMonth scope year month
    (List.range' 1 length).filterM fun day => do
      let weekday ← dayOfWeek scope year month day
      .ok (weekdays.contains weekday)
  | .lastOfWeek weekday => do
    let day ← lastDayOn scope year month weekday
    .ok [day]
  | .nthOfWeek weekday nth => do
    let found ← nthDayOn scope year month weekday nth
    .ok found.toList

theorem monthOffset_le (leap : Bool) (month : Nat) : monthOffset leap month ≤ 6 := by
  have small : ∀ offsets : List Nat, (∀ x ∈ offsets, x ≤ 6) → offsets.getD (month - 1) 0 ≤ 6 := by
    intro offsets h
    rw [List.getD_eq_getElem?_getD]
    cases hx : offsets[month - 1]? with
    | none => exact Nat.zero_le 6
    | some x => exact h x (List.mem_of_getElem? hx)
  cases leap <;> exact small _ (by decide)

section Arithmetic

variable {first second : Nat}

theorem plus_eq (h : first + second ≤ wordCeiling) : plus first second = .ok (first + second) :=
  if_pos h

theorem minus_eq (h : second ≤ first) : minus first second = .ok (first - second) :=
  if_pos h

theorem times_eq (h : first * second ≤ wordCeiling) : times first second = .ok (first * second) :=
  if_pos h

theorem shift_eq {day offset : Int} (h : -2147483648 ≤ day + offset ∧ day + offset ≤ 2147483647) :
    shift day offset = .ok (day + offset) :=
  if_pos h

end Arithmetic

section Questions

variable {scope : Scope} {year month : Nat} (asked : scope.month year month)

include asked

theorem daysInMonth_fits :
    Fits (daysInMonth scope year month) (CronTimes.daysInMonth year month) := by
  rw [daysInMonth, Scope.ensureMonth_eq asked, ok_bind]
  rfl

theorem isValidDate_eq (day : Int) :
    isValidDate scope year month day = .ok (CronTimes.isValidDate year month day) := by
  unfold isValidDate
  split
  next inside =>
    have length : daysInMonth scope year month = .ok (monthLength year month) := by
      rw [daysInMonth_fits asked, CronTimes.daysInMonth_eq inside.1]
      rfl
    rw [length, ok_bind, Except.ok.injEq, Bool.eq_iff_iff, decide_eq_true_iff, isValidDate_iff,
      and_iff_right inside.2]
  next outside =>
    have invalid : ¬ CronTimes.isValidDate year month day := by
      intro valid
      exact outside ⟨month_of_isValidDate valid, (isValidDate_iff.mp valid).1⟩
    rw [Bool.not_eq_true] at invalid
    rw [invalid]

/-- The sum that gives the weekday is at most 2842, whatever the year. -/
theorem dayOfWeek_fits (day : Nat) :
    Fits (dayOfWeek scope year month day) (CronTimes.dayOfWeek year month day) := by
  rw [dayOfWeek, Scope.ensureMonth_eq asked, ok_bind, isValidDate_eq asked, ok_bind,
    CronTimes.dayOfWeek]
  split
  next valid =>
    obtain ⟨date, hy⟩ := valid
    obtain ⟨hp, hd⟩ := isValidDate_natCast_iff.mp date
    have hlen : monthLength year month ≤ 31 := monthLength_le
    have hm := month_of_isValidDate date
    have hoffset := monthOffset_le (isLeapYear year) month
    rw [minus_eq hm.1, ok_bind, minus_eq (by omega), ok_bind]
    simp (disch := (unfold wordCeiling; omega)) only [plus_eq, times_eq, ok_bind]
    exact Fits.ok _
  next => exact Fits.fault _

theorem isWeekday_fits (day : Int) :
    Fits (isWeekday scope year month day) (CronTimes.isWeekday year month day) := by
  rw [isWeekday, isValidDate_eq asked, ok_bind, CronTimes.isWeekday]
  split
  next => exact (dayOfWeek_fits asked day.toNat).map _
  next => exact Fits.ok false

theorem lastDayUpTo_fits (weekday day : Nat) :
    Fits (lastDayUpTo scope year month weekday day)
      (CronTimes.lastDayUpTo year month weekday day) := by
  induction day with
  | zero => exact Fits.fault _
  | succ day ih =>
    refine (dayOfWeek_fits asked (day + 1)).bind ?_
    intro found _
    split
    next => exact Fits.ok _
    next => exact ih

theorem lastDayOn_fits (weekday : Nat) :
    Fits (lastDayOn scope year month weekday) (CronTimes.lastDayOn year month weekday) := by
  rw [lastDayOn, Scope.ensureMonth_eq asked, ok_bind, CronTimes.lastDayOn]
  split
  next => exact (daysInMonth_fits asked).bind fun length _ => lastDayUpTo_fits asked weekday length
  next => exact Fits.fault _

/-- The last product that fits is the one by which the day itself still fits. -/
theorem nthDayOn_fits {weekday nth : Nat} (named : scope.weekday weekday nth)
    (hn : 7 * nth ≤ wordCeiling) :
    Fits (nthDayOn scope year month weekday nth) (CronTimes.nthDayOn year month weekday nth) := by
  rw [nthDayOn, Scope.ensureMonth_eq asked, ok_bind, Scope.ensureWeekday_eq named, ok_bind,
    CronTimes.nthDayOn]
  split
  next => exact Fits.ok none
  next valid =>
    refine (dayOfWeek_fits asked 1).bind ?_
    intro first hf
    have hfirst : first ≤ 7 := by
      unfold CronTimes.dayOfWeek at hf
      split at hf
      next =>
        cases Except.ok.inj hf
        omega
      next => simp at hf
    unfold wordCeiling at hn
    rw [plus_eq (by unfold wordCeiling; omega), ok_bind, minus_eq (by omega), ok_bind,
      minus_eq (by omega), ok_bind]
    simp (disch := (unfold wordCeiling; omega)) only [plus_eq, times_eq, ok_bind]
    exact (daysInMonth_fits asked).bind fun length _ => Fits.ok _

theorem firstWeekday_fits {day : Int} {offsets : List Int}
    (near : ∀ offset ∈ offsets, -2147483648 ≤ day + offset ∧ day + offset ≤ 2147483647) :
    Fits (firstWeekday scope year month day offsets)
      ((offsets.map (day + ·)).findM? (CronTimes.isWeekday year month)) := by
  induction offsets with
  | nil => exact Fits.ok none
  | cons offset offsets ih =>
    obtain ⟨first, others⟩ := List.forall_mem_cons.mp near
    rw [firstWeekday, shift_eq first, ok_bind, List.map_cons, List.findM?]
    refine (isWeekday_fits asked (day + offset)).bind ?_
    intro found _
    cases found with
    | true => exact Fits.ok _
    | false => exact ih others

theorem nearestWeekday_fits (day : Int) :
    Fits (nearestWeekday scope year month day) (CronTimes.nearestWeekday year month day) := by
  rw [nearestWeekday, isValidDate_eq asked, ok_bind, CronTimes.nearestWeekday]
  split
  next valid =>
    have hlen : monthLength year month ≤ 31 := monthLength_le
    have hd := isValidDate_iff.mp valid
    have candidates : [day, day + 1, day - 1, day + 2, day - 2] =
        [0, 1, -1, 2, -2].map (day + ·) := by
      simp [Int.sub_eq_add_neg]
    rw [candidates]
    refine (firstWeekday_fits asked ?_).map _
    intro offset ho
    simp only [List.mem_cons, List.not_mem_nil, or_false] at ho
    omega
  next => exact Fits.ok none

/-- Nothing overflows where the days of a month are looked for, and no question is out of scope. -/
theorem daysIn_fits {rule : DayRule} (allowed : rule.Allowed)
    (named : ∀ weekday nth, rule = .nthOfWeek weekday nth → scope.weekday weekday nth) :
    Fits (daysIn scope rule year month) (rule.daysIn year month) := by
  have length := daysInMonth_fits asked
  unfold daysIn
  rw [Scope.ensureMonth_eq asked, ok_bind]
  cases rule with
  | daysOfMonth days =>
    exact length.bind fun _ _ => filterM_eq_ok fun day _ => isValidDate_eq asked day
  | fromLast offset =>
    refine length.bind fun length _ => ?_
    split
    next inside =>
      rw [minus_eq (Nat.le_of_lt inside), ok_bind]
      exact Fits.ok _
    next => exact Fits.ok []
  | weekdayNear day =>
    refine length.bind fun _ _ => ?_
    exact (nearestWeekday_fits asked day).bind fun found _ => Fits.ok found.toList
  | lastWeekday =>
    refine length.bind fun length _ => ?_
    exact (nearestWeekday_fits asked length).bind fun found _ => Fits.ok found.toList
  | daysOfWeek weekdays =>
    refine length.bind fun length _ => Fits.filterM fun day _ => ?_
    exact (dayOfWeek_fits asked day).bind fun weekday _ => Fits.ok _
  | lastOfWeek weekday =>
    exact (lastDayOn_fits asked weekday).bind fun day _ => Fits.ok [day]
  | nthOfWeek weekday nth =>
    have hn : 7 * nth ≤ wordCeiling := by
      have := allowed.2.2
      unfold wordCeiling
      omega
    exact (nthDayOn_fits asked (named weekday nth rfl) hn).bind fun found _ => Fits.ok found.toList

end Questions

end Narrow

end CronTimes
