import CronTimes.Schedule
import CronTimes.Proofs.MonthDayLists

namespace CronTimes

theorem CronField.allows_saturdays : CronField.dayOfWeek.Allows saturdays := by
  refine ⟨⟨7, FieldSet.mem_toList_ofList.mpr (by simp)⟩, ?_, ?_⟩
  · intro v hv
    obtain rfl : v = 7 := by simpa using FieldSet.mem_toList_ofList.mp hv
    decide
  · intro v hv
    obtain rfl : v = 7 := by simpa using FieldSet.mem_toList_ofList.mp hv
    decide

theorem DayRule.ofMonthText?_allowed {text : List Char} {rule : DayRule}
    (h : ofMonthText? text = some rule) : rule.Allowed := by
  unfold ofMonthText? at h
  split at h
  next =>
    cases Option.some.inj h
    exact Nat.zero_le 30
  next =>
    cases Option.some.inj h
    exact trivial
  next =>
    obtain ⟨offset, ho, rfl⟩ := Option.map_eq_some_iff.mp h
    exact (boundedNumber?_eq_some_iff.mp ho).2.2
  next =>
    split at h
    next =>
      obtain ⟨day, hd, rfl⟩ := Option.map_eq_some_iff.mp h
      exact CronField.value?_bounds hd
    next =>
      obtain ⟨days, hd, rfl⟩ := Option.map_eq_some_iff.mp h
      exact CronField.set?_bounds hd

theorem DayRule.ofCapitals?_allowed {text : List Char} {rule : DayRule}
    (h : ofCapitals? text = some rule) : rule.Allowed := by
  unfold ofCapitals? at h
  split at h
  next =>
    cases Option.some.inj h
    exact CronField.allows_saturdays
  next =>
    obtain ⟨weekday, hw, rfl⟩ := Option.map_eq_some_iff.mp h
    exact CronField.value?_bounds hw
  next =>
    split at h
    next =>
      obtain ⟨weekday, hw, rfl⟩ := Option.map_eq_some_iff.mp h
      exact CronField.value?_bounds hw
    next =>
      split at h
      next =>
        obtain ⟨weekday, hw, h⟩ := Option.bind_eq_some_iff.mp h
        obtain ⟨nth, hn, h⟩ := Option.bind_eq_some_iff.mp h
        cases Option.some.inj h
        exact ⟨CronField.value?_bounds hw, (boundedNumber?_eq_some_iff.mp hn).2⟩
      next =>
        obtain ⟨weekdays, hw, rfl⟩ := Option.map_eq_some_iff.mp h
        exact CronField.set?_bounds hw

theorem DayRule.parse_allowed {dayOfMonth dayOfWeek : String} {rule : DayRule}
    (h : DayRule.parse dayOfMonth dayOfWeek = .ok rule) : rule.Allowed := by
  unfold DayRule.parse at h
  split at h
  next =>
    unfold parseOfMonth at h
    split at h
    next read =>
      cases Except.ok.inj h
      exact ofMonthText?_allowed read
    next => simp at h
  next =>
    split at h
    next =>
      unfold parseOfWeek at h
      split at h
      next read =>
        cases Except.ok.inj h
        exact ofCapitals?_allowed read
      next => simp at h
    next => simp at h

/-- What reading an expression guarantees about the values of all fields. -/
structure Schedule.Allowed (s : Schedule) : Prop where
  minute : CronField.minute.Allows s.minute
  hour : CronField.hour.Allows s.hour
  days : s.days.Allowed
  month : CronField.month.Allows s.month
  year : CronField.year.Allows s.year

theorem bind_eq_ok {α β ε : Type} {x : Except ε α} {f : α → Except ε β} {y : β}
    (h : (x >>= f) = .ok y) : ∃ a, x = .ok a ∧ f a = .ok y := by
  cases x with
  | error e => exact absurd h (by simp [bind, Except.bind])
  | ok a => exact ⟨a, rfl, h⟩

theorem Schedule.parse_allowed {text : String} {s : Schedule} (h : Schedule.parse text = .ok s) :
    s.Allowed := by
  unfold Schedule.parse at h
  split at h
  next =>
    split at h
    next => simp at h
    next =>
      obtain ⟨minute, hmi, h⟩ := bind_eq_ok h
      obtain ⟨hour, hh, h⟩ := bind_eq_ok h
      obtain ⟨days, hd, h⟩ := bind_eq_ok h
      obtain ⟨month, hmo, h⟩ := bind_eq_ok h
      obtain ⟨year, hy, h⟩ := bind_eq_ok h
      cases Except.ok.inj h
      exact ⟨CronField.parse_bounds hmi, CronField.parse_bounds hh, DayRule.parse_allowed hd,
        CronField.parse_bounds hmo, CronField.parse_bounds hy⟩
  next => simp at h

section Allowed

variable {s : Schedule}

theorem Schedule.Allowed.year_bounds (allowed : s.Allowed) {y : Nat} (hy : y ∈ s.year.toList) :
    1970 ≤ y ∧ y ≤ 2199 :=
  ⟨allowed.year.least_le y hy, allowed.year.le_greatest y hy⟩

theorem Schedule.Allowed.month_bounds (allowed : s.Allowed) {m : Nat} (hm : m ∈ s.month.toList) :
    1 ≤ m ∧ m ≤ 12 :=
  ⟨allowed.month.least_le m hm, allowed.month.le_greatest m hm⟩

theorem Schedule.Allowed.hour_lt (allowed : s.Allowed) {h : Nat} (hh : h ∈ s.hour.toList) :
    h < 24 :=
  Nat.lt_succ_of_le (allowed.hour.le_greatest h hh)

theorem Schedule.Allowed.minute_lt (allowed : s.Allowed) {m : Nat} (hm : m ∈ s.minute.toList) :
    m < 60 :=
  Nat.lt_succ_of_le (allowed.minute.le_greatest m hm)

end Allowed

end CronTimes
