import CronTimes.Proofs.DirectedOrder

namespace CronTimes

theorem Date.ofCivil?_eq_none_iff {year : Int} {month day : Nat} :
    ofCivil? year month day = none ↔
      ¬ (calendarStart ≤ year ∧ year ≤ calendarEnd ∧ 1 ≤ day ∧ day ≤ monthLength year month) := by
  simp only [ofCivil?, dite_eq_right_iff, reduceCtorEq, imp_false]

theorem Date.day_le_monthLength {date : Date} {year : Int} {month : Nat} (hy : year = date.year)
    (hm : month = date.month) : date.day ≤ monthLength year month :=
  hy ▸ hm ▸ date.day_le

theorem Date.next?_nearest {date next : Date} (h : date.next? = some next) :
    date.rank < next.rank ∧ ∀ other : Date, date.rank < other.rank → next.rank ≤ other.rank := by
  have start := date.year_ge
  have finish := date.year_le
  have hm := date.month_bounds
  have hd := date.day_le_31
  have hnext := next.day_pos
  simp only [next?, Option.orElse_eq_orElse, Option.orElse_eq_or, Option.or_eq_some_iff,
    ofCivil?_eq_some_iff, ofCivil?_eq_none_iff] at h
  rcases h with ⟨hy, hmo, hda⟩ | ⟨hlast, ⟨hy, hmo, hda⟩ | ⟨hdec, hy, hmo, hda⟩⟩
  · unfold rank
    constructor <;> intros <;> omega
  · have hlen : monthLength date.year date.month ≤ date.day := by omega
    refine ⟨by unfold rank; omega, ?_⟩
    intro other hlt
    have ho := other.day_pos
    have hob := other.month_bounds
    rcases rank_lt_iff.mp hlt with year | ⟨year, month | ⟨month, day⟩⟩
    · unfold rank
      omega
    · unfold rank
      omega
    · have := Date.day_le_monthLength year month
      omega
  · have hlen : monthLength date.year date.month ≤ date.day := by omega
    have hmonth : ¬ 0 < monthLength date.year (date.month + 1) := by omega
    rw [monthLength_pos_iff] at hmonth
    refine ⟨by unfold rank; omega, ?_⟩
    intro other hlt
    have ho := other.day_pos
    have hob := other.month_bounds
    rcases rank_lt_iff.mp hlt with year | ⟨year, month | ⟨month, day⟩⟩
    · unfold rank
      omega
    · omega
    · have := Date.day_le_monthLength year month
      omega

theorem Date.next?_exists {date other : Date} (h : date.rank < other.rank) :
    ∃ next, date.next? = some next := by
  by_contra none
  simp only [not_exists, ← Option.eq_none_iff_forall_ne_some] at none
  simp only [next?, Option.orElse_eq_orElse, Option.orElse_eq_or, Option.or_eq_none_iff,
    ofCivil?_eq_none_iff] at none
  obtain ⟨hday, hmonth, hyear⟩ := none
  have start := date.year_ge
  have finish := date.year_le
  have hob := other.month_bounds
  have hend := other.year_le
  have january : 28 ≤ monthLength (date.year + 1) 1 := le_monthLength (by decide) (by decide)
  have hlen : monthLength date.year date.month ≤ date.day := by omega
  have hlast : ¬ 0 < monthLength date.year (date.month + 1) := by omega
  rw [monthLength_pos_iff] at hlast
  rcases rank_lt_iff.mp h with year | ⟨year, month | ⟨month, day⟩⟩
  · omega
  · omega
  · have := Date.day_le_monthLength year month
    omega

theorem Date.prev?_nearest {date prev : Date} (h : date.prev? = some prev) :
    prev.rank < date.rank ∧ ∀ other : Date, other.rank < date.rank → other.rank ≤ prev.rank := by
  have start := date.year_ge
  have finish := date.year_le
  have hm := date.month_bounds
  have hd := date.day_pos
  have hfirst := prev.day_pos
  have hlast := prev.day_le_31
  have hpm := prev.month_bounds
  simp only [prev?, Option.orElse_eq_orElse, Option.orElse_eq_or, Option.or_eq_some_iff,
    ofCivil?_eq_some_iff, ofCivil?_eq_none_iff] at h
  have hle := date.day_le
  rcases h with ⟨hy, hmo, hda⟩ | ⟨hfirst, ⟨hy, hmo, hda⟩ | ⟨hjan, hy, hmo, hda⟩⟩
  · unfold rank
    constructor <;> intros <;> omega
  · have hone : date.day = 1 := by omega
    refine ⟨by unfold rank; omega, ?_⟩
    intro other hlt
    have ho := other.day_le_31
    have hob := other.month_bounds
    rcases rank_lt_iff.mp hlt with year | ⟨year, month | ⟨month, day⟩⟩
    · unfold rank
      omega
    · by_cases same : other.month = date.month - 1
      · have hlen := Date.day_le_monthLength year.symm same.symm
        unfold rank
        omega
      · unfold rank
        omega
    · have := other.day_pos
      omega
  · have hone : date.day = 1 := by omega
    have hnone : ¬ 0 < monthLength date.year (date.month - 1) := by omega
    rw [monthLength_pos_iff] at hnone
    refine ⟨by unfold rank; omega, ?_⟩
    intro other hlt
    have ho := other.day_le_31
    have hob := other.month_bounds
    rcases rank_lt_iff.mp hlt with year | ⟨year, month | ⟨month, day⟩⟩
    · unfold rank
      omega
    · omega
    · have := other.day_pos
      omega

theorem Date.prev?_exists {date other : Date} (h : other.rank < date.rank) :
    ∃ prev, date.prev? = some prev := by
  by_contra none
  simp only [not_exists, ← Option.eq_none_iff_forall_ne_some] at none
  simp only [prev?, Option.orElse_eq_orElse, Option.orElse_eq_or, Option.or_eq_none_iff,
    ofCivil?_eq_none_iff] at none
  obtain ⟨hday, hmonth, hyear⟩ := none
  have start := date.year_ge
  have finish := date.year_le
  have hle := date.day_le
  have hob := other.month_bounds
  have hbegin := other.year_ge
  have december : monthLength (date.year - 1) 12 = 31 := rfl
  have hone : date.day = 1 := by have := date.day_pos; omega
  have hfirst : ¬ 0 < monthLength date.year (date.month - 1) := by omega
  rw [monthLength_pos_iff] at hfirst
  have hm := date.month_bounds
  rcases rank_lt_iff.mp h with year | ⟨year, month | ⟨month, day⟩⟩
  · omega
  · omega
  · have := other.day_pos
    omega

instance : LinearOrder Minute where
  le_refl m := Int.le_refl m.rank
  le_trans _ _ _ h h' := Int.le_trans h h'
  lt_iff_le_not_ge m n := by
    rw [Minute.lt_iff_rank, Minute.le_iff_rank, Minute.le_iff_rank]
    omega
  le_antisymm _ _ := Minute.le_antisymm
  le_total m n := Int.le_total m.rank n.rank
  toDecidableLE := inferInstance
  toDecidableEq := inferInstance
  toDecidableLT := inferInstance

theorem Minute.ofClock?_eq_some_iff {date : Date} {hour minute : Nat} {m : Minute} :
    ofClock? date hour minute = some m ↔ m.date = date ∧ m.hour = hour ∧ m.minute = minute := by
  unfold ofClock?
  split
  · constructor
    · intro h
      cases Option.some.inj h
      exact ⟨rfl, rfl, rfl⟩
    · rintro ⟨rfl, rfl, rfl⟩
      rfl
  next outside =>
    constructor
    · intro h
      simp at h
    · rintro ⟨rfl, rfl, rfl⟩
      exact absurd ⟨m.hour_lt, m.minute_lt⟩ outside

theorem Minute.next?_nearest {m next : Minute} (h : m.next? = some next) :
    m < next ∧ ∀ t : Minute, m < t → next ≤ t := by
  simp only [lt_iff_rank, le_iff_rank]
  have hh := m.hour_lt
  have hm := m.minute_lt
  unfold next? at h
  split at h
  · obtain ⟨hd, hho, hmi⟩ := ofClock?_eq_some_iff.mp h
    unfold rank
    rw [hd]
    constructor <;> intros <;> omega
  · split at h
    · obtain ⟨hd, hho, hmi⟩ := ofClock?_eq_some_iff.mp h
      unfold rank
      rw [hd]
      constructor <;> intros <;> omega
    · obtain ⟨date, hnext, h⟩ := Option.bind_eq_some_iff.mp h
      obtain ⟨rfl, hho, hmi⟩ := ofClock?_eq_some_iff.mp h
      obtain ⟨hlt, nearest⟩ := Date.next?_nearest hnext
      refine ⟨by unfold rank; omega, ?_⟩
      intro t ht
      have hth := t.hour_lt
      have htm := t.minute_lt
      unfold rank at ht ⊢
      have := nearest t.date (by omega)
      omega

theorem Minute.next?_exists {m t : Minute} (h : m < t) : ∃ next, m.next? = some next := by
  unfold next?
  split
  next hlt => exact ⟨⟨m.date, m.hour, m.minute + 1, m.hour_lt, by omega⟩, by
    simp [ofClock?_eq_some_iff]⟩
  · split
    next hlt => exact ⟨⟨m.date, m.hour + 1, 0, by omega, by decide⟩, by
      simp [ofClock?_eq_some_iff]⟩
    · have hth := t.hour_lt
      have htm := t.minute_lt
      rw [lt_iff_rank] at h
      unfold rank at h
      obtain ⟨date, hd⟩ := Date.next?_exists (show m.date.rank < t.date.rank by omega)
      exact ⟨⟨date, 0, 0, by decide, by decide⟩, by simp [hd, ofClock?_eq_some_iff]⟩

theorem Minute.prev?_nearest {m prev : Minute} (h : m.prev? = some prev) :
    prev < m ∧ ∀ t : Minute, t < m → t ≤ prev := by
  simp only [lt_iff_rank, le_iff_rank]
  unfold prev? at h
  split at h
  · obtain ⟨hd, hho, hmi⟩ := ofClock?_eq_some_iff.mp h
    unfold rank
    rw [hd]
    constructor <;> intros <;> omega
  · split at h
    · obtain ⟨hd, hho, hmi⟩ := ofClock?_eq_some_iff.mp h
      unfold rank
      rw [hd]
      constructor <;> intros <;> omega
    · obtain ⟨date, hprev, h⟩ := Option.bind_eq_some_iff.mp h
      obtain ⟨rfl, hho, hmi⟩ := ofClock?_eq_some_iff.mp h
      obtain ⟨hlt, nearest⟩ := Date.prev?_nearest hprev
      refine ⟨by unfold rank; omega, ?_⟩
      intro t ht
      have hth := t.hour_lt
      have htm := t.minute_lt
      unfold rank at ht ⊢
      have := nearest t.date (by omega)
      omega

theorem Minute.prev?_exists {m t : Minute} (h : t < m) : ∃ prev, m.prev? = some prev := by
  have hh := m.hour_lt
  have hm := m.minute_lt
  unfold prev?
  split
  · exact ⟨⟨m.date, m.hour, m.minute - 1, hh, by omega⟩, by simp [ofClock?_eq_some_iff]⟩
  · split
    · exact ⟨⟨m.date, m.hour - 1, 59, by omega, by decide⟩, by simp [ofClock?_eq_some_iff]⟩
    · rw [lt_iff_rank] at h
      unfold rank at h
      obtain ⟨date, hd⟩ := Date.prev?_exists (show t.date.rank < m.date.rank by omega)
      exact ⟨⟨date, 23, 59, by decide, by decide⟩, by simp [hd, ofClock?_eq_some_iff]⟩

section Step

variable {d : Direction} {m next t : Minute}

theorem Direction.step?_before (h : d.step? m = some next) : d.Before m next := by
  cases d with
  | forward => exact (Minute.next?_nearest h).1
  | backward => exact (Minute.prev?_nearest h).1

theorem Direction.step?_reaches (h : d.step? m = some next) (ht : d.Before m t) :
    d.Reaches next t := by
  cases d with
  | forward => exact (Minute.next?_nearest h).2 t ht
  | backward => exact (Minute.prev?_nearest h).2 t ht

theorem Direction.step?_exists (h : d.Before m t) : ∃ next, d.step? m = some next := by
  cases d with
  | forward => exact Minute.next?_exists h
  | backward => exact Minute.prev?_exists h

end Step

end CronTimes
