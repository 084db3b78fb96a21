import CronTimes.Search
import CronTimes.Proofs.Selection

namespace CronTimes

def Minute.bounds (t : Minute) : Bounds :=
  ⟨t.date.month, t.date.day, t.hour, t.minute⟩

/-- The bound on the largest unit of time that a span leaves open. -/
def Span.bound : Span → Bounds → Nat
  | .year _ => Bounds.month
  | .month .. => Bounds.day
  | .day .. => Bounds.hour
  | .hour .. => Bounds.minute

/-- The numbers that a schedule allows in the largest unit of time that a span leaves open. -/
def Schedule.choices (s : Schedule) : Span → List Nat
  | .year _ => s.month.toList
  | .month y m => s.daysOf y m
  | .day .. => s.hour.toList
  | .hour .. => s.minute.toList

/-- Takes the nearest of some numbers and goes on below it. Only at the bound itself do the bounds
on smaller units hold on. -/
def Direction.descend (d : Direction) (values : List Nat) (bound : Nat) (bounds : Bounds)
    (gap : Pass) (inside : Nat → Bounds → Pass) : Pass :=
  match d.pick values bound with
  | none => gap
  | some v => inside v (if v = bound then bounds else d.widest)

/-- What a pass finds within a span. -/
def Schedule.passIn (s : Schedule) (d : Direction) : Span → Bounds → Pass
  | .hour y m day h, bounds => s.passHour d y m day h bounds
  | .day y m day, bounds => s.passDay d y m day bounds
  | .month y m, bounds =>
    d.descend (s.daysOf y m) bounds.day bounds (.gap (.month y m)) (s.passDay d y m)
  | .year y, bounds =>
    d.descend s.month.toList bounds.month bounds (.gap (.year y)) fun m bounds =>
      d.descend (s.daysOf y m) bounds.day bounds (.gap (.month y m)) (s.passDay d y m)

/-- What a pass finds, where the calendar has an answer to all it asks. -/
def Schedule.passAt (s : Schedule) (d : Direction) (anchor : Minute) : Pass :=
  d.descend s.year.toList anchor.date.year.toNat anchor.bounds .noYear fun y =>
    s.passIn d (.year y)

/-- The event of a pass, or all of the gap, is met before a minute. -/
def Pass.EndsBefore (d : Direction) : Pass → Minute → Prop
  | .event found, t => d.Before found t
  | .gap span, t => ∀ u ∈ span, d.Before u t
  | .noYear, _ => False

/-- A pass ends at an event within a span, or in a gap within it that the schedule selects. -/
def Schedule.Lands (s : Schedule) (unit : Span) : Pass → Prop
  | .event found => found ∈ unit ∧ s.firesAt found = .ok true
  | .gap span => s.Selects span ∧ ∀ u ∈ span, u ∈ unit
  | .noYear => False

/-- Bounds under which a pass within a span does not miss a minute by starting too late. -/
def Direction.Admits (d : Direction) (bounds : Bounds) (unit : Span) (t : Minute) : Prop :=
  bounds = d.widest ∨ ∃ x ∈ unit, bounds = x.bounds ∧ d.Reaches x t

section Descend

variable {d : Direction} {values : List Nat} {bound later : Nat} {bounds bounds' : Bounds}
  {gap : Pass} {inside : Nat → Bounds → Pass}

theorem Direction.descend_cases {P : Pass → Prop} (empty : d.pick values bound = none → P gap)
    (tight : bound ∈ values → P (inside bound bounds))
    (wide : ∀ v ∈ values, d.Before bound v → P (inside v d.widest)) :
    P (d.descend values bound bounds gap inside) := by
  unfold descend
  split
  next hp => exact empty hp
  next v hp =>
    have hv := pick_mem hp
    split
    next same => exact same ▸ tight (same ▸ hv)
    next other =>
      have hb := (pick_reaches hp).eq_or_before.resolve_left (Ne.symm other)
      exact wide v hv hb

theorem Direction.descend_of_mem (ascending : values.Pairwise (· < ·)) (hb : bound ∈ values) :
    d.descend values bound bounds gap inside = inside bound bounds := by
  rw [descend, pick_of_mem ascending hb]
  simp only [↓reduceIte]

/-- A bound may move up to the number that is taken: then the bounds below it take effect. Before
that number they do not matter. -/
theorem Direction.descend_eq_of_reaches (ascending : values.Pairwise (· < ·))
    (hb : d.Reaches bound later)
    (notPast : ∀ v, d.pick values bound = some v → d.Reaches later v)
    (same : d.pick values bound = some later → inside later bounds' =
      inside later (if later = bound then bounds else d.widest)) :
    d.descend values later bounds' gap inside = d.descend values bound bounds gap inside := by
  rw [descend, descend, pick_stable ascending hb notPast]
  cases hp : d.pick values bound with
  | none => rfl
  | some v =>
    by_cases arrived : v = later
    · subst arrived
      simpa only [↓reduceIte] using same hp
    · have passed : v ≠ bound := by
        rintro rfl
        exact arrived (hb.antisymm (notPast v hp))
      simp only [arrived, passed, ↓reduceIte]

end Descend

theorem Direction.Admits.reaches {d : Direction} {bounds : Bounds} {unit : Span} {t : Minute}
    (admits : d.Admits bounds unit t) (ht : t ∈ unit) :
    d.Reaches (unit.bound bounds) (unit.digit t) := by
  rcases admits with rfl | ⟨x, hx, rfl, hxt⟩
  · have := t.date.month_bounds
    have := t.date.day_pos
    have := t.date.day_le_31
    have := t.hour_lt
    have := t.minute_lt
    cases unit <;> cases d <;>
      simp only [Span.bound, Span.digit, widest, Reaches] <;> omega
  · have h := hxt.digit hx ht
    cases unit <;> exact h

theorem Direction.Admits.part {d : Direction} {bounds : Bounds} {unit : Span} {t : Minute} {v : Nat}
    (admits : d.Admits bounds unit t) (open_ : unit.depth < 4) :
    d.Admits (if v = unit.bound bounds then bounds else d.widest) (unit.part v) t := by
  split
  next same =>
    rcases admits with rfl | ⟨x, hx, rfl, hxt⟩
    · exact Or.inl rfl
    · refine Or.inr ⟨x, (Span.mem_part_iff open_).mpr ⟨hx, ?_⟩, rfl, hxt⟩
      cases unit <;> exact same.symm
  next => exact Or.inl rfl

theorem Span.bound_bounds (unit : Span) (t : Minute) : unit.bound t.bounds = unit.digit t := by
  cases unit <;> rfl

theorem Span.induction_up {P : Span → Prop} (hour : ∀ y m day h, P (.hour y m day h))
    (wider : ∀ unit : Span, unit.depth < 4 → (∀ v, P (unit.part v)) → P unit) (unit : Span) :
    P unit := by
  have day : ∀ y m day, P (.day y m day) := fun y m day =>
    wider (.day y m day) (show 3 < 4 by decide) fun h => hour y m day h
  have month : ∀ y m, P (.month y m) := fun y m =>
    wider (.month y m) (show 2 < 4 by decide) fun v => day y m v
  cases unit with
  | year y => exact wider (.year y) (show 1 < 4 by decide) fun m => month y m
  | month y m => exact month y m
  | day y m v => exact day y m v
  | hour y m v h => exact hour y m v h

section PassIn

variable {s : Schedule} {d : Direction} {unit : Span} {bounds : Bounds} {x t : Minute}

theorem Schedule.passIn_eq (open_ : unit.depth < 4) :
    s.passIn d unit bounds = d.descend (s.choices unit) (unit.bound bounds) bounds (.gap unit)
      fun v => s.passIn d (unit.part v) := by
  cases unit with
  | hour y m day h => exact absurd open_ (by simp [Span.depth])
  | _ => rfl

theorem Schedule.selects_part_iff {v : Nat} (open_ : unit.depth < 4) :
    s.Selects (unit.part v) ↔ s.Selects unit ∧ v ∈ s.choices unit := by
  cases unit <;> simp [Selects, choices, Span.part, Span.depth, and_assoc] at *

theorem Schedule.Allowed.pairwise_choices (allowed : s.Allowed) (selected : s.Selects unit) :
    (s.choices unit).Pairwise (· < ·) := by
  cases unit with
  | year y => exact s.month.pairwise_toList
  | month y m => exact (allowed.daysIn_eq selected.1 selected.2).2.1
  | day y m day => exact s.hour.pairwise_toList
  | hour y m day h => exact s.minute.pairwise_toList

theorem Schedule.Allowed.passHour_cases (allowed : s.Allowed) (d : Direction) (bounds : Bounds)
    {y m day h : Nat} (selected : s.Selects (.hour y m day h)) :
    (d.pick s.minute.toList bounds.minute = none ∧
      s.passHour d y m day h bounds = .gap (.hour y m day h)) ∨
    ∃ found, d.pick s.minute.toList bounds.minute = some found.minute ∧
      s.passHour d y m day h bounds = .event found ∧ found ∈ Span.hour y m day h ∧
        s.firesAt found = .ok true := by
  unfold Schedule.passHour
  split
  next hp => exact Or.inl ⟨hp, rfl⟩
  next mi hp =>
    obtain ⟨found, hf, hmem, fires⟩ := allowed.fires_at_minute selected (Direction.pick_mem hp)
    obtain rfl := (Minute.ofCivil?_eq_some_iff.mp hf).2.2.2.2
    rw [hf]
    exact Or.inr ⟨found, hp, rfl, hmem, fires⟩

theorem Schedule.Allowed.passIn_lands (allowed : s.Allowed) (selected : s.Selects unit) :
    s.Lands unit (s.passIn d unit bounds) := by
  induction unit using Span.induction_up generalizing bounds with
  | hour y m day h =>
    rcases allowed.passHour_cases d bounds selected with
      ⟨-, hp⟩ | ⟨found, -, hp, hmem, fires⟩
    · rw [Schedule.passIn, hp]
      exact ⟨selected, fun _ hu => hu⟩
    · rw [Schedule.passIn, hp]
      exact ⟨hmem, fires⟩
  | wider unit open_ ih =>
    rw [Schedule.passIn_eq open_]
    have inner : ∀ v ∈ s.choices unit, ∀ bounds,
        s.Lands unit (s.passIn d (unit.part v) bounds) := by
      intro v hv bounds
      have hpart := (Schedule.selects_part_iff open_).mpr ⟨selected, hv⟩
      have lands : s.Lands (unit.part v) (s.passIn d (unit.part v) bounds) := ih v hpart
      cases hp : s.passIn d (unit.part v) bounds with
      | event found =>
        rw [hp] at lands
        exact ⟨((Span.mem_part_iff open_).mp lands.1).1, lands.2⟩
      | gap span =>
        rw [hp] at lands
        exact ⟨lands.1, fun u hu => ((Span.mem_part_iff open_).mp (lands.2 u hu)).1⟩
      | noYear =>
        rw [hp] at lands
        exact lands
    apply Direction.descend_cases
    · exact fun _ => ⟨selected, fun _ hu => hu⟩
    · exact fun hv => inner _ hv _
    · exact fun v hv _ => inner v hv _

theorem Schedule.Lands.endsBefore {p : Pass} (lands : s.Lands unit p)
    (h : ∀ u ∈ unit, d.Before u t) : p.EndsBefore d t := by
  cases p with
  | event found => exact h found lands.1
  | gap span => exact fun u hu => h u (lands.2 u hu)
  | noYear => exact lands.elim

theorem Schedule.Allowed.not_endsBefore_of_lands (allowed : s.Allowed) {p : Pass}
    (lands : s.Lands unit p) (h : ∀ u ∈ unit, d.Before x u) : ¬ p.EndsBefore d x := by
  cases p with
  | event found =>
    intro before
    exact (h found lands.1).not_reaches before.reaches
  | gap span =>
    intro before
    obtain ⟨u, hu, _⟩ := allowed.exists_mem lands.1
    exact (h u (lands.2 u hu)).not_reaches (before u hu).reaches
  | noYear => exact lands.elim

theorem Direction.eq_of_mem_hour {y m day h : Nat} (hx : x ∈ Span.hour y m day h)
    (ht : t ∈ Span.hour y m day h) (same : x.minute = t.minute) : x = t := by
  obtain ⟨hy, hm, hd, hh⟩ := hx
  obtain ⟨hty, htm, htd, hth⟩ := ht
  exact Minute.ext (Date.ext (hy.trans hty.symm) (hm.trans htm.symm) (hd.trans htd.symm))
    (hh.trans hth.symm) same

theorem Schedule.Allowed.passIn_not_endsBefore (allowed : s.Allowed) (selected : s.Selects unit)
    (hx : x ∈ unit) : ¬ (s.passIn d unit x.bounds).EndsBefore d x := by
  induction unit using Span.induction_up with
  | hour y m day h =>
    rcases allowed.passHour_cases d x.bounds selected with
      ⟨-, hp⟩ | ⟨found, hpick, hp, hmem, -⟩
    · rw [Schedule.passIn, hp]
      exact fun before => d.before_irrefl x (before x hx)
    · rw [Schedule.passIn, hp]
      intro before
      rcases (Direction.pick_reaches hpick).eq_or_before with same | later
      · rw [Direction.eq_of_mem_hour hx hmem same] at before
        exact d.before_irrefl found before
      · change d.Before ((Span.hour y m day h).digit x) ((Span.hour y m day h).digit found) at later
        have hxf := Direction.Before.of_digit later hx hmem
        exact hxf.not_reaches before.reaches
  | wider unit open_ ih =>
    rw [Schedule.passIn_eq open_, Span.bound_bounds]
    apply Direction.descend_cases (P := fun p => ¬ p.EndsBefore d x)
    · exact fun _ before => d.before_irrefl x (before x hx)
    · intro hv
      have hpart := (Schedule.selects_part_iff open_).mpr ⟨selected, hv⟩
      exact ih _ hpart ((Span.mem_part_iff open_).mpr ⟨hx, rfl⟩)
    · intro v hv hb
      have hpart := (Schedule.selects_part_iff open_).mpr ⟨selected, hv⟩
      refine allowed.not_endsBefore_of_lands (allowed.passIn_lands hpart) ?_
      intro u hu
      obtain ⟨hunit, rfl⟩ := (Span.mem_part_iff open_).mp hu
      exact Direction.Before.of_digit hb hx hunit

theorem Schedule.Allowed.passHour_stable (allowed : s.Allowed) {y m day h : Nat}
    (selected : s.Selects (.hour y m day h)) (ht : t ∈ Span.hour y m day h)
    (hb : d.Reaches bounds.minute t.minute)
    (hp : ¬ (s.passHour d y m day h bounds).EndsBefore d t) :
    s.passHour d y m day h t.bounds = s.passHour d y m day h bounds := by
  have same : d.pick s.minute.toList t.minute = d.pick s.minute.toList bounds.minute := by
    apply Direction.pick_stable s.minute.pairwise_toList hb
    intro v hv
    rcases allowed.passHour_cases d bounds selected with
      ⟨hnone, -⟩ | ⟨found, hsome, he, hmem, -⟩
    · cases hv.symm.trans hnone
    · cases Option.some.inj (hv.symm.trans hsome)
      rw [he] at hp
      exact (Direction.not_before.mp hp).digit ht hmem
  simp only [Schedule.passHour, Minute.bounds, same]

theorem Schedule.Allowed.passIn_stable (allowed : s.Allowed) (selected : s.Selects unit)
    (ht : t ∈ unit) (admits : d.Admits bounds unit t)
    (hp : ¬ (s.passIn d unit bounds).EndsBefore d t) :
    s.passIn d unit t.bounds = s.passIn d unit bounds := by
  induction unit using Span.induction_up generalizing bounds with
  | hour y m day h => exact allowed.passHour_stable selected ht (admits.reaches ht) hp
  | wider unit open_ ih =>
    rw [Schedule.passIn_eq open_] at hp ⊢
    rw [Schedule.passIn_eq open_, Span.bound_bounds]
    apply Direction.descend_eq_of_reaches (allowed.pairwise_choices selected) (admits.reaches ht)
    · intro v hv
      by_contra back
      have hpart := (Schedule.selects_part_iff open_).mpr ⟨selected, Direction.pick_mem hv⟩
      apply hp
      rw [Direction.descend, hv]
      refine (allowed.passIn_lands hpart).endsBefore ?_
      intro u hu
      obtain ⟨hunit, rfl⟩ := (Span.mem_part_iff open_).mp hu
      exact Direction.Before.of_digit (Direction.not_reaches.mp back) hunit ht
    · intro hv
      have hpart := (Schedule.selects_part_iff open_).mpr ⟨selected, Direction.pick_mem hv⟩
      apply ih _ hpart ((Span.mem_part_iff open_).mpr ⟨ht, rfl⟩) (admits.part open_)
      simpa only [Direction.descend, hv] using hp

theorem Schedule.Allowed.passIn_part (allowed : s.Allowed) {v : Nat} (open_ : unit.depth < 4)
    (selected : s.Selects (unit.part v)) (ht : t ∈ unit.part v) :
    s.passIn d unit t.bounds = s.passIn d (unit.part v) t.bounds := by
  obtain ⟨hunit, hv⟩ := (Schedule.selects_part_iff open_).mp selected
  obtain ⟨_, rfl⟩ := (Span.mem_part_iff open_).mp ht
  rw [Schedule.passIn_eq open_, Span.bound_bounds]
  exact Direction.descend_of_mem (allowed.pairwise_choices hunit) hv

end PassIn

section PassAt

variable {s : Schedule} {d : Direction} {unit span : Span} {x t found : Minute}

theorem Schedule.Allowed.passMonth_eq (allowed : s.Allowed) {y m : Nat} {bounds : Bounds}
    (selected : s.Selects (.month y m)) :
    s.passMonth d y m bounds = .ok (s.passIn d (.month y m) bounds) := by
  rw [Schedule.passMonth, (allowed.daysIn_eq selected.1 selected.2).1, ok_bind, Schedule.passIn,
    Direction.descend]
  cases d.pick (s.daysOf y m) bounds.day <;> rfl

theorem Schedule.Allowed.passYear_eq (allowed : s.Allowed) {y : Nat} {bounds : Bounds}
    (selected : s.Selects (.year y)) :
    s.passYear d y bounds = .ok (s.passIn d (.year y) bounds) := by
  rw [Schedule.passYear, Schedule.passIn, Direction.descend]
  cases hm : d.pick s.month.toList bounds.month with
  | none => rfl
  | some m => exact allowed.passMonth_eq ⟨selected, Direction.pick_mem hm⟩

/-- The calendar has an answer to all that a pass asks. -/
theorem Schedule.Allowed.pass_eq (allowed : s.Allowed) (d : Direction) (anchor : Minute) :
    s.pass d anchor = .ok (s.passAt d anchor) := by
  simp only [Schedule.pass, Schedule.passAt, Direction.descend]
  cases hy : d.pick s.year.toList anchor.date.year.toNat with
  | none => rfl
  | some y => exact allowed.passYear_eq (Direction.pick_mem hy)

theorem Schedule.Allowed.passAt_lands (allowed : s.Allowed) (d : Direction) (x : Minute) :
    s.passAt d x = .noYear ∨ ∃ y, s.Lands (.year y) (s.passAt d x) := by
  apply Direction.descend_cases (P := fun p => p = .noYear ∨ ∃ y, s.Lands (.year y) p)
  · exact fun _ => Or.inl rfl
  · exact fun hy => Or.inr ⟨_, allowed.passIn_lands hy⟩
  · exact fun y hy _ => Or.inr ⟨y, allowed.passIn_lands hy⟩

theorem Schedule.Allowed.fires_of_event (allowed : s.Allowed)
    (h : s.passAt d x = .event found) : s.firesAt found = .ok true := by
  rcases allowed.passAt_lands d x with hn | ⟨y, lands⟩
  · simp [h] at hn
  · rw [h] at lands
    exact lands.2

theorem Schedule.Allowed.selects_of_gap (allowed : s.Allowed) (h : s.passAt d x = .gap span) :
    s.Selects span := by
  rcases allowed.passAt_lands d x with hn | ⟨y, lands⟩
  · simp [h] at hn
  · rw [h] at lands
    exact lands.1

theorem Schedule.Allowed.mem_year_iff (allowed : s.Allowed) {y : Nat} (hy : y ∈ s.year.toList) :
    t ∈ Span.year y ↔ t.date.year.toNat = y := by
  have hb := allowed.year_bounds hy
  change t.date.year = y ↔ t.date.year.toNat = y
  omega

/-- A pass does not end before the minute that it starts from. -/
theorem Schedule.Allowed.passAt_not_endsBefore (allowed : s.Allowed) (d : Direction) (x : Minute) :
    ¬ (s.passAt d x).EndsBefore d x := by
  apply Direction.descend_cases (P := fun p => ¬ p.EndsBefore d x)
  · exact fun _ before => before
  · intro hy
    exact allowed.passIn_not_endsBefore hy ((allowed.mem_year_iff hy).mpr rfl)
  · intro y hy hb
    have hyear := allowed.year_bounds hy
    refine allowed.not_endsBefore_of_lands (allowed.passIn_lands hy) ?_
    intro u hu
    have huy : u.date.year = y := hu
    apply Direction.Before.of_year
    rw [huy]
    cases d <;> simp only [Direction.Before] at * <;> omega

/-- Passes from two minutes end the same way if the later start is not past the end of the pass from
the earlier one. -/
theorem Schedule.Allowed.passAt_stable (allowed : s.Allowed) (h : d.Reaches x t)
    (hp : ¬ (s.passAt d x).EndsBefore d t) : s.passAt d t = s.passAt d x := by
  have hyears := h.year
  have hb : d.Reaches x.date.year.toNat t.date.year.toNat := by
    cases d <;> simp only [Direction.Reaches] at * <;> omega
  apply Direction.descend_eq_of_reaches s.year.pairwise_toList hb
  · intro y hy
    by_contra back
    have selected : s.Selects (.year y) := Direction.pick_mem hy
    have hyear := allowed.year_bounds selected
    apply hp
    rw [Schedule.passAt, Direction.descend, hy]
    refine (allowed.passIn_lands selected).endsBefore ?_
    intro u hu
    have huy : u.date.year = y := hu
    have hlt := Direction.not_reaches.mp back
    apply Direction.Before.of_year
    rw [huy]
    cases d <;> simp only [Direction.Before] at * <;> omega
  · intro hy
    have selected : s.Selects (.year t.date.year.toNat) := Direction.pick_mem hy
    apply allowed.passIn_stable selected ((allowed.mem_year_iff selected).mpr rfl)
    · split
      next same => exact Or.inr ⟨x, (allowed.mem_year_iff selected).mpr same.symm, rfl, h⟩
      next => exact Or.inl rfl
    · simpa only [Schedule.passAt, Direction.descend, hy] using hp

theorem Schedule.Allowed.passAt_eq_passIn (allowed : s.Allowed) (selected : s.Selects unit)
    (ht : t ∈ unit) : s.passAt d t = s.passIn d unit t.bounds := by
  have year : ∀ y, s.Selects (.year y) → t ∈ Span.year y →
      s.passAt d t = s.passIn d (.year y) t.bounds := by
    intro y hy hty
    obtain rfl := (allowed.mem_year_iff hy).mp hty
    exact Direction.descend_of_mem s.year.pairwise_toList hy
  have narrow : ∀ (unit : Span) (v : Nat), unit.depth < 4 → s.Selects (unit.part v) →
      t ∈ unit.part v → (s.Selects unit → t ∈ unit → s.passAt d t = s.passIn d unit t.bounds) →
      s.passAt d t = s.passIn d (unit.part v) t.bounds := by
    intro unit v open_ hs hv wide
    rw [← allowed.passIn_part open_ hs hv]
    exact wide ((Schedule.selects_part_iff open_).mp hs).1 ((Span.mem_part_iff open_).mp hv).1
  have month : ∀ y m, s.Selects (.month y m) → t ∈ Span.month y m →
      s.passAt d t = s.passIn d (.month y m) t.bounds :=
    fun y m hs hm => narrow (.year y) m (show 1 < 4 by decide) hs hm (year y)
  have day : ∀ y m v, s.Selects (.day y m v) → t ∈ Span.day y m v →
      s.passAt d t = s.passIn d (.day y m v) t.bounds :=
    fun y m v hs hv => narrow (.month y m) v (show 2 < 4 by decide) hs hv (month y m)
  cases unit with
  | year y => exact year y selected ht
  | month y m => exact month y m selected ht
  | day y m v => exact day y m v selected ht
  | hour y m v h => exact narrow (.day y m v) h (show 3 < 4 by decide) selected ht (day y m v)

theorem Schedule.Allowed.passAt_lands_in (allowed : s.Allowed) (selected : s.Selects unit)
    (ht : t ∈ unit) : s.Lands unit (s.passAt d t) := by
  rw [allowed.passAt_eq_passIn selected ht]
  exact allowed.passIn_lands selected

theorem Schedule.Allowed.passAt_of_fires (allowed : s.Allowed) (fires : s.firesAt t = .ok true) :
    s.passAt d t = .event t := by
  obtain ⟨selected, hmi⟩ := allowed.firesAt_iff.mp fires
  have hyear := allowed.year_bounds selected.1
  have ht : t ∈ t.hourSpan := (Minute.mem_hour_iff (by omega)).mpr rfl
  rw [allowed.passAt_eq_passIn selected ht]
  have hpick : d.pick s.minute.toList t.bounds.minute = some t.minute :=
    Direction.pick_of_mem s.minute.pairwise_toList hmi
  rcases allowed.passHour_cases d t.bounds selected with
    ⟨hnone, -⟩ | ⟨found, hsome, hp, hmem, -⟩
  · simp [hpick] at hnone
  · have same := Option.some.inj (hpick.symm.trans hsome)
    rw [Direction.eq_of_mem_hour ht hmem same] at hp ⊢
    exact hp

/-- A pass never goes past an event: it ends at it or before it. -/
theorem Schedule.Allowed.passAt_meets (allowed : s.Allowed) (fires : s.firesAt t = .ok true)
    (hxt : d.Reaches x t) : s.passAt d x = .event t ∨ (s.passAt d x).EndsBefore d t := by
  by_cases ends : (s.passAt d x).EndsBefore d t
  · exact Or.inr ends
  · rw [← allowed.passAt_stable hxt ends]
    exact Or.inl (allowed.passAt_of_fires fires)

end PassAt

end CronTimes
