import CronTimes.Proofs.MinuteOrder

namespace CronTimes

theorem Minute.le_iff_digits {x t : Minute} :
    x ≤ t ↔ x.date.year < t.date.year ∨ x.date.year = t.date.year ∧
      (x.date.month < t.date.month ∨ x.date.month = t.date.month ∧
        (x.date.day < t.date.day ∨ x.date.day = t.date.day ∧
          (x.hour < t.hour ∨ x.hour = t.hour ∧ x.minute ≤ t.minute))) := by
  have hxh := x.hour_lt
  have hth := t.hour_lt
  have hxm := x.minute_lt
  have htm := t.minute_lt
  have later := @Date.rank_lt_iff x.date t.date
  have earlier := @Date.rank_lt_iff t.date x.date
  rw [le_iff_rank, rank, rank]
  omega

theorem Direction.reaches_iff_digits {d : Direction} {x t : Minute} :
    d.Reaches x t ↔ d.Before x.date.year t.date.year ∨ x.date.year = t.date.year ∧
      (d.Before x.date.month t.date.month ∨ x.date.month = t.date.month ∧
        (d.Before x.date.day t.date.day ∨ x.date.day = t.date.day ∧
          (d.Before x.hour t.hour ∨ x.hour = t.hour ∧ d.Reaches x.minute t.minute))) := by
  cases d with
  | forward => exact Minute.le_iff_digits
  | backward =>
    simp only [Reaches, Before, Minute.le_iff_digits]
    omega

def Span.Holds : Span → Minute → Prop
  | .year y, t => t.date.year = y
  | .month y m, t => t.date.year = y ∧ t.date.month = m
  | .day y m d, t => t.date.year = y ∧ t.date.month = m ∧ t.date.day = d
  | .hour y m d h, t => t.date.year = y ∧ t.date.month = m ∧ t.date.day = d ∧ t.hour = h

instance : Membership Minute Span := ⟨Span.Holds⟩

/-- How many units of time, from the year down, a span fixes. -/
def Span.depth : Span → Nat
  | .year _ => 1
  | .month .. => 2
  | .day .. => 3
  | .hour .. => 4

/-- The number of a minute in the largest unit of time that a span leaves open. -/
def Span.digit : Span → Minute → Nat
  | .year _, t => t.date.month
  | .month .., t => t.date.day
  | .day .., t => t.hour
  | .hour .., t => t.minute

/-- The part of a span in which the largest open unit has a given number. An hour has no parts. -/
def Span.part : Span → Nat → Span
  | .year y, m => .month y m
  | .month y m, d => .day y m d
  | .day y m d, h => .hour y m d h
  | .hour y m d h, _ => .hour y m d h

theorem Span.mem_part_iff {span : Span} {t : Minute} {v : Nat} (open_ : span.depth < 4) :
    t ∈ span.part v ↔ t ∈ span ∧ span.digit t = v := by
  cases span <;> simp only [Membership.mem, Holds, depth, part, digit] at * <;> omega

section Members

variable {d : Direction} {span outer inner : Span} {x t u next : Minute}

theorem Span.mem_of_between (hx : x ∈ span) (hu : u ∈ span) (hxt : d.Reaches x t)
    (htu : d.Reaches t u) : t ∈ span := by
  rw [Direction.reaches_iff_digits] at hxt htu
  cases span <;> cases d <;>
    simp only [Membership.mem, Holds, Direction.Before, Direction.Reaches] at * <;> omega

/-- Two spans that share a minute are nested. -/
theorem Span.mem_of_mem_inner (ho : t ∈ outer) (hi : t ∈ inner) (hd : outer.depth ≤ inner.depth)
    (hu : u ∈ inner) : u ∈ outer := by
  cases outer <;> cases inner <;> simp only [Membership.mem, Holds, depth] at * <;> omega

theorem Span.reaches_of_not_mem (hx : x ∉ span) (hu : u ∈ span) (hxu : d.Reaches x u)
    (ht : t ∈ span) : d.Reaches x t := by
  by_contra back
  have htx := (Direction.not_reaches.mp back).reaches
  exact hx (mem_of_between ht hu htx hxu)

end Members

section Digits

variable {d : Direction} {x t : Minute}

theorem Direction.Reaches.year (h : d.Reaches x t) : d.Reaches x.date.year t.date.year := by
  rw [reaches_iff_digits] at h
  cases d <;> simp only [Before, Reaches] at * <;> omega

theorem Direction.Reaches.digit {unit : Span} (h : d.Reaches x t) (hx : x ∈ unit) (ht : t ∈ unit) :
    d.Reaches (unit.digit x) (unit.digit t) := by
  rw [reaches_iff_digits] at h
  cases unit <;> cases d <;>
    simp only [Membership.mem, Span.Holds, Span.digit, Before, Reaches] at * <;> omega

theorem Direction.Before.of_digit {unit : Span} (h : d.Before (unit.digit x) (unit.digit t))
    (hx : x ∈ unit) (ht : t ∈ unit) : d.Before x t :=
  of_keys (fun back => back.digit ht hx) h

end Digits

theorem Direction.Before.of_year {d : Direction} {x t : Minute}
    (h : d.Before x.date.year t.date.year) : d.Before x t :=
  of_keys (fun back => back.year) h

theorem Span.year_eq {span : Span} {x t : Minute} (hx : x ∈ span) (ht : t ∈ span) :
    x.date.year = t.date.year := by
  cases span <;> simp only [Membership.mem, Holds] at * <;> omega

theorem Minute.ofCivil?_exists {year : Int} {month day hour minute : Nat}
    (start : calendarStart ≤ year) (finish : year ≤ calendarEnd) (hp : 1 ≤ day)
    (hd : day ≤ monthLength year month) (hh : hour < 24) (hm : minute < 60) :
    ∃ m, ofCivil? year month day hour minute = some m :=
  ⟨⟨⟨year, month, day, start, finish, hp, hd⟩, hour, minute, hh, hm⟩,
    ofCivil?_eq_some_iff.mpr ⟨rfl, rfl, rfl, rfl, rfl⟩⟩

theorem Minute.same_date {y : Int} {m v h h' mi mi' : Nat} {first last : Minute}
    (hf : ofCivil? y m v h mi = some first) (hl : ofCivil? y m v h' mi' = some last) :
    first.date = last.date := by
  obtain ⟨hfy, hfm, hfd, -⟩ := ofCivil?_eq_some_iff.mp hf
  obtain ⟨hly, hlm, hld, -⟩ := ofCivil?_eq_some_iff.mp hl
  exact Date.ext (hfy.trans hly.symm) (hfm.trans hlm.symm) (hfd.trans hld.symm)

theorem Span.first?_exists {span : Span} {t : Minute} (ht : t ∈ span) :
    ∃ first, span.first? = some first := by
  have start := t.date.year_ge
  have finish := t.date.year_le
  have hp := t.date.day_pos
  have hd := t.date.day_le
  cases span with
  | year y =>
    have hy : t.date.year = y := ht
    rw [hy] at start finish
    exact Minute.ofCivil?_exists start finish (by decide) (show 1 ≤ 31 by decide) (by decide)
      (by decide)
  | month y m =>
    obtain ⟨hy, rfl⟩ := ht
    rw [hy] at start finish hd
    exact Minute.ofCivil?_exists start finish (by decide) (by omega) (by decide) (by decide)
  | day y m day =>
    obtain ⟨hy, rfl, rfl⟩ := ht
    rw [hy] at start finish hd
    exact Minute.ofCivil?_exists start finish hp hd (by decide) (by decide)
  | hour y m day h =>
    obtain ⟨hy, rfl, rfl, rfl⟩ := ht
    rw [hy] at start finish hd
    exact Minute.ofCivil?_exists start finish hp hd t.hour_lt (by decide)

theorem Span.last?_exists {span : Span} {t : Minute} (ht : t ∈ span) :
    ∃ last, span.last? = some last := by
  have start := t.date.year_ge
  have finish := t.date.year_le
  have hp := t.date.day_pos
  have hd := t.date.day_le
  cases span with
  | year y =>
    have hy : t.date.year = y := ht
    rw [hy] at start finish
    exact Minute.ofCivil?_exists start finish (by decide) (show 31 ≤ 31 by decide) (by decide)
      (by decide)
  | month y m =>
    obtain ⟨hy, rfl⟩ := ht
    rw [hy] at start finish hd
    exact Minute.ofCivil?_exists start finish (by omega) (Nat.le_refl _) (by decide) (by decide)
  | day y m day =>
    obtain ⟨hy, rfl, rfl⟩ := ht
    rw [hy] at start finish hd
    exact Minute.ofCivil?_exists start finish hp hd (by decide) (by decide)
  | hour y m day h =>
    obtain ⟨hy, rfl, rfl, rfl⟩ := ht
    rw [hy] at start finish hd
    exact Minute.ofCivil?_exists start finish hp hd t.hour_lt (by decide)

theorem Span.first?_least {span : Span} {first : Minute} (h : span.first? = some first) :
    first ∈ span ∧ ∀ t ∈ span, first ≤ t := by
  cases span with
  | year y =>
    obtain ⟨hy, hm, hd, hh, hmi⟩ := Minute.ofCivil?_eq_some_iff.mp h
    refine ⟨hy, ?_⟩
    intro t ht
    have hty : t.date.year = y := ht
    have := t.date.month_bounds
    have := t.date.day_pos
    rw [Minute.le_iff_digits]
    omega
  | month y m =>
    obtain ⟨hy, hm, hd, hh, hmi⟩ := Minute.ofCivil?_eq_some_iff.mp h
    refine ⟨⟨hy, hm⟩, ?_⟩
    intro t ht
    obtain ⟨hty, htm⟩ := ht
    have := t.date.day_pos
    rw [Minute.le_iff_digits]
    omega
  | day y m day =>
    obtain ⟨hy, hm, hd, hh, hmi⟩ := Minute.ofCivil?_eq_some_iff.mp h
    refine ⟨⟨hy, hm, hd⟩, ?_⟩
    intro t ht
    obtain ⟨hty, htm, htd⟩ := ht
    rw [Minute.le_iff_digits]
    omega
  | hour y m day hr =>
    obtain ⟨hy, hm, hd, hh, hmi⟩ := Minute.ofCivil?_eq_some_iff.mp h
    refine ⟨⟨hy, hm, hd, hh⟩, ?_⟩
    intro t ht
    obtain ⟨hty, htm, htd, hth⟩ := ht
    rw [Minute.le_iff_digits]
    omega

theorem Span.last?_greatest {span : Span} {last : Minute} (h : span.last? = some last) :
    last ∈ span ∧ ∀ t ∈ span, t ≤ last := by
  cases span with
  | year y =>
    obtain ⟨hy, hm, hd, hh, hmi⟩ := Minute.ofCivil?_eq_some_iff.mp h
    refine ⟨hy, ?_⟩
    intro t ht
    have hty : t.date.year = y := ht
    have := t.date.month_bounds
    have := t.date.day_le_31
    have := t.hour_lt
    have := t.minute_lt
    rw [Minute.le_iff_digits]
    omega
  | month y m =>
    obtain ⟨hy, hm, hd, hh, hmi⟩ := Minute.ofCivil?_eq_some_iff.mp h
    refine ⟨⟨hy, hm⟩, ?_⟩
    intro t ht
    obtain ⟨hty, htm⟩ := ht
    have := Date.day_le_monthLength hty.symm htm.symm
    have := t.hour_lt
    have := t.minute_lt
    rw [Minute.le_iff_digits]
    omega
  | day y m day =>
    obtain ⟨hy, hm, hd, hh, hmi⟩ := Minute.ofCivil?_eq_some_iff.mp h
    refine ⟨⟨hy, hm, hd⟩, ?_⟩
    intro t ht
    obtain ⟨hty, htm, htd⟩ := ht
    have := t.hour_lt
    have := t.minute_lt
    rw [Minute.le_iff_digits]
    omega
  | hour y m day hr =>
    obtain ⟨hy, hm, hd, hh, hmi⟩ := Minute.ofCivil?_eq_some_iff.mp h
    refine ⟨⟨hy, hm, hd, hh⟩, ?_⟩
    intro t ht
    obtain ⟨hty, htm, htd, hth⟩ := ht
    have := t.minute_lt
    rw [Minute.le_iff_digits]
    omega

/-- The minute of a span that a search meets first. -/
def Direction.entry? : Direction → Span → Option Minute
  | .forward => Span.first?
  | .backward => Span.last?

/-- The minute of a span that a search meets last. -/
def Direction.exit? : Direction → Span → Option Minute
  | .forward => Span.last?
  | .backward => Span.first?

section Edges

variable {d : Direction} {span : Span} {t u entry exit next : Minute}

theorem Direction.beyond?_eq (d : Direction) (span : Span) :
    d.beyond? span = (d.exit? span).bind d.step? := by
  cases d <;> rfl

theorem Direction.entry?_exists (ht : t ∈ span) : ∃ entry, d.entry? span = some entry := by
  cases d with
  | forward => exact Span.first?_exists ht
  | backward => exact Span.last?_exists ht

theorem Direction.exit?_exists (ht : t ∈ span) : ∃ exit, d.exit? span = some exit := by
  cases d with
  | forward => exact Span.last?_exists ht
  | backward => exact Span.first?_exists ht

theorem Direction.entry?_reaches (h : d.entry? span = some entry) :
    entry ∈ span ∧ ∀ t ∈ span, d.Reaches entry t := by
  cases d with
  | forward => exact Span.first?_least h
  | backward => exact Span.last?_greatest h

theorem Direction.reaches_exit? (h : d.exit? span = some exit) :
    exit ∈ span ∧ ∀ t ∈ span, d.Reaches t exit := by
  cases d with
  | forward => exact Span.last?_greatest h
  | backward => exact Span.first?_least h

theorem Direction.before_beyond? (h : d.beyond? span = some next) (ht : t ∈ span) :
    d.Before t next := by
  rw [beyond?_eq] at h
  obtain ⟨exit, hexit, hstep⟩ := Option.bind_eq_some_iff.mp h
  exact ((reaches_exit? hexit).2 t ht).trans_before (step?_before hstep)

theorem Direction.beyond?_reaches (h : d.beyond? span = some next)
    (ht : ∀ u ∈ span, d.Before u t) : d.Reaches next t := by
  rw [beyond?_eq] at h
  obtain ⟨exit, hexit, hstep⟩ := Option.bind_eq_some_iff.mp h
  exact step?_reaches hstep (ht exit (reaches_exit? hexit).1)

theorem Direction.beyond?_exists (hu : u ∈ span) (ht : ∀ u ∈ span, d.Before u t) :
    ∃ next, d.beyond? span = some next := by
  obtain ⟨exit, hexit⟩ := exit?_exists (d := d) hu
  obtain ⟨next, hnext⟩ := step?_exists (ht exit (reaches_exit? hexit).1)
  exact ⟨next, by simp [beyond?_eq, hexit, hnext]⟩

theorem Direction.beyond?_exists_of_year (hu : u ∈ span) (start : calendarStart < u.date.year)
    (finish : u.date.year < calendarEnd) : ∃ next, d.beyond? span = some next := by
  have hfar : ∃ far : Minute, d.Before u.date.year far.date.year := by
    cases d with
    | forward =>
      obtain ⟨far, hf⟩ : ∃ far, Minute.ofCivil? calendarEnd 12 31 23 59 = some far :=
        Minute.ofCivil?_exists (by decide) (by decide) (by decide) (by decide) (by decide)
          (by decide)
      exact ⟨far, finish.trans_eq (Minute.ofCivil?_eq_some_iff.mp hf).1.symm⟩
    | backward =>
      obtain ⟨far, hf⟩ : ∃ far, Minute.ofCivil? calendarStart 1 1 0 0 = some far :=
        Minute.ofCivil?_exists (by decide) (by decide) (by decide) (by decide) (by decide)
          (by decide)
      exact ⟨far, (Minute.ofCivil?_eq_some_iff.mp hf).1.trans_lt start⟩
  obtain ⟨far, hfar⟩ := hfar
  exact beyond?_exists hu fun v hv => Before.of_year (Span.year_eq hu hv ▸ hfar)

/-- A unit of time that holds the first minute beyond a span, and is no wider than the span, begins
with that minute. -/
theorem Direction.beyond?_opens {unit : Span} (h : d.beyond? span = some next)
    (hn : next ∈ unit) (hd : span.depth ≤ unit.depth) (ht : t ∈ unit) : d.Reaches next t := by
  apply beyond?_reaches h
  intro u hu
  by_contra back
  have htu := not_before.mp back
  have hmem := Span.mem_of_between ht hn htu (before_beyond? h hu).reaches
  exact d.before_irrefl next (before_beyond? h (Span.mem_of_mem_inner hu hmem hd hn))

end Edges

end CronTimes
