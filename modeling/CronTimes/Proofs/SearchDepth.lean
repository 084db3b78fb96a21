import CronTimes.Proofs.GapDepth
import CronTimes.Proofs.NearestEvents
import Mathlib.Data.Finset.Prod
import Mathlib.Data.Finset.Card

namespace CronTimes

/-- Months in a row have numbers in a row. -/
def monthIndex (year : Int) (month : Nat) : Int :=
  year * 12 + month

/-- The months that a schedule selects strictly between the months of two minutes. -/
def Schedule.monthsBetween (s : Schedule) (d : Direction) (a r : Minute) : Finset (Nat × Nat) :=
  (s.year.toList.toFinset ×ˢ s.month.toList.toFinset).filter fun p =>
    d.Before (monthIndex a.date.year a.date.month) (monthIndex p.1 p.2) ∧
      d.Before (monthIndex p.1 p.2) (monthIndex r.date.year r.date.month)

/-- The years that a schedule selects from the year of a minute on, up to the year of another
minute, which does not count. -/
def Schedule.yearsFrom (s : Schedule) (d : Direction) (a r : Minute) : Finset Nat :=
  s.year.toList.toFinset.filter fun y => d.Reaches a.date.year y ∧ d.Before (y : Int) r.date.year

open Classical in
/-- The months that a schedule selects from a minute on, up to the month of another minute. Neither
that month nor one that has begun counts. -/
noncomputable def Schedule.monthsAhead (s : Schedule) (d : Direction) (x r : Minute) :
    Finset (Nat × Nat) :=
  (s.year.toList.toFinset ×ˢ s.month.toList.toFinset).filter fun p =>
    (∀ t ∈ Span.month p.1 p.2, d.Reaches x t) ∧
      d.Before (monthIndex p.1 p.2) (monthIndex r.date.year r.date.month)

section Months

variable {s : Schedule} {d : Direction} {a x r t next : Minute} {span : Span} {y m : Nat}

theorem Schedule.mem_monthsBetween : (y, m) ∈ s.monthsBetween d a r ↔
    s.Selects (.month y m) ∧ d.Before (monthIndex a.date.year a.date.month) (monthIndex y m) ∧
      d.Before (monthIndex y m) (monthIndex r.date.year r.date.month) := by
  simp [monthsBetween, Selects]

theorem Schedule.mem_monthsAhead : (y, m) ∈ s.monthsAhead d x r ↔
    s.Selects (.month y m) ∧ (∀ t ∈ Span.month y m, d.Reaches x t) ∧
      d.Before (monthIndex y m) (monthIndex r.date.year r.date.month) := by
  simp [monthsAhead, Selects]

theorem Schedule.mem_yearsFrom : y ∈ s.yearsFrom d x r ↔
    s.Selects (.year y) ∧ d.Reaches x.date.year y ∧ d.Before (y : Int) r.date.year := by
  simp [yearsFrom, Selects]

theorem monthIndex_of_mem (ht : t ∈ Span.month y m) :
    monthIndex t.date.year t.date.month = monthIndex y m := by
  rw [ht.1, ht.2]

theorem mem_month_of_monthIndex (hm : 1 ≤ m ∧ m ≤ 12)
    (h : monthIndex t.date.year t.date.month = monthIndex y m) : t ∈ Span.month y m := by
  have := t.date.month_bounds
  simp only [monthIndex] at h
  change t.date.year = y ∧ t.date.month = m
  omega

theorem Direction.Reaches.monthIndex (h : d.Reaches x t) :
    d.Reaches (monthIndex x.date.year x.date.month) (monthIndex t.date.year t.date.month) := by
  have := x.date.month_bounds
  have := t.date.month_bounds
  rw [reaches_iff_digits] at h
  cases d <;> simp only [CronTimes.monthIndex, Before, Reaches] at * <;> omega

theorem Direction.Before.of_monthIndex
    (h : d.Before (monthIndex x.date.year x.date.month) (monthIndex t.date.year t.date.month)) :
    d.Before x t :=
  of_keys (fun back => back.monthIndex) h

theorem months_card_le_one {months : Finset (Nat × Nat)}
    (around : ∀ p ∈ months, t ∈ Span.month p.1 p.2) : months.card ≤ 1 := by
  apply Finset.card_le_one.mpr
  intro p hp q hq
  obtain ⟨hpy, hpm⟩ := around p hp
  obtain ⟨hqy, hqm⟩ := around q hq
  exact Prod.ext (by omega) (by omega)

end Months

section Skips

variable {s : Schedule} {d : Direction} {x r next : Minute} {span : Span} {y m depth n : Nat}

theorem Schedule.monthsAhead_subset (h : d.Reaches x next) :
    s.monthsAhead d next r ⊆ s.monthsAhead d x r := by
  rintro ⟨y, m⟩ hp
  obtain ⟨selected, ahead, before⟩ := mem_monthsAhead.mp hp
  exact mem_monthsAhead.mpr ⟨selected, fun t ht => h.trans (ahead t ht), before⟩

theorem Schedule.yearsFrom_subset (h : d.Reaches x next) :
    s.yearsFrom d next r ⊆ s.yearsFrom d x r := by
  intro y hy
  obtain ⟨selected, reached, before⟩ := mem_yearsFrom.mp hy
  exact mem_yearsFrom.mpr ⟨selected, h.year.trans reached, before⟩

/-- A skipped month that the search meets from its front is one of those ahead, and then no more. -/
theorem Schedule.Skips.month_ahead (skips : s.Skips d x (.month y m) next) (allowed : s.Allowed)
    (hr : s.NearestEvent d x r) (opens : d.Opens 2 x) :
    s.monthsAhead d next r ⊂ s.monthsAhead d x r := by
  have selected := allowed.selects_of_gap skips.1
  have beyond := allowed.fires_beyond_gap skips.1 hr.fires hr.reached
  obtain ⟨u, hu, hxu⟩ := allowed.gap_reached skips.1
  rw [Finset.ssubset_iff_of_subset (monthsAhead_subset (skips.before allowed).reaches)]
  refine ⟨(y, m), mem_monthsAhead.mpr ⟨selected, ?_, ?_⟩, ?_⟩
  · intro t ht
    by_cases hx : x ∈ Span.month y m
    · exact opens _ hx (Nat.le_refl 2) t ht
    · exact Span.reaches_of_not_mem hx hu hxu ht
  · have hidx := (beyond u hu).reaches.monthIndex
    rw [monthIndex_of_mem hu] at hidx
    apply hidx.eq_or_before.resolve_left
    intro same
    have hmem := mem_month_of_monthIndex (allowed.month_bounds selected.2) same.symm
    exact d.before_irrefl r (beyond r hmem)
  · intro hn
    have hnext := (mem_monthsAhead.mp hn).2.1 u hu
    exact (Direction.before_beyond? skips.2 hu).not_reaches hnext

theorem Schedule.Skips.year_passed (skips : s.Skips d x (.year y) next) (allowed : s.Allowed)
    (hr : s.NearestEvent d x r) : s.yearsFrom d next r ⊂ s.yearsFrom d x r := by
  have beyond := allowed.fires_beyond_gap skips.1 hr.fires hr.reached
  obtain ⟨u, hu, hxu⟩ := allowed.gap_reached skips.1
  have huy : u.date.year = y := hu
  have passed : ∀ t, (∀ v ∈ Span.year y, d.Before v t) → d.Before (y : Int) t.date.year := by
    intro t ht
    have hy := (ht u hu).reaches.year
    rw [huy] at hy
    apply hy.eq_or_before.resolve_left
    intro same
    exact d.before_irrefl t (ht t same.symm)
  rw [Finset.ssubset_iff_of_subset (yearsFrom_subset (skips.before allowed).reaches)]
  have counted : y ∈ s.yearsFrom d x r :=
    mem_yearsFrom.mpr ⟨allowed.selects_of_gap skips.1, huy ▸ hxu.year, passed r beyond⟩
  refine ⟨y, counted, ?_⟩
  intro hn
  have hnext := (mem_yearsFrom.mp hn).2.1
  have hpast := passed next fun v hv => Direction.before_beyond? skips.2 hv
  exact hpast.not_reaches hnext

/-- What a retry uses up: an open unit of time around the start, a month ahead, or a year. -/
theorem Schedule.Skips.budget (skips : s.Skips d x span next) (allowed : s.Allowed)
    (hr : s.NearestEvent d x r) (opens : d.Opens depth x) :
    (span.depth - 2) + (s.monthsAhead d next r).card + (s.yearsFrom d next r).card + 1 ≤
      (depth - 2) + (s.monthsAhead d x r).card + (s.yearsFrom d x r).card := by
  have hnext := (skips.before allowed).reaches
  have months := Finset.card_le_card (s.monthsAhead_subset (r := r) hnext)
  have years := Finset.card_le_card (s.yearsFrom_subset (r := r) hnext)
  have selected := allowed.selects_of_gap skips.1
  cases span with
  | year y =>
    have := Finset.card_lt_card (skips.year_passed allowed hr)
    simp only [Span.depth]
    omega
  | month y m =>
    simp only [Span.depth]
    by_cases shallow : depth ≤ 2
    · have opens' : d.Opens 2 x := fun unit hx hd => opens unit hx (Nat.le_trans shallow hd)
      have := Finset.card_lt_card (skips.month_ahead allowed hr opens')
      omega
    · omega
  | day y m v =>
    obtain ⟨t, ht, fires⟩ := allowed.fires_in_day selected
    have hdepth := allowed.gap_depth_lt skips.1 opens ht fires
    simp only [Span.depth] at *
    omega
  | hour y m v h =>
    obtain ⟨t, ht, fires⟩ := allowed.fires_in_hour selected
    have hdepth := allowed.gap_depth_lt skips.1 opens ht fires
    simp only [Span.depth] at *
    omega

theorem Schedule.Allowed.month_entry (allowed : s.Allowed) (selected : s.Selects (.month y m)) :
    ∃ entry ∈ Span.month y m, (∀ t ∈ Span.month y m, d.Reaches entry t) ∧
      s.Lands (.month y m) (s.passAt d entry) := by
  obtain ⟨t, ht, _⟩ := allowed.exists_mem selected
  obtain ⟨entry, he⟩ := Direction.entry?_exists (d := d) ht
  obtain ⟨hmem, first⟩ := Direction.entry?_reaches he
  exact ⟨entry, hmem, first, allowed.passAt_lands_in selected hmem⟩

/-- A retry passes the front of one selected month at most. -/
theorem Schedule.Skips.months_left (skips : s.Skips d x span next) (allowed : s.Allowed) :
    (s.monthsAhead d x r).card ≤ (s.monthsAhead d next r).card + 1 := by
  obtain ⟨u, hu, _⟩ := allowed.exists_mem (allowed.selects_of_gap skips.1)
  have around : ∀ p ∈ s.monthsAhead d x r \ s.monthsAhead d next r, u ∈ Span.month p.1 p.2 := by
    rintro ⟨y, m⟩ hp
    obtain ⟨hx, hn⟩ := Finset.mem_sdiff.mp hp
    obtain ⟨selected, ahead, before⟩ := mem_monthsAhead.mp hx
    obtain ⟨entry, hmem, first, lands⟩ := allowed.month_entry (d := d) selected
    have hentry : d.Before entry next := by
      by_contra back
      have hback := Direction.not_before.mp back
      exact hn (mem_monthsAhead.mpr ⟨selected, fun t ht => hback.trans (first t ht), before⟩)
    rw [(skips.stable allowed (ahead entry hmem) hentry).1] at lands
    exact lands.2 u hu
  have one := months_card_le_one around
  have split := Finset.card_le_card_sdiff_add_card (s := s.monthsAhead d x r)
    (t := s.monthsAhead d next r)
  omega

theorem Schedule.Allowed.no_month_ahead (allowed : s.Allowed) (h : s.passAt d x = .event r) :
    s.monthsAhead d x r = ∅ := by
  apply Finset.eq_empty_of_forall_notMem
  rintro ⟨y, m⟩ hp
  obtain ⟨selected, ahead, before⟩ := mem_monthsAhead.mp hp
  obtain ⟨entry, hmem, first, lands⟩ := allowed.month_entry (d := d) selected
  rw [← monthIndex_of_mem hmem] at before
  have hentry := Direction.Before.of_monthIndex before
  have same := allowed.passAt_stable (ahead entry hmem) (by
    rw [h]
    exact Direction.not_before.mpr hentry.reaches)
  rw [same, h] at lands
  rw [monthIndex_of_mem hmem, monthIndex_of_mem lands.1] at before
  exact d.before_irrefl _ before

/-- Every selected month ahead costs one retry. Beyond them, years cost one each, and so do the
month, the day and the hour that a search starts in. -/
theorem Schedule.Finds.retries (h : s.Finds d n x r) (allowed : s.Allowed)
    (opens : d.Opens depth x) :
    (s.monthsAhead d x r).card ≤ n ∧
      n ≤ (depth - 2) + (s.monthsAhead d x r).card + (s.yearsFrom d x r).card := by
  induction h generalizing depth with
  | event here => simp [allowed.no_month_ahead here]
  | @retry n x next r span skips rest ih =>
    have hr := (Schedule.Finds.retry skips rest).nearest allowed
    have spent := skips.budget allowed hr opens
    have left := skips.months_left (r := r) allowed
    obtain ⟨lower, upper⟩ := ih (Direction.opens_beyond skips.2)
    omega

end Skips

section Months

variable {s : Schedule} {d : Direction} {a r : Minute}

theorem Schedule.monthsBetween_subset : s.monthsBetween d a r ⊆ s.monthsAhead d a r := by
  rintro ⟨y, m⟩ hp
  obtain ⟨selected, after, before⟩ := mem_monthsBetween.mp hp
  refine mem_monthsAhead.mpr ⟨selected, ?_, before⟩
  intro t ht
  rw [← monthIndex_of_mem ht] at after
  exact (Direction.Before.of_monthIndex after).reaches

theorem Schedule.Allowed.mem_month_of_ahead (allowed : s.Allowed) {y m : Nat}
    (h : (y, m) ∈ s.monthsAhead d a r \ s.monthsBetween d a r) :
    a ∈ Span.month y m ∧ d.Opens 2 a := by
  obtain ⟨ha, hb⟩ := Finset.mem_sdiff.mp h
  obtain ⟨selected, ahead, before⟩ := mem_monthsAhead.mp ha
  obtain ⟨t, ht, _⟩ := allowed.exists_mem selected
  have hidx := (ahead t ht).monthIndex
  rw [monthIndex_of_mem ht] at hidx
  have hmem : a ∈ Span.month y m := by
    rcases hidx.eq_or_before with same | after
    · exact mem_month_of_monthIndex (allowed.month_bounds selected.2) same
    · exact absurd (mem_monthsBetween.mpr ⟨selected, after, before⟩) hb
  exact ⟨hmem, Direction.opens_of_unit hmem ahead⟩

theorem Schedule.Finds.depth_budget {n : Nat} (h : s.Finds d n a r) (allowed : s.Allowed) :
    (s.monthsBetween d a r).card ≤ n ∧
      n ≤ 3 + (s.monthsBetween d a r).card + (s.yearsFrom d a r).card := by
  have between := Finset.card_le_card (s.monthsBetween_subset (d := d) (a := a) (r := r))
  have split := Finset.card_le_card_sdiff_add_card (s := s.monthsAhead d a r)
    (t := s.monthsBetween d a r)
  by_cases own : s.monthsAhead d a r \ s.monthsBetween d a r = ∅
  · obtain ⟨lower, upper⟩ := h.retries allowed (d.opens_five a)
    rw [own, Finset.card_empty] at split
    omega
  · obtain ⟨p, hp⟩ := Finset.nonempty_iff_ne_empty.mpr own
    obtain ⟨lower, upper⟩ := h.retries allowed (allowed.mem_month_of_ahead hp).2
    have around : ∀ p ∈ s.monthsAhead d a r \ s.monthsBetween d a r, a ∈ Span.month p.1 p.2 :=
      fun p hp => (allowed.mem_month_of_ahead hp).1
    have one := months_card_le_one around
    omega

theorem Schedule.Allowed.nearest_of_budget (allowed : s.Allowed) {m : Minute} {inclusive : Bool}
    (ha : d.start? m inclusive = some a) (hr : s.NearestEvent d a r) :
    ((s.monthsBetween d a r).card + (s.yearsFrom d a r).card ≤ 7 →
      s.nearest d m inclusive = .ok (some r)) ∧
    (11 ≤ (s.monthsBetween d a r).card → s.nearest d m inclusive = .ok none) := by
  obtain ⟨n, finds⟩ := hr.finds allowed
  obtain ⟨lower, upper⟩ := finds.depth_budget allowed
  constructor
  · intro few
    exact allowed.nearest_eq_some_iff.mpr ⟨a, ha, n, by unfold maxRetries; omega, finds⟩
  · intro many
    obtain ⟨found, hn, hf⟩ := allowed.nearest_found d m inclusive
    cases found with
    | none => exact hn
    | some r' =>
      obtain ⟨a', ha', k, hk, finds'⟩ := (hf r').mp rfl
      cases Option.some.inj (ha.symm.trans ha')
      obtain ⟨rfl, -⟩ := finds.unique finds'
      unfold maxRetries at hk
      omega

end Months

/-- The bound on retries as a bound on what lies between a start and the event: how many selected
months without an event, and how many selected years, a lookup gets over for certain, and how many
months make it give up. -/
theorem Schedule.lookup_depth_budget {text : String} {s : Schedule}
    (parsed : Schedule.parse text = .ok s) (i : Instant) (inclusive : Bool) (a r : Minute) :
    ((if inclusive then some i.minute else i.minute.next?) = some a →
      s.NearestEvent .forward a r →
      ((s.monthsBetween .forward a r).card + (s.yearsFrom .forward a r).card ≤ 7 →
        s.next i inclusive = .ok (some r)) ∧
      (11 ≤ (s.monthsBetween .forward a r).card → s.next i inclusive = .ok none)) ∧
    ((if inclusive then some i.minute else i.minute.prev?) = some a →
      s.NearestEvent .backward a r →
      ((s.monthsBetween .backward a r).card + (s.yearsFrom .backward a r).card ≤ 7 →
        s.prev i inclusive = .ok (some r)) ∧
      (11 ≤ (s.monthsBetween .backward a r).card → s.prev i inclusive = .ok none)) := by
  have allowed := Schedule.parse_allowed parsed
  constructor
  · intro ha hr
    exact allowed.nearest_of_budget (d := .forward) ha hr
  · intro ha hr
    exact allowed.nearest_of_budget (d := .backward) ha hr

def march2016 : Minute := .midnight 2016 3 1 (by decide)

def newYear2001 : Minute := .midnight 2001 1 1 (by decide)

/-- After a leap day three months without an event and four years lie ahead, which is just within
the budget; before the first leap day there are too many empty months. -/
theorem Schedule.lookup_depth_budget_leap_days :
    ((leapDays.monthsBetween .forward march2016 leapDay2020).card = 3 ∧
      (leapDays.yearsFrom .forward march2016 leapDay2020).card = 4 ∧
      leapDays.next march2016.start true = .ok (some leapDay2020)) ∧
    ((leapDays.monthsBetween .forward newYear2001 leapDay2016).card = 12 ∧
      leapDays.next newYear2001.start true = .ok none) := by
  have allowed := Schedule.parse_allowed parse_leapDays
  have found : ∀ a r : Minute,
      (leapDays.searchFrom .forward 40 1 a).map SearchResult.found = .ok (some r) →
      leapDays.NearestEvent .forward a r := by
    intro a r h
    obtain ⟨result, hs, hf⟩ := allowed.searchFrom_found .forward 40 1 a
    rw [hs] at h
    obtain ⟨n, -, finds⟩ := (hf r).mp (Except.ok.inj h)
    exact finds.nearest allowed
  have few : (leapDays.monthsBetween .forward march2016 leapDay2020).card = 3 := by decide +kernel
  have years : (leapDays.yearsFrom .forward march2016 leapDay2020).card = 4 := by decide +kernel
  have many : (leapDays.monthsBetween .forward newYear2001 leapDay2016).card = 12 := by
    decide +kernel
  refine ⟨⟨few, years, ?_⟩, many, ?_⟩
  · exact ((Schedule.lookup_depth_budget parse_leapDays march2016.start true march2016
      leapDay2020).1 rfl (found _ _ (by decide +kernel))).1 (by omega)
  · exact ((Schedule.lookup_depth_budget parse_leapDays newYear2001.start true newYear2001
      leapDay2016).1 rfl (found _ _ (by decide +kernel))).2 (by omega)

end CronTimes
