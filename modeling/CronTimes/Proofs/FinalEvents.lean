import CronTimes.Proofs.EventsBetween
import Mathlib.Order.Bounds.Basic

namespace CronTimes

/-- Leaves out events in the last minute of an interval, and events before its beginning, which
counts to the nanosecond. -/
def trimTo (first last : Instant) (events : List Minute) : List Minute :=
  events.filter fun event => event ≠ last.minute ∧ first ≤ event.start

section Instants

variable {i j : Instant} {e f : Minute}

theorem Instant.minute_le_of_lt (h : i < j) : i.minute ≤ j.minute := by
  have second := i.second_le
  have nano := i.nanosecond_lt
  have second' := j.second_le
  have nano' := j.nanosecond_lt
  change i.rank < j.rank at h
  rw [Minute.le_iff_rank]
  unfold rank at h
  omega

theorem Instant.minute_le_of_le_start (h : i ≤ e.start) : i.minute ≤ e := by
  rcases le_start_iff.mp h with lt | ⟨-, same⟩
  · exact lt.le
  · exact same.le

theorem Instant.le_start_trans (h : i ≤ e.start) (hef : e ≤ f) : i ≤ f.start := by
  have starts : e.start ≤ f.start := by
    rcases hef.lt_or_eq with lt | same
    · exact le_start_iff.mpr (Or.inl lt)
    · exact same ▸ le_start_iff.mpr (Or.inr ⟨rfl, rfl⟩)
  exact Int.le_trans (show i.rank ≤ e.start.rank from h) starts

end Instants

theorem getLast?_of_greatest {events : List Minute} {e : Minute}
    (ascending : events.Pairwise (· < ·)) (greatest : IsGreatest {t | t ∈ events} e) :
    events.getLast? = some e := by
  obtain ⟨member, above⟩ := greatest
  obtain ⟨front, last, rfl⟩ :=
    (List.eq_nil_or_concat' events).resolve_left (List.ne_nil_of_mem member)
  rw [List.getLast?_concat]
  have hle : last ≤ e := above (by simp)
  rcases List.mem_append.mp member with early | same
  · have hlt := (List.pairwise_append.mp ascending).2.2 e early last (by simp)
    exact absurd hle (not_le.mpr hlt)
  · rw [List.mem_singleton.mp same]

section Before

variable {s : Schedule} {m t : Minute}

/-- An exclusive lookup backward finds the last event before a minute, if it finds one. -/
theorem Schedule.Allowed.greatest_before (allowed : s.Allowed) {e : Minute}
    (found : s.nearest .backward m false = .ok (some e)) :
    IsGreatest {t | s.firesAt t = .ok true ∧ t < m} e := by
  obtain ⟨a, ha, n, -, finds⟩ := allowed.nearest_eq_some_iff.mp found
  have he := finds.nearest allowed
  have ham : a < m := (Minute.prev?_nearest ha).1
  have hea : e ≤ a := he.reached
  refine ⟨⟨he.fires, hea.trans_lt ham⟩, ?_⟩
  intro t ht
  exact he.nearest t ht.1 ((Minute.prev?_nearest ha).2 t ht.2)

theorem Schedule.Dense.none_before (dense : s.Dense) (allowed : s.Allowed)
    (found : s.nearest .backward m false = .ok none) (ht : t < m) : s.firesAt t ≠ .ok true := by
  obtain ⟨found', hn, silent⟩ := dense.nearest_none_iff allowed .backward m false
  cases Except.ok.inj (found.symm.trans hn)
  obtain ⟨a, ha⟩ := Minute.prev?_exists ht
  rw [silent.mp rfl a ha t ((Minute.prev?_nearest ha).2 t ht)]
  simp

/-- The events listed from one instant to another, both ends included, are all there are if the
schedule is dense. -/
theorem Schedule.Allowed.between_total (allowed : s.Allowed) (first last : Instant) :
    ∃ events, s.between first last false = .ok events ∧
      (s.Dense → events = s.eventsUpTo last.minute (some first.minute)) := by
  unfold Schedule.between
  split
  next late => exact ⟨[], rfl, fun _ => (Schedule.eventsUpTo_of_late late).symm⟩
  next =>
    obtain ⟨upcoming, found, -⟩ := allowed.nearest_found .forward first.minute true
    obtain ⟨events, hup, -, -, all⟩ := allowed.run_lists last.minute
      ((last.minute.rank - first.minute.rank).toNat + 1) found (by
        intro x started
        cases started
        omega)
    refine ⟨events, ?_, all⟩
    simp only [Schedule.run, found, Except.map, ok_bind, hup]
    rfl

theorem Schedule.mem_trimTo {first last : Instant} :
    t ∈ trimTo first last (s.eventsUpTo last.minute (some first.minute)) ↔
      (s.firesAt t = .ok true ∧ t < last.minute) ∧ first ≤ t.start := by
  rw [trimTo, List.mem_filter, Schedule.mem_eventsUpTo_some, decide_eq_true_iff]
  constructor
  · intro kept
    obtain ⟨⟨⟨-, hle⟩, fires⟩, hne, inTime⟩ := kept
    exact ⟨⟨fires, hle.lt_of_ne hne⟩, inTime⟩
  · intro early
    obtain ⟨⟨fires, hlt⟩, inTime⟩ := early
    exact ⟨⟨⟨Instant.minute_le_of_le_start inTime, hlt.le⟩, fires⟩, hlt.ne, inTime⟩

theorem Schedule.Dense.final_eq_last (dense : s.Dense) (allowed : s.Allowed) {first last : Instant}
    {found : Option Minute} (hf : s.nearest .backward last.minute false = .ok found) :
    found.filter (fun event => first ≤ event.start) =
      (trimTo first last (s.eventsUpTo last.minute (some first.minute))).getLast? := by
  have empty (none_kept : ∀ t, s.firesAt t = .ok true → t < last.minute → ¬ first ≤ t.start) :
      trimTo first last (s.eventsUpTo last.minute (some first.minute)) = [] := by
    apply List.eq_nil_iff_forall_not_mem.mpr
    intro t kept
    obtain ⟨⟨fires, hlt⟩, inTime⟩ := mem_trimTo.mp kept
    exact none_kept t fires hlt inTime
  cases found with
  | none =>
    rw [empty fun t fires hlt => absurd fires (dense.none_before allowed hf hlt)]
    rfl
  | some e =>
    have greatest := allowed.greatest_before hf
    by_cases inTime : first ≤ e.start
    · have ascending : (trimTo first last (s.eventsUpTo last.minute (some first.minute))).Pairwise
          (· < ·) := (s.pairwise_eventsUpTo _ _).sublist List.filter_sublist
      rw [getLast?_of_greatest ascending
        ⟨mem_trimTo.mpr ⟨greatest.1, inTime⟩, fun t kept => greatest.2 (mem_trimTo.mp kept).1⟩]
      exact Option.filter_some_pos (by simpa using inTime)
    · have late : ∀ t, s.firesAt t = .ok true → t < last.minute → ¬ first ≤ t.start :=
        fun t fires hlt ht => inTime (Instant.le_start_trans ht (greatest.2 ⟨fires, hlt⟩))
      rw [empty late]
      exact Option.filter_some_neg (by simpa using inTime)

end Before

/-- The final event before an instant is the last event before its minute, and it is not too early,
to the nanosecond. In a dense schedule it is the last one of the listed events that are left when
those of the last minute and the early ones are taken away. -/
theorem Schedule.final_event_is_last_listed {text : String} {s : Schedule}
    (parsed : Schedule.parse text = .ok s) (first last : Instant) :
    ∃ event events, s.finalBefore first last = .ok event ∧
      s.between first last false = .ok events ∧
      (∀ e, event = some e →
        IsGreatest {t | s.firesAt t = .ok true ∧ t < last.minute} e ∧ first ≤ e.start) ∧
      (s.Dense → event = (trimTo first last events).getLast?) ∧
      (last < first ∨ last.minute = first.minute → event = none) := by
  have allowed := Schedule.parse_allowed parsed
  obtain ⟨found, hf, -⟩ := allowed.nearest_found .backward last.minute false
  obtain ⟨events, listed, all⟩ := allowed.between_total first last
  have final : ∀ e, found.filter (fun event => first ≤ event.start) = some e →
      IsGreatest {t | s.firesAt t = .ok true ∧ t < last.minute} e ∧ first ≤ e.start := by
    intro e he
    obtain ⟨rfl, inTime⟩ := Option.filter_eq_some_iff.mp he
    exact ⟨allowed.greatest_before hf, by simpa using inTime⟩
  refine ⟨_, events, ?_, listed, final, ?_, ?_⟩
  · rw [Schedule.finalBefore, Schedule.prev, hf, ok_bind]
  · intro dense
    rw [all dense]
    exact dense.final_eq_last allowed hf
  · intro reversed
    have hle : last.minute ≤ first.minute :=
      reversed.elim Instant.minute_le_of_lt fun same => same.le
    by_contra some_event
    obtain ⟨e, he⟩ := Option.ne_none_iff_exists'.mp some_event
    obtain ⟨⟨⟨-, before⟩, -⟩, inTime⟩ := final e he
    exact absurd (Instant.minute_le_of_le_start inTime) (not_le.mpr (before.trans_le hle))

/-- An event in the first minute is too early by seconds, and one in the last minute is left out.
With the ends exchanged nothing is left. -/
theorem Schedule.final_event_over_new_year :
    (thriceHourly.between newYearsEve2021 newYearsDay2022 false =
        .ok [newYearsEve2021.minute, lateEvent2021, newYear2022, newYearsDay2022.minute] ∧
      trimTo newYearsEve2021 newYearsDay2022
          [newYearsEve2021.minute, lateEvent2021, newYear2022, newYearsDay2022.minute] =
        [lateEvent2021, newYear2022] ∧
      thriceHourly.finalBefore newYearsEve2021 newYearsDay2022 = .ok (some newYear2022)) ∧
    thriceHourly.finalBefore newYearsDay2022 newYearsEve2021 = .ok none := by
  have listed : thriceHourly.between newYearsEve2021 newYearsDay2022 false =
      .ok [newYearsEve2021.minute, lateEvent2021, newYear2022, newYearsDay2022.minute] := by
    decide +kernel
  have trimmed : trimTo newYearsEve2021 newYearsDay2022
      [newYearsEve2021.minute, lateEvent2021, newYear2022, newYearsDay2022.minute] =
        [lateEvent2021, newYear2022] := by
    decide +kernel
  obtain ⟨event, events, final, between, -, last, -⟩ :=
    Schedule.final_event_is_last_listed parse_thriceHourly newYearsEve2021 newYearsDay2022
  cases Except.ok.inj (listed.symm.trans between)
  rw [last dense_thriceHourly, trimmed] at final
  obtain ⟨event', -, reversed, -, -, -, none⟩ :=
    Schedule.final_event_is_last_listed parse_thriceHourly newYearsDay2022 newYearsEve2021
  rw [none (Or.inl (by decide))] at reversed
  exact ⟨⟨listed, trimmed, final⟩, reversed⟩

end CronTimes
