import CronTimes.Proofs.NearestEvents

namespace CronTimes

section Firing

variable {s : Schedule} {d : Direction} {m r : Minute}

/-- Where the schedule fires, the first pass of an inclusive search ends, and nothing is reported. -/
theorem Schedule.Allowed.search_of_fires (allowed : s.Allowed) (fires : s.firesAt m = .ok true) :
    s.pass d m = .ok (.event m) ∧ s.search d m true = .ok ⟨some m, []⟩ := by
  have first : s.pass d m = .ok (.event m) := by
    rw [allowed.pass_eq, allowed.passAt_of_fires fires]
  refine ⟨first, ?_⟩
  have started : d.start? m true = some m := rfl
  simp only [Schedule.search_eq, started, Schedule.searchFrom, first, ok_bind]

theorem Schedule.Allowed.fires_iff_nearest (allowed : s.Allowed) :
    s.firesAt m = .ok true ↔ s.nearest d m true = .ok (some m) := by
  constructor
  · intro fires
    rw [Schedule.nearest, (allowed.search_of_fires fires).2]
    rfl
  · intro found
    obtain ⟨a, -, n, -, finds⟩ := allowed.nearest_eq_some_iff.mp found
    exact (finds.nearest allowed).fires

/-- An inclusive lookup that misses its start goes on like an exclusive one, which begins one minute
further on with as many passes. -/
theorem Schedule.Allowed.nearest_of_silent (allowed : s.Allowed) (silent : s.firesAt m = .ok false)
    (found : s.nearest d m true = .ok (some r)) : s.nearest d m false = .ok (some r) := by
  obtain ⟨a, ha, n, -, finds⟩ := allowed.nearest_eq_some_iff.mp found
  cases Option.some.inj (show some m = some a from ha)
  have hr := finds.nearest allowed
  have hne : m ≠ r := by
    intro same
    have fires := hr.fires
    rw [← same, silent] at fires
    simp at fires
  have before := hr.reached.eq_or_before.resolve_left hne
  exact (allowed.nearest_closer found rfl (d.reaches_refl m) hr.reached).2 before

end Firing

/-- A schedule fires in a minute exactly if a lookup that includes the minute finds it, whichever way
the lookup goes; it then needs one pass and no retry. If the schedule does not fire there, including
the minute makes no difference to what a lookup finds. -/
theorem Schedule.fires_iff_lookup_stays {text : String} {s : Schedule}
    (parsed : Schedule.parse text = .ok s) (i : Instant) :
    (∃ fires, s.fires i = .ok fires) ∧
    (s.fires i = .ok true ↔ s.next i true = .ok (some i.minute)) ∧
    (s.fires i = .ok true ↔ s.prev i true = .ok (some i.minute)) ∧
    (s.fires i = .ok true → ∀ d, s.pass d i.minute = .ok (.event i.minute) ∧
      s.search d i.minute true = .ok ⟨some i.minute, []⟩) ∧
    (s.fires i = .ok false → ∀ r,
      (s.next i true = .ok (some r) → s.next i false = .ok (some r)) ∧
      (s.prev i true = .ok (some r) → s.prev i false = .ok (some r))) := by
  have allowed := Schedule.parse_allowed parsed
  refine ⟨⟨_, allowed.firesAt_eq i.minute⟩, allowed.fires_iff_nearest, allowed.fires_iff_nearest,
    ?_, ?_⟩
  · intro fires d
    exact allowed.search_of_fires fires
  · intro silent r
    exact ⟨allowed.nearest_of_silent silent, allowed.nearest_of_silent silent⟩

/-- A leap second in the minute of an event, and a minute years away from the events around it. -/
theorem Schedule.fires_iff_lookup_stays_leap_days :
    (leapDays.fires leapDay2016Late = .ok true ∧
      leapDays.prev leapDay2016Late true = .ok (some leapDay2016) ∧
      leapDays.search .forward leapDay2016 true = .ok ⟨some leapDay2016, []⟩) ∧
    leapDays.fires june2018 = .ok false ∧
      leapDays.next june2018 true = .ok (some leapDay2020) ∧
      leapDays.next june2018 false = .ok (some leapDay2020) := by
  have fires : leapDays.fires leapDay2016Late = .ok true := by decide +kernel
  have silent : leapDays.fires june2018 = .ok false := by decide +kernel
  have next : leapDays.next june2018 true = .ok (some leapDay2020) := by decide +kernel
  obtain ⟨-, -, stays, first, -⟩ :=
    Schedule.fires_iff_lookup_stays parse_leapDays leapDay2016Late
  obtain ⟨-, -, -, -, misses⟩ := Schedule.fires_iff_lookup_stays parse_leapDays june2018
  exact ⟨⟨fires, stays.mp fires, (first fires .forward).2⟩, silent, next,
    (misses silent leapDay2020).1 next⟩

end CronTimes
