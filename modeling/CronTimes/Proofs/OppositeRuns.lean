import CronTimes.Proofs.EventsBetween
import Mathlib.Data.List.Chain

namespace CronTimes

def Direction.opposite : Direction → Direction
  | .forward => .backward
  | .backward => .forward

theorem Direction.opposite_reaches {d : Direction} {x y : Minute} :
    d.opposite.Reaches x y ↔ d.Reaches y x := by
  cases d <;> exact Iff.rfl

theorem Direction.opposite_before {d : Direction} {x y : Minute} :
    d.opposite.Before x y ↔ d.Before y x := by
  cases d <;> exact Iff.rfl

/-- From one event a lookup goes on to another. -/
def Schedule.Leads (s : Schedule) (d : Direction) (e f : Minute) : Prop :=
  s.nearest d e false = .ok (some f)

section Leads

variable {s : Schedule} {d : Direction} {e f g t : Minute}

theorem Schedule.Leads.nearest_event (h : s.Leads d e f) (allowed : s.Allowed) :
    ∃ x, d.step? e = some x ∧ s.NearestEvent d x f := by
  obtain ⟨x, hx, n, -, finds⟩ := allowed.nearest_eq_some_iff.mp h
  exact ⟨x, hx, finds.nearest allowed⟩

theorem Schedule.Leads.fires (h : s.Leads d e f) (allowed : s.Allowed) :
    s.firesAt f = .ok true := by
  obtain ⟨x, -, hf⟩ := h.nearest_event allowed
  exact hf.fires

theorem Schedule.Leads.before (h : s.Leads d e f) (allowed : s.Allowed) : d.Before e f := by
  obtain ⟨x, hx, hf⟩ := h.nearest_event allowed
  exact (Direction.step?_before hx).trans_reaches hf.reached

theorem Schedule.Leads.reaches (h : s.Leads d e f) (allowed : s.Allowed)
    (fires : s.firesAt t = .ok true) (later : d.Before e t) : d.Reaches f t := by
  obtain ⟨x, hx, hf⟩ := h.nearest_event allowed
  exact hf.nearest t fires (Direction.step?_reaches hx later)

/-- Neighbouring events see each other: between them there is nothing to find on the way back. -/
theorem Schedule.Leads.back_unique (h : s.Leads d e f) (back : s.Leads d.opposite f g)
    (allowed : s.Allowed) (fires : s.firesAt e = .ok true) : g = e := by
  have hge := back.reaches allowed fires (Direction.opposite_before.mpr (h.before allowed))
  rcases (Direction.opposite_reaches.mp hge).eq_or_before with same | later
  · exact same.symm
  · have hfg := h.reaches allowed (back.fires allowed) later
    have hgf := Direction.opposite_before.mp (back.before allowed)
    exact absurd hfg hgf.not_reaches

theorem Schedule.Leads.back (h : s.Leads d e f) (dense : s.Dense) (allowed : s.Allowed)
    (fires : s.firesAt e = .ok true) : s.Leads d.opposite f e := by
  obtain ⟨found, hn, silent⟩ := dense.nearest_none_iff allowed d.opposite f false
  cases found with
  | none =>
    have behind := Direction.opposite_before.mpr (h.before allowed)
    obtain ⟨x, hx⟩ := Direction.step?_exists behind
    have := silent.mp rfl x hx e (Direction.step?_reaches hx behind)
    simp [fires] at this
  | some g =>
    obtain rfl := h.back_unique hn allowed fires
    exact hn

end Leads

section Chains

variable {s : Schedule} {d : Direction} {e : Minute} {events : List Minute} {count : Nat}

theorem Schedule.sequence_eq_follow (s : Schedule) (d : Direction) (e : Minute) (count : Nat) :
    s.sequence d e count false = s.follow d count (some e) := by
  cases count <;> rfl

/-- A run of searches that all find something is a chain of lookups from event to event. -/
theorem Schedule.follow_eq_iff_isChain :
    s.follow d count (some e) = .ok (events.map some) ↔
      events.length = count ∧ (e :: events).IsChain (s.Leads d) := by
  induction count generalizing e events with
  | zero =>
    cases events with
    | nil => simp [follow]
    | cons f events => simp [follow]
  | succ count ih =>
    rw [follow]
    cases events with
    | nil =>
      refine iff_of_false ?_ (by simp)
      intro h
      obtain ⟨following, -, h⟩ := bind_eq_ok h
      obtain ⟨rest, -, h⟩ := bind_eq_ok h
      simp at h
    | cons f events =>
      rw [List.isChain_cons_cons, List.length_cons, Nat.add_right_cancel_iff, List.map_cons]
      constructor
      · intro h
        obtain ⟨following, hn, h⟩ := bind_eq_ok h
        obtain ⟨rest, hr, h⟩ := bind_eq_ok h
        obtain ⟨rfl, rfl⟩ := List.cons.inj (Except.ok.inj h)
        obtain ⟨length, chain⟩ := ih.mp hr
        exact ⟨length, hn, chain⟩
      · rintro ⟨length, leads, chain⟩
        have hn : s.nearest d e false = .ok (some f) := leads
        rw [hn, ok_bind, ih.mpr ⟨length, chain⟩, ok_bind]

theorem Schedule.Dense.isChain_back (dense : s.Dense) (allowed : s.Allowed)
    (fires : s.firesAt e = .ok true) (chain : (e :: events).IsChain (s.Leads d)) :
    (e :: events).reverse.IsChain (s.Leads d.opposite) := by
  rw [List.isChain_reverse]
  induction events generalizing e with
  | nil => exact List.isChain_singleton e
  | cons f events ih =>
    obtain ⟨leads, rest⟩ := List.isChain_cons_cons.mp chain
    exact List.isChain_cons_cons.mpr
      ⟨leads.back dense allowed fires, ih (leads.fires allowed) rest⟩

/-- The events of a run come back in the opposite direction, the start in place of the last one. -/
theorem Schedule.Dense.sequence_back (dense : s.Dense) (allowed : s.Allowed) {last : Minute}
    (fires : s.firesAt e = .ok true)
    (run : s.sequence d e count false = .ok ((events ++ [last]).map some)) :
    s.sequence d.opposite last count false = .ok ((e :: events).reverse.map some) := by
  rw [sequence_eq_follow] at run ⊢
  obtain ⟨length, chain⟩ := follow_eq_iff_isChain.mp run
  have back := dense.isChain_back allowed fires chain
  rw [← List.cons_append, List.reverse_append] at back
  exact follow_eq_iff_isChain.mpr ⟨by simpa using length, back⟩

end Chains

/-- Forward and backward runs from event to event undo each other. A sparse schedule may fail to
find the way back, but it never finds another one; a dense schedule always finds it, from each event
and from the end of each run. -/
theorem Schedule.runs_undo_each_other {text : String} {s : Schedule}
    (parsed : Schedule.parse text = .ok s) (e : Minute) (fires : s.firesAt e = .ok true) :
    (∀ f g, s.next e.start false = .ok (some f) → s.prev f.start false = .ok (some g) → g = e) ∧
    (∀ f g, s.prev e.start false = .ok (some f) → s.next f.start false = .ok (some g) → g = e) ∧
    (s.Dense →
      (∀ f, s.next e.start false = .ok (some f) → s.prev f.start false = .ok (some e)) ∧
      (∀ f, s.prev e.start false = .ok (some f) → s.next f.start false = .ok (some e)) ∧
      ∀ (count : Nat) (events : List Minute) (last : Minute),
        (s.nextN e.start count false = .ok ((events ++ [last]).map some) →
          s.prevN last.start count false = .ok ((e :: events).reverse.map some)) ∧
        (s.prevN e.start count false = .ok ((events ++ [last]).map some) →
          s.nextN last.start count false = .ok ((e :: events).reverse.map some))) := by
  have allowed := Schedule.parse_allowed parsed
  refine ⟨?_, ?_, ?_⟩
  · intro f g there back
    exact Schedule.Leads.back_unique (d := .forward) there back allowed fires
  · intro f g there back
    exact Schedule.Leads.back_unique (d := .backward) there back allowed fires
  · intro dense
    refine ⟨?_, ?_, ?_⟩
    · intro f there
      exact Schedule.Leads.back (d := .forward) there dense allowed fires
    · intro f there
      exact Schedule.Leads.back (d := .backward) there dense allowed fires
    · intro count events last
      exact ⟨dense.sequence_back (d := .forward) allowed fires,
        dense.sequence_back (d := .backward) allowed fires⟩

/-- Over the turn of a year single lookups and runs come back in both directions. The leap day before
2020 is the only one that the sparse schedule can come back to. -/
theorem Schedule.runs_undo_each_other_over_new_year :
    (thriceHourly.next lateEvent2021.start false = .ok (some newYear2022) ∧
      thriceHourly.prev newYear2022.start false = .ok (some lateEvent2021)) ∧
    (thriceHourly.prev newYearsDay2022.minute.start false = .ok (some newYear2022) ∧
      thriceHourly.next newYear2022.start false = .ok (some newYearsDay2022.minute)) ∧
    (thriceHourly.nextN newYearsEve2021.minute.start 3 false =
        .ok [some lateEvent2021, some newYear2022, some newYearsDay2022.minute] ∧
      thriceHourly.prevN newYearsDay2022.minute.start 3 false =
        .ok [some newYear2022, some lateEvent2021, some newYearsEve2021.minute]) ∧
    (leapDays.next leapDay2016.start false = .ok (some leapDay2020) ∧
      ∀ g, leapDays.prev leapDay2020.start false = .ok (some g) → g = leapDay2016) := by
  have onward : thriceHourly.next lateEvent2021.start false = .ok (some newYear2022) := by
    decide +kernel
  have backward : thriceHourly.prev newYearsDay2022.minute.start false = .ok (some newYear2022) := by
    decide +kernel
  have there : thriceHourly.nextN newYearsEve2021.minute.start 3 false =
      .ok [some lateEvent2021, some newYear2022, some newYearsDay2022.minute] := by
    decide +kernel
  have next : leapDays.next leapDay2016.start false = .ok (some leapDay2020) := by decide +kernel
  obtain ⟨-, -, fromLast⟩ := Schedule.runs_undo_each_other parse_thriceHourly lateEvent2021
    (by decide +kernel)
  obtain ⟨-, -, fromNewYear⟩ := Schedule.runs_undo_each_other parse_thriceHourly
    newYearsDay2022.minute (by decide +kernel)
  obtain ⟨-, -, fromEve⟩ := Schedule.runs_undo_each_other parse_thriceHourly
    newYearsEve2021.minute (by decide +kernel)
  obtain ⟨sparse, -⟩ := Schedule.runs_undo_each_other parse_leapDays leapDay2016 (by decide +kernel)
  obtain ⟨forth, -⟩ := fromLast dense_thriceHourly
  obtain ⟨-, back, -⟩ := fromNewYear dense_thriceHourly
  obtain ⟨-, -, runs⟩ := fromEve dense_thriceHourly
  exact ⟨⟨onward, forth _ onward⟩, ⟨backward, back _ backward⟩,
    ⟨there, (runs 3 [lateEvent2021, newYear2022] newYearsDay2022.minute).1 there⟩,
    next, fun g found => sparse leapDay2020 g next found⟩

end CronTimes
