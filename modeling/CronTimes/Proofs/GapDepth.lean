import CronTimes.Proofs.Retries

namespace CronTimes

/-- A minute is the first one met of all units of time around it that are as deep as the given
depth, or deeper. -/
def Direction.Opens (d : Direction) (depth : Nat) (x : Minute) : Prop :=
  ∀ unit : Span, x ∈ unit → depth ≤ unit.depth → ∀ t ∈ unit, d.Reaches x t

section Opens

variable {s : Schedule} {d : Direction} {depth : Nat} {span : Span} {x t next : Minute}

theorem Span.depth_bounds (span : Span) : 1 ≤ span.depth ∧ span.depth ≤ 4 := by
  cases span <;> simp [depth]

theorem Direction.opens_five (d : Direction) (x : Minute) : d.Opens 5 x := by
  intro unit _ hd
  have := unit.depth_bounds
  omega

theorem Direction.opens_of_unit {unit : Span} (hx : x ∈ unit) (h : ∀ t ∈ unit, d.Reaches x t) :
    d.Opens unit.depth x := by
  intro inner hi hd t ht
  exact h t (Span.mem_of_mem_inner hx hi hd ht)

theorem Direction.opens_beyond (h : d.beyond? span = some next) : d.Opens span.depth next :=
  fun _ hn hd _ ht => beyond?_opens h hn hd ht

/-- A gap in a span where the schedule fires is not met from the front: the search has come into the
span too late. -/
theorem Schedule.Allowed.gap_depth_lt (allowed : s.Allowed) (h : s.passAt d x = .gap span)
    (opens : d.Opens depth x) (ht : t ∈ span) (fires : s.firesAt t = .ok true) :
    span.depth < depth := by
  by_contra deep
  have hbefore : d.Before t x := by
    by_contra ahead
    have hxt := Direction.not_before.mp ahead
    exact d.before_irrefl t (allowed.fires_beyond_gap h fires hxt t ht)
  obtain ⟨u, hu, hxu⟩ := allowed.gap_reached h
  have hx := Span.mem_of_between ht hu hbefore.reaches hxu
  exact hbefore.not_reaches (opens span hx (Nat.le_of_not_lt deep) t ht)

end Opens

end CronTimes
