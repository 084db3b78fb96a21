import CronTimes.Lookup
import CronTimes.Proofs.Pass

namespace CronTimes

/-- A pass from a minute ends in a gap, and a search goes on at the first minute beyond the gap. -/
def Schedule.Skips (s : Schedule) (d : Direction) (x : Minute) (span : Span) (next : Minute) :
    Prop :=
  s.passAt d x = .gap span ∧ d.beyond? span = some next

/-- A search from the first minute finds the second one after a number of retries. -/
inductive Schedule.Finds (s : Schedule) (d : Direction) : Nat → Minute → Minute → Prop
  | event {x r : Minute} (here : s.passAt d x = .event r) : Finds s d 0 x r
  | retry {n : Nat} {x next r : Minute} {span : Span} (skips : s.Skips d x span next)
      (rest : Finds s d n next r) : Finds s d (n + 1) x r

/-- The event that a search which may go on for ever would find. -/
structure Schedule.NearestEvent (s : Schedule) (d : Direction) (x r : Minute) : Prop where
  fires : s.firesAt r = .ok true
  reached : d.Reaches x r
  nearest : ∀ t, s.firesAt t = .ok true → d.Reaches x t → d.Reaches r t

section Passes

variable {s : Schedule} {d : Direction} {span : Span} {x t r next : Minute}

theorem Schedule.Allowed.event_nearest (allowed : s.Allowed) (h : s.passAt d x = .event r) :
    s.NearestEvent d x r := by
  have hx := allowed.passAt_not_endsBefore d x
  rw [h] at hx
  refine ⟨allowed.fires_of_event h, Direction.not_before.mp hx, ?_⟩
  intro t fires hxt
  rcases allowed.passAt_meets fires hxt with here | ends
  · cases Pass.event.inj (h.symm.trans here)
    exact d.reaches_refl r
  · rw [h] at ends
    exact Direction.Before.reaches ends

theorem Schedule.Allowed.fires_beyond_gap (allowed : s.Allowed) (h : s.passAt d x = .gap span)
    (fires : s.firesAt t = .ok true) (hxt : d.Reaches x t) : ∀ u ∈ span, d.Before u t := by
  rcases allowed.passAt_meets fires hxt with here | ends
  · cases h.symm.trans here
  · rw [h] at ends
    exact ends

theorem Schedule.Allowed.no_event_of_noYear (allowed : s.Allowed) (h : s.passAt d x = .noYear)
    (hxt : d.Reaches x t) : s.firesAt t ≠ .ok true := by
  intro fires
  rcases allowed.passAt_meets fires hxt with here | ends
  · cases h.symm.trans here
  · rw [h] at ends
    exact ends

theorem Schedule.Allowed.gap_reached (allowed : s.Allowed) (h : s.passAt d x = .gap span) :
    ∃ u ∈ span, d.Reaches x u := by
  have hx := allowed.passAt_not_endsBefore d x
  rw [h] at hx
  by_contra none
  apply hx
  intro u hu
  by_contra back
  exact none ⟨u, hu, Direction.not_before.mp back⟩

theorem Schedule.Skips.before (skips : s.Skips d x span next) (allowed : s.Allowed) :
    d.Before x next := by
  obtain ⟨u, hu, hxu⟩ := allowed.gap_reached skips.1
  exact hxu.trans_before (Direction.before_beyond? skips.2 hu)

theorem Schedule.Skips.reaches_event (skips : s.Skips d x span next) (allowed : s.Allowed)
    (fires : s.firesAt t = .ok true) (hxt : d.Reaches x t) : d.Reaches next t :=
  Direction.beyond?_reaches skips.2 (allowed.fires_beyond_gap skips.1 fires hxt)

/-- Every start within a skipped stretch skips the same gap. -/
theorem Schedule.Skips.stable (skips : s.Skips d x span next) (allowed : s.Allowed)
    (hxt : d.Reaches x t) (hb : d.Before t next) : s.Skips d t span next := by
  refine ⟨?_, skips.2⟩
  rw [← skips.1]
  apply allowed.passAt_stable hxt
  rw [skips.1]
  intro ends
  exact hb.not_reaches (Direction.beyond?_reaches skips.2 ends)

theorem Schedule.Allowed.skips_exists (allowed : s.Allowed) (h : s.passAt d x = .gap span) :
    ∃ next, s.Skips d x span next := by
  obtain ⟨next, hn⟩ := allowed.beyond?_exists d (allowed.selects_of_gap h)
  exact ⟨next, h, hn⟩

end Passes

def Direction.distance : Direction → Minute → Minute → Nat
  | .forward, x, r => (r.rank - x.rank).toNat
  | .backward, x, r => (x.rank - r.rank).toNat

section Finds

variable {s : Schedule} {d : Direction} {n k : Nat} {x b r r' next : Minute}

theorem Direction.distance_lt (h : d.Before x next) (hr : d.Reaches next r) :
    d.distance next r < d.distance x r := by
  cases d with
  | forward =>
    have hlt := Minute.lt_iff_rank.mp h
    have hle := Minute.le_iff_rank.mp hr
    simp only [distance]
    omega
  | backward =>
    have hlt := Minute.lt_iff_rank.mp h
    have hle := Minute.le_iff_rank.mp hr
    simp only [distance]
    omega

theorem Schedule.NearestEvent.mono (h : s.NearestEvent d x r) (hb : d.Reaches x b)
    (hr : d.Reaches b r) : s.NearestEvent d b r :=
  ⟨h.fires, hr, fun t fires ht => h.nearest t fires (hb.trans ht)⟩

theorem Schedule.Finds.nearest (h : s.Finds d n x r) (allowed : s.Allowed) :
    s.NearestEvent d x r := by
  induction h with
  | event here => exact allowed.event_nearest here
  | retry skips rest ih =>
    refine ⟨ih.fires, (skips.before allowed).reaches.trans ih.reached, ?_⟩
    intro t fires hxt
    exact ih.nearest t fires (skips.reaches_event allowed fires hxt)

/-- Retries lead to every event, though there is no bound on their number. -/
theorem Schedule.NearestEvent.finds {s : Schedule} {d : Direction} {x r : Minute}
    (h : s.NearestEvent d x r) (allowed : s.Allowed) : ∃ n, s.Finds d n x r := by
  cases hp : s.passAt d x with
  | event found =>
    have hf := allowed.event_nearest hp
    obtain rfl := (hf.nearest r h.fires h.reached).antisymm
      (h.nearest found hf.fires hf.reached)
    exact ⟨0, .event hp⟩
  | gap span =>
    obtain ⟨next, skips⟩ := allowed.skips_exists hp
    have hr := skips.reaches_event allowed h.fires h.reached
    have hlt := Direction.distance_lt (skips.before allowed) hr
    obtain ⟨n, hn⟩ := (h.mono (skips.before allowed).reaches hr).finds allowed
    exact ⟨n + 1, .retry skips hn⟩
  | noYear => exact absurd h.fires (allowed.no_event_of_noYear hp h.reached)
termination_by d.distance x r

theorem Schedule.finds_iff_of_event (here : s.passAt d x = .event r) :
    s.Finds d n x r' ↔ n = 0 ∧ r' = r := by
  constructor
  · intro finds
    cases finds with
    | event here' => exact ⟨rfl, (Pass.event.inj (here.symm.trans here')).symm⟩
    | retry skips' _ => cases here.symm.trans skips'.1
  · rintro ⟨rfl, rfl⟩
    exact .event here

theorem Schedule.Skips.finds_iff {span : Span} (skips : s.Skips d x span next) :
    s.Finds d n x r ↔ ∃ k, n = k + 1 ∧ s.Finds d k next r := by
  constructor
  · intro finds
    cases finds with
    | event here => cases skips.1.symm.trans here
    | retry skips' rest =>
      cases Pass.gap.inj (skips.1.symm.trans skips'.1)
      cases Option.some.inj (skips.2.symm.trans skips'.2)
      exact ⟨_, rfl, rest⟩
  · rintro ⟨k, rfl, rest⟩
    exact .retry skips rest

theorem Schedule.Finds.unique (h : s.Finds d n x r) (h' : s.Finds d k x r') : n = k ∧ r = r' := by
  induction h generalizing k with
  | event here =>
    obtain ⟨rfl, rfl⟩ := (finds_iff_of_event here).mp h'
    exact ⟨rfl, rfl⟩
  | retry skips rest ih =>
    obtain ⟨k, rfl, rest'⟩ := skips.finds_iff.mp h'
    obtain ⟨rfl, rfl⟩ := ih rest'
    exact ⟨rfl, rfl⟩

/-- A start on the way of a search needs no more retries than the search itself. -/
theorem Schedule.Finds.closer (h : s.Finds d n x r) (allowed : s.Allowed) (hb : d.Reaches x b)
    (hr : d.Reaches b r) : ∃ k ≤ n, s.Finds d k b r := by
  induction h generalizing b with
  | event here =>
    refine ⟨0, Nat.le_refl 0, .event ?_⟩
    rw [← here]
    apply allowed.passAt_stable hb
    rw [here]
    exact Direction.not_before.mpr hr
  | @retry n x next r span skips rest ih =>
    by_cases past : d.Reaches next b
    · obtain ⟨k, hk, found⟩ := ih past hr
      exact ⟨k, Nat.le_succ_of_le hk, found⟩
    · have skips' := skips.stable allowed hb (Direction.not_reaches.mp past)
      exact ⟨n + 1, Nat.le_refl _, .retry skips' rest⟩

end Finds

/-- The minute from which a lookup starts its search. -/
def Direction.start? (d : Direction) (m : Minute) (inclusive : Bool) : Option Minute :=
  if inclusive then some m else d.step? m

section Search

variable {s : Schedule} {d : Direction}

theorem Schedule.search_eq (s : Schedule) (d : Direction) (m : Minute) (inclusive : Bool) :
    s.search d m inclusive =
      match d.start? m inclusive with
      | none => .ok ⟨none, []⟩
      | some a => s.searchFrom d (maxRetries + 1) 1 a :=
  rfl

/-- A search finds what passes lead to, as long as its passes last. -/
theorem Schedule.Allowed.searchFrom_found (allowed : s.Allowed) (d : Direction)
    (passes depth : Nat) (x : Minute) :
    ∃ result, s.searchFrom d passes depth x = .ok result ∧
      ∀ r, result.found = some r ↔ ∃ n < passes, s.Finds d n x r := by
  induction passes generalizing depth x with
  | zero => exact ⟨_, rfl, by simp⟩
  | succ passes ih =>
    rw [Schedule.searchFrom, allowed.pass_eq, ok_bind]
    cases hp : s.passAt d x with
    | event found =>
      refine ⟨_, rfl, ?_⟩
      intro r
      simp only [finds_iff_of_event hp, Option.some.injEq]
      constructor
      · intro same
        exact ⟨0, Nat.succ_pos _, rfl, same.symm⟩
      · rintro ⟨n, _, _, same⟩
        exact same.symm
    | gap span =>
      obtain ⟨next, skips⟩ := allowed.skips_exists hp
      obtain ⟨rest, hrest, hfound⟩ := ih (depth + 1) next
      refine ⟨⟨rest.found, .gap span :: .retry depth x next :: rest.log⟩, ?_, ?_⟩
      · simp only [skips.2, hrest, ok_bind]
      intro r
      rw [hfound r]
      constructor
      · rintro ⟨n, hn, finds⟩
        exact ⟨n + 1, Nat.succ_lt_succ hn, .retry skips finds⟩
      · rintro ⟨n, hn, finds⟩
        obtain ⟨k, rfl, rest⟩ := skips.finds_iff.mp finds
        exact ⟨k, Nat.lt_of_succ_lt_succ hn, rest⟩
    | noYear =>
      refine ⟨_, rfl, ?_⟩
      intro r
      simp only [reduceCtorEq, false_iff]
      rintro ⟨n, _, finds⟩
      have hr := finds.nearest allowed
      exact allowed.no_event_of_noYear hp hr.reached hr.fires

/-- A lookup finds an event if and only if a search from its start needs at most as many retries as
are granted. -/
theorem Schedule.Allowed.nearest_found (allowed : s.Allowed) (d : Direction) (m : Minute)
    (inclusive : Bool) :
    ∃ found, s.nearest d m inclusive = .ok found ∧
      ∀ r, found = some r ↔
        ∃ a, d.start? m inclusive = some a ∧ ∃ n ≤ maxRetries, s.Finds d n a r := by
  rw [Schedule.nearest, Schedule.search_eq]
  cases d.start? m inclusive with
  | none => exact ⟨none, rfl, by simp⟩
  | some a =>
    obtain ⟨result, hs, hf⟩ := allowed.searchFrom_found d (maxRetries + 1) 1 a
    refine ⟨result.found, by simp only [hs]; rfl, ?_⟩
    intro r
    rw [hf r]
    simp only [Option.some.injEq, exists_eq_left', Nat.lt_succ_iff]

end Search

end CronTimes
