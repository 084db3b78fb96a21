import CronTimes.Progression
import Mathlib.Data.Nat.Basic

namespace CronTimes

/-- The terms `first`, `first + step`, … in order, as far as they do not exceed `last`. -/
def ListsTerms (first last step : Nat) (numbers : List Nat) : Prop :=
  ∀ i, numbers[i]? = if first + i * step ≤ last then some (first + i * step) else none

namespace Progression

/-- What a number of pulls give, one after another, and what remains after them. -/
def pullN : Nat → Progression → List (Option Nat) × Progression
  | 0, p => ([], p)
  | count + 1, p =>
    let (value, rest) := p.pull
    let (values, rest) := rest.pullN count
    (value :: values, rest)

/-- A progression in which a number comes next, unless that number lies past the ceiling. -/
def standingAt (value last step : Nat) : Progression :=
  ⟨if value ≤ progressionCeiling then some value else none, last, step⟩

end Progression

section Terms

variable {first last step x : Nat} {numbers : List Nat}

theorem ListsTerms.past (terms : ListsTerms first last step []) : last < first := by
  have none := terms 0
  by_contra room
  simp [show first ≤ last by omega] at none

theorem ListsTerms.of_cons (terms : ListsTerms first last step (x :: numbers)) :
    x = first ∧ first ≤ last ∧ ListsTerms (first + step) last step numbers := by
  have head := terms 0
  simp only [List.getElem?_cons_zero, Nat.zero_mul, Nat.add_zero, Option.some_eq_ite_none_right,
    Option.some.injEq] at head
  refine ⟨head.2, head.1, ?_⟩
  intro i
  have term : first + step + i * step = first + (i + 1) * step := by
    rw [Nat.succ_mul]
    omega
  rw [term, ← terms (i + 1), List.getElem?_cons_succ]

/-- Steps that go somewhere pass the last value sooner or later. -/
theorem exists_listsTerms (last : Nat) (positive : 0 < step) (first : Nat) :
    ∃ numbers, ListsTerms first last step numbers := by
  by_cases room : first ≤ last
  · refine ⟨List.range' first ((last - first) / step + 1) step, ?_⟩
    intro i
    have within : i < (last - first) / step + 1 ↔ first + i * step ≤ last := by
      rw [Nat.lt_succ_iff, Nat.le_div_iff_mul_le positive]
      omega
    by_cases term : first + i * step ≤ last
    · rw [if_pos term, List.getElem?_range' (within.mpr term), Nat.mul_comm]
    · rw [if_neg term, List.getElem?_eq_none_iff, List.length_range']
      exact Nat.le_of_not_lt (fun inside => term (within.mp inside))
  · refine ⟨[], ?_⟩
    intro i
    have past : ¬ first + i * step ≤ last := by omega
    rw [if_neg past, List.getElem?_nil]

theorem ListsTerms.mem_iff (terms : ListsTerms first last step numbers) :
    x ∈ numbers ↔ ∃ i, x = first + i * step ∧ x ≤ last := by
  rw [List.mem_iff_getElem?]
  apply exists_congr
  intro i
  rw [terms i, Option.ite_none_right_eq_some, Option.some.injEq]
  constructor
  · intro h
    exact ⟨h.2.symm, h.2 ▸ h.1⟩
  · intro h
    exact ⟨h.1 ▸ h.2, h.1.symm⟩

/-- No two terms are equal, so there are no more of them than numbers up to the last value. -/
theorem ListsTerms.length_le (terms : ListsTerms first last step numbers) (positive : 0 < step) :
    numbers.length ≤ last + 1 := by
  have past : ¬ first + (last + 1) * step ≤ last := by
    have := Nat.le_mul_of_pos_right (last + 1) positive
    omega
  have none := terms (last + 1)
  rw [if_neg past] at none
  exact List.getElem?_eq_none_iff.mp none

end Terms

namespace Progression

section Pulls

variable {p rest : Progression} {first last step value : Nat} {numbers : List Nat}

theorem start?_eq_none_iff : start? first last step = none ↔ last < first ∨ step = 0 := by
  unfold start?
  split
  next starts =>
    simp only [reduceCtorEq, false_iff]
    omega
  next refused =>
    simp only [true_iff]
    omega

theorem start?_eq_some_iff (fits : last ≤ progressionCeiling) :
    start? first last step = some p ↔
      first ≤ last ∧ 0 < step ∧ standingAt first last step = p := by
  unfold start?
  split
  next starts =>
    have inside : first ≤ progressionCeiling := Nat.le_trans starts.1 fits
    simp [standingAt, inside, starts]
  next refused =>
    simp only [reduceCtorEq, false_iff]
    intro h
    exact refused ⟨h.1, h.2.1⟩

theorem pull_standingAt_of_le (step : Nat) (fits : last ≤ progressionCeiling)
    (room : value ≤ last) :
    (standingAt value last step).pull = (some value, standingAt (value + step) last step) := by
  have inside : value ≤ progressionCeiling := Nat.le_trans room fits
  simp only [pull, standingAt, if_pos inside, if_pos room]

/-- Past the last value a progression stays as it is, whether it still holds a number or none. -/
theorem pull_standingAt_of_lt (step : Nat) (past : last < value) :
    (standingAt value last step).pull = (none, standingAt value last step) := by
  unfold standingAt
  by_cases inside : value ≤ progressionCeiling
  · simp only [pull, if_pos inside, if_neg (Nat.not_le_of_lt past)]
  · simp only [pull, if_neg inside]

theorem pull_eq_none (h : p.pull = (none, rest)) : rest = p := by
  unfold pull at h
  split at h
  next => exact (Prod.mk.inj h).2.symm
  next =>
    split at h
    next => simp at h
    next => exact (Prod.mk.inj h).2.symm

/-- A progression that has ended stays so. -/
theorem pullN_of_ended (ended : p.pull = (none, p)) (count : Nat) :
    p.pullN count = (List.replicate count none, p) := by
  induction count with
  | zero => rfl
  | succ count ih => simp only [pullN, ended, ih, List.replicate_succ]

/-- The pulls give the terms in turn, and nothing from then on. -/
theorem pullN_standingAt (fits : last ≤ progressionCeiling)
    (terms : ListsTerms first last step numbers) (more : Nat) :
    (standingAt first last step).pullN (numbers.length + more) =
      (numbers.map some ++ List.replicate more none,
        standingAt (first + numbers.length * step) last step) := by
  induction numbers generalizing first with
  | nil =>
    have ended := pullN_of_ended (pull_standingAt_of_lt step terms.past) more
    simpa using ended
  | cons x numbers ih =>
    obtain ⟨rfl, room, others⟩ := terms.of_cons
    have here := pull_standingAt_of_le step fits room
    have stand : x + (numbers.length + 1) * step = x + step + numbers.length * step := by
      rw [Nat.succ_mul]
      omega
    rw [List.length_cons, Nat.add_right_comm, stand]
    simp only [pullN, here, ih others, List.map_cons, List.cons_append]

/-- Taking numbers is pulling so many times and leaving out the pulls that gave nothing. -/
theorem take_eq_pullN (count : Nat) (p : Progression) :
    p.take count = ((p.pullN count).1.filterMap id, (p.pullN count).2) := by
  induction count generalizing p with
  | zero => rfl
  | succ count ih =>
    unfold take
    split
    next rest ended =>
      cases pull_eq_none ended
      rw [pullN_of_ended ended]
      simp
    next value rest here => simp [pullN, here, ih rest]

theorem values_standingAt (fits : last ≤ progressionCeiling) (positive : 0 < step)
    (terms : ListsTerms first last step numbers) :
    (standingAt first last step).values = numbers := by
  obtain ⟨more, enough⟩ := Nat.le.dest (terms.length_le positive)
  change ((standingAt first last step).take (last + 1)).1 = numbers
  rw [take_eq_pullN, ← enough, pullN_standingAt fits terms]
  simp

end Pulls

/-- A progression starts unless its ends cross or its step is zero. It gives its terms in order and
then nothing any more, be it that the number after them exceeds the last value or lies past the
ceiling. -/
theorem gives_bounded_terms {last : Nat} (fits : last ≤ progressionCeiling) (first step : Nat) :
    (start? first last step = none ↔ last < first ∨ step = 0) ∧
    ∀ p, start? first last step = some p →
      ∃ numbers, ListsTerms first last step numbers ∧ p.values = numbers ∧
        ∀ more, p.pullN (numbers.length + more) =
          (numbers.map some ++ List.replicate more none,
            standingAt (first + numbers.length * step) last step) := by
  refine ⟨start?_eq_none_iff, ?_⟩
  intro p started
  obtain ⟨-, positive, rfl⟩ := (start?_eq_some_iff fits).mp started
  obtain ⟨numbers, terms⟩ := exists_listsTerms last positive first
  exact ⟨numbers, terms, values_standingAt fits positive terms, pullN_standingAt fits terms⟩

/-- Just below the ceiling. The number after the terms exceeds the last value in the first
progression, and lies past the ceiling in the second one, which holds no number then. -/
theorem gives_terms_below_ceiling :
    (∃ p, start? 65529 65534 3 = some p ∧ ListsTerms 65529 65534 3 [65529, 65532] ∧
      p.pullN 4 = ([some 65529, some 65532, none, none], ⟨some 65535, 65534, 3⟩)) ∧
    ∃ p, start? 65529 65535 4 = some p ∧ ListsTerms 65529 65535 4 [65529, 65533] ∧
      p.pullN 4 = ([some 65529, some 65533, none, none], ⟨none, 65535, 4⟩) := by
  constructor
  · obtain ⟨numbers, terms, all, pulls⟩ :=
      (gives_bounded_terms (show 65534 ≤ progressionCeiling by decide) 65529 3).2 _ rfl
    have two : values ⟨some 65529, 65534, 3⟩ = [65529, 65532] := by decide +kernel
    cases two.symm.trans all
    exact ⟨_, rfl, terms, pulls 2⟩
  · obtain ⟨numbers, terms, all, pulls⟩ :=
      (gives_bounded_terms (Nat.le_refl progressionCeiling) 65529 4).2 _ rfl
    have two : values ⟨some 65529, 65535, 4⟩ = [65529, 65533] := by decide +kernel
    cases two.symm.trans all
    exact ⟨_, rfl, terms, pulls 2⟩

end Progression

end CronTimes
