import CronTimes.Direction
import Mathlib.Order.Lattice
import Mathlib.Data.Nat.Basic
import Mathlib.Data.Int.Order.Basic

namespace CronTimes

/-- A search that goes on from the first value can still meet the second one. -/
def Direction.Reaches {α : Type} [LE α] : Direction → α → α → Prop
  | .forward, first, second => first ≤ second
  | .backward, first, second => second ≤ first

/-- A search meets the first value and then, later on, the second one. -/
def Direction.Before {α : Type} [LT α] : Direction → α → α → Prop
  | .forward, first, second => first < second
  | .backward, first, second => second < first

instance {α : Type} [LE α] [DecidableLE α] (d : Direction) (first second : α) :
    Decidable (d.Reaches first second) :=
  match d with
  | .forward => inferInstanceAs (Decidable (first ≤ second))
  | .backward => inferInstanceAs (Decidable (second ≤ first))

instance {α : Type} [LT α] [DecidableLT α] (d : Direction) (first second : α) :
    Decidable (d.Before first second) :=
  match d with
  | .forward => inferInstanceAs (Decidable (first < second))
  | .backward => inferInstanceAs (Decidable (second < first))

section LinearOrder

variable {α : Type} [LinearOrder α] {d : Direction} {x y z : α}

theorem Direction.reaches_refl (d : Direction) (x : α) : d.Reaches x x := by
  cases d <;> exact le_refl x

theorem Direction.Reaches.trans (h : d.Reaches x y) (h' : d.Reaches y z) : d.Reaches x z := by
  cases d with
  | forward => exact le_trans h h'
  | backward => exact le_trans h' h

theorem Direction.Reaches.antisymm (h : d.Reaches x y) (h' : d.Reaches y x) : x = y := by
  cases d with
  | forward => exact le_antisymm h h'
  | backward => exact le_antisymm h' h

theorem Direction.not_before : ¬ d.Before x y ↔ d.Reaches y x := by
  cases d <;> exact not_lt

theorem Direction.not_reaches : ¬ d.Reaches x y ↔ d.Before y x := by
  cases d <;> exact not_le

theorem Direction.before_irrefl (d : Direction) (x : α) : ¬ d.Before x x :=
  not_before.mpr (d.reaches_refl x)

theorem Direction.Before.not_reaches (h : d.Before x y) : ¬ d.Reaches y x :=
  Direction.not_reaches.mpr h

theorem Direction.Before.reaches (h : d.Before x y) : d.Reaches x y := by
  cases d <;> exact le_of_lt h

theorem Direction.Before.trans_reaches (h : d.Before x y) (h' : d.Reaches y z) : d.Before x z := by
  cases d with
  | forward => exact lt_of_lt_of_le h h'
  | backward => exact lt_of_le_of_lt h' h

theorem Direction.Reaches.trans_before (h : d.Reaches x y) (h' : d.Before y z) : d.Before x z := by
  cases d with
  | forward => exact lt_of_le_of_lt h h'
  | backward => exact lt_of_lt_of_le h' h

theorem Direction.Reaches.eq_or_before (h : d.Reaches x y) : x = y ∨ d.Before x y := by
  by_cases back : d.Reaches y x
  · exact Or.inl (h.antisymm back)
  · exact Or.inr (not_reaches.mp back)

/-- If keys follow the order of values, a strict step from key to key is one from value to value. -/
theorem Direction.Before.of_keys {β : Type} [LinearOrder β] {v w : β}
    (mono : d.Reaches y x → d.Reaches w v) (h : d.Before v w) : d.Before x y := by
  by_contra back
  exact h.not_reaches (mono (not_before.mp back))

end LinearOrder

/-- In a list that follows the direction, the first value at or past a bound is the nearest one. -/
theorem Direction.find?_eq_some_iff {d : Direction} {values : List Nat} {bound v : Nat}
    {accepts : Nat → Bool} (follows : values.Pairwise d.Before)
    (ha : ∀ w, accepts w = true ↔ d.Reaches bound w) :
    values.find? accepts = some v ↔
      v ∈ values ∧ d.Reaches bound v ∧ ∀ w ∈ values, d.Reaches bound w → d.Reaches v w := by
  rw [List.find?_eq_some_iff_append]
  constructor
  · rintro ⟨hv, skipped, rest, rfl, refused⟩
    have later := (List.pairwise_cons.mp (List.pairwise_append.mp follows).2.1).1
    refine ⟨by simp, (ha v).mp hv, ?_⟩
    intro w hw hb
    rcases List.mem_append.mp hw with hw | hw
    · have hr := refused w hw
      rw [(ha w).mpr hb] at hr
      simp at hr
    · rcases List.mem_cons.mp hw with rfl | hw
      · exact d.reaches_refl w
      · exact (later w hw).reaches
  · rintro ⟨hm, hb, nearest⟩
    obtain ⟨skipped, rest, rfl⟩ := List.append_of_mem hm
    refine ⟨(ha v).mpr hb, skipped, rest, rfl, ?_⟩
    intro w hw
    have earlier := (List.pairwise_append.mp follows).2.2 w hw v (by simp)
    by_contra hr
    have hw' := nearest w (by simp [hw]) ((ha w).mp (by simpa using hr))
    exact earlier.not_reaches hw'

theorem Direction.pick_eq_some_iff {d : Direction} {values : List Nat} {bound v : Nat}
    (ascending : values.Pairwise (· < ·)) :
    d.pick values bound = some v ↔
      v ∈ values ∧ d.Reaches bound v ∧ ∀ w ∈ values, d.Reaches bound w → d.Reaches v w := by
  cases d with
  | forward => exact find?_eq_some_iff (d := .forward) ascending (fun w => decide_eq_true_iff)
  | backward =>
    have descending : values.reverse.Pairwise Direction.backward.Before :=
      List.pairwise_reverse.mpr ascending
    have same (w : Nat) : decide (w ≤ bound) = true ↔ Direction.backward.Reaches bound w :=
      decide_eq_true_iff
    simpa only [pick, lastUpTo, List.mem_reverse] using find?_eq_some_iff descending same

theorem Direction.pick_eq_none_iff {d : Direction} {values : List Nat} {bound : Nat} :
    d.pick values bound = none ↔ ∀ w ∈ values, ¬ d.Reaches bound w := by
  cases d <;> simp [pick, firstFrom, lastUpTo, Reaches]

section Pick

variable {d : Direction} {values : List Nat} {bound v : Nat}

theorem Direction.pick_mem (h : d.pick values bound = some v) : v ∈ values := by
  cases d with
  | forward => exact List.mem_of_find?_eq_some h
  | backward => exact List.mem_reverse.mp (List.mem_of_find?_eq_some h)

theorem Direction.pick_reaches (h : d.pick values bound = some v) : d.Reaches bound v := by
  cases d with
  | forward => simpa [Reaches] using List.find?_some h
  | backward => simpa [Reaches] using List.find?_some h

theorem Direction.pick_of_mem (ascending : values.Pairwise (· < ·)) (hv : v ∈ values) :
    d.pick values v = some v :=
  (pick_eq_some_iff ascending).mpr ⟨hv, d.reaches_refl v, fun _ _ hw => hw⟩

/-- A bound may move up to the value it leads to. -/
theorem Direction.pick_stable {later : Nat} (ascending : values.Pairwise (· < ·))
    (hb : d.Reaches bound later)
    (notPast : ∀ v, d.pick values bound = some v → d.Reaches later v) :
    d.pick values later = d.pick values bound := by
  cases hp : d.pick values bound with
  | none =>
    apply pick_eq_none_iff.mpr
    intro w hw hl
    exact pick_eq_none_iff.mp hp w hw (hb.trans hl)
  | some v =>
    obtain ⟨hm, -, nearest⟩ := (pick_eq_some_iff ascending).mp hp
    apply (pick_eq_some_iff ascending).mpr
    exact ⟨hm, notPast v hp, fun w hw hl => nearest w hw (hb.trans hl)⟩

/-- Bounds that leave the same values within reach lead to the same value. -/
theorem Direction.pick_congr {other : Nat} (ascending : values.Pairwise (· < ·))
    (h : ∀ v ∈ values, d.Reaches bound v ↔ d.Reaches other v) :
    d.pick values bound = d.pick values other := by
  apply Option.ext
  intro v
  rw [pick_eq_some_iff ascending, pick_eq_some_iff ascending]
  constructor
  · rintro ⟨hv, hb, nearest⟩
    exact ⟨hv, (h v hv).mp hb, fun w hw hw' => nearest w hw ((h w hw).mpr hw')⟩
  · rintro ⟨hv, hb, nearest⟩
    exact ⟨hv, (h v hv).mpr hb, fun w hw hw' => nearest w hw ((h w hw).mp hw')⟩

end Pick

end CronTimes
