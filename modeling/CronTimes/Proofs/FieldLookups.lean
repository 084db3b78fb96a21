import CronTimes.Proofs.DirectedOrder
import CronTimes.Proofs.FieldValues

namespace CronTimes

/-- What the three ways to look a number up among the values of a field tell of it, by halving the
values and by going through them from either end. Where the number itself is missing, they find the
values on both sides of the gap that it falls into. -/
structure FieldSet.LookupsAgree (set : FieldSet) (v : Nat) : Prop where
  member : set.contains v ↔ v ∈ set.toList
  member_from : firstFrom set.toList v = some v ↔ v ∈ set.toList
  member_up_to : lastUpTo set.toList v = some v ↔ v ∈ set.toList
  least (x : Nat) : firstFrom set.toList v = some x ↔
    x ∈ set.toList ∧ v ≤ x ∧ ∀ y ∈ set.toList, v ≤ y → x ≤ y
  greatest (x : Nat) : lastUpTo set.toList v = some x ↔
    x ∈ set.toList ∧ x ≤ v ∧ ∀ y ∈ set.toList, y ≤ v → y ≤ x
  none_above : firstFrom set.toList v = none ↔ ∀ y ∈ set.toList, y < v
  none_below : lastUpTo set.toList v = none ↔ ∀ y ∈ set.toList, v < y
  found : firstFrom set.toList v ≠ none ∨ lastUpTo set.toList v ≠ none
  neighbours : v ∉ set.toList → ∃ below above, set.toList = below ++ above ∧
    (∀ y ∈ below, y < v) ∧ (∀ y ∈ above, v < y) ∧
      lastUpTo set.toList v = below.getLast? ∧ firstFrom set.toList v = above.head?

section Scans

variable {values below above : List Nat} {v : Nat}

theorem Direction.pick_eq_none_iff_before {d : Direction} :
    d.pick values v = none ↔ ∀ y ∈ values, d.Before y v := by
  rw [pick_eq_none_iff]
  exact forall₂_congr fun y _ => not_reaches

/-- A number that an ascending list does not hold cuts it in two. -/
theorem exists_gap (ascending : values.Pairwise (· < ·)) (missing : v ∉ values) :
    ∃ below above, values = below ++ above ∧ (∀ y ∈ below, y < v) ∧ ∀ y ∈ above, v < y := by
  induction values with
  | nil => exact ⟨[], [], rfl, by simp, by simp⟩
  | cons x values ih =>
    obtain ⟨later, rest⟩ := List.pairwise_cons.mp ascending
    have other : v ≠ x := fun same => missing (same ▸ List.mem_cons_self)
    by_cases lower : x < v
    · obtain ⟨below, above, rfl, small, large⟩ :=
        ih rest fun member => missing (List.mem_cons_of_mem x member)
      exact ⟨x :: below, above, rfl, List.forall_mem_cons.mpr ⟨lower, small⟩, large⟩
    · have higher : v < x := by omega
      refine ⟨[], x :: values, rfl, by simp, List.forall_mem_cons.mpr ⟨higher, ?_⟩⟩
      exact fun y hy => Nat.lt_trans higher (later y hy)

/-- A scan stops at once behind the values that it refuses. -/
theorem find?_append_of_refused {accepts : Nat → Bool} (refused : ∀ y ∈ below, ¬ accepts y)
    (accepted : ∀ y ∈ above, accepts y) : (below ++ above).find? accepts = above.head? := by
  rw [← List.head?_filter, List.filter_append, List.filter_eq_nil_iff.mpr refused,
    List.filter_eq_self.mpr accepted, List.nil_append]

theorem firstFrom_append (small : ∀ y ∈ below, y < v) (large : ∀ y ∈ above, v < y) :
    firstFrom (below ++ above) v = above.head? := by
  apply find?_append_of_refused
  · intro y hy
    simpa using small y hy
  · intro y hy
    simpa using (large y hy).le

theorem lastUpTo_append (small : ∀ y ∈ below, y < v) (large : ∀ y ∈ above, v < y) :
    lastUpTo (below ++ above) v = below.getLast? := by
  rw [lastUpTo, List.reverse_append, ← List.head?_reverse]
  apply find?_append_of_refused
  · intro y hy
    simpa using large y (List.mem_reverse.mp hy)
  · intro y hy
    simpa using (small y (List.mem_reverse.mp hy)).le

end Scans

/-- However a field is written, its values are looked up alike in all ways. -/
theorem CronField.lookups_agree {field : CronField} {text : String} {set : FieldSet}
    (read : field.parse text = .ok set) (v : Nat) : set.LookupsAgree v where
  member := FieldSet.contains_iff
  member_from :=
    ⟨Direction.pick_mem (d := .forward),
      Direction.pick_of_mem (d := .forward) set.pairwise_toList⟩
  member_up_to :=
    ⟨Direction.pick_mem (d := .backward),
      Direction.pick_of_mem (d := .backward) set.pairwise_toList⟩
  least x := Direction.pick_eq_some_iff (d := .forward) set.pairwise_toList
  greatest x := Direction.pick_eq_some_iff (d := .backward) set.pairwise_toList
  none_above := Direction.pick_eq_none_iff_before (d := .forward)
  none_below := Direction.pick_eq_none_iff_before (d := .backward)
  found := by
    obtain ⟨x, hx⟩ := (CronField.parse_bounds read).nonempty
    by_cases above : v ≤ x
    · apply Or.inl
      intro none
      exact Direction.pick_eq_none_iff (d := .forward).mp none x hx above
    · apply Or.inr
      intro none
      exact Direction.pick_eq_none_iff (d := .backward).mp none x hx (Nat.le_of_not_le above)
  neighbours missing := by
    obtain ⟨below, above, cut, small, large⟩ := exists_gap set.pairwise_toList missing
    refine ⟨below, above, cut, small, large, ?_, ?_⟩
    · rw [cut, lastUpTo_append small large]
    · rw [cut, firstFrom_append small large]

/-- Items that overlap and stand in no order. Nine lies in a gap, twenty past all values. -/
theorem CronField.lookups_agree_on_merged_hours :
    ∃ set, CronField.hour.parse "17,1-4/3,3/7,10-11" = .ok set ∧
      set.LookupsAgree 9 ∧ firstFrom set.toList 9 = some 10 ∧ lastUpTo set.toList 9 = some 4 ∧
      set.LookupsAgree 20 ∧ firstFrom set.toList 20 = none ∧ lastUpTo set.toList 20 = some 17 := by
  have read : CronField.hour.parse "17,1-4/3,3/7,10-11" =
      .ok (FieldSet.ofList [1, 3, 4, 10, 11, 17]) := by decide +kernel
  exact ⟨_, read, CronField.lookups_agree read 9, by decide, by decide,
    CronField.lookups_agree read 20, by decide, by decide⟩

end CronTimes
