namespace CronTimes

/-- Puts a value into an ascending list, once. -/
def insertAscending (value : Nat) : List Nat → List Nat
  | [] => [value]
  | x :: xs =>
    if value < x then value :: x :: xs
    else if value = x then x :: xs
    else x :: insertAscending value xs

theorem mem_insertAscending {value x : Nat} {xs : List Nat} :
    x ∈ insertAscending value xs ↔ x = value ∨ x ∈ xs := by
  induction xs with
  | nil => simp [insertAscending]
  | cons y ys ih =>
    simp only [insertAscending]
    split
    · simp
    · split
      next same => subst same; simp
      next => simp only [List.mem_cons, ih]; grind

theorem pairwise_insertAscending {value : Nat} {xs : List Nat} (hx : xs.Pairwise (· < ·)) :
    (insertAscending value xs).Pairwise (· < ·) := by
  induction xs with
  | nil => simp [insertAscending]
  | cons y ys ih =>
    obtain ⟨above, rest⟩ := List.pairwise_cons.mp hx
    simp only [insertAscending]
    split
    next lt =>
      refine List.pairwise_cons.mpr ⟨?_, hx⟩
      intro z hz
      rcases List.mem_cons.mp hz with rfl | hz
      · exact lt
      · exact Nat.lt_trans lt (above z hz)
    next =>
      split
      · exact hx
      · refine List.pairwise_cons.mpr ⟨?_, ih rest⟩
        intro z hz
        rcases mem_insertAscending.mp hz with rfl | hz
        · omega
        · exact above z hz

/-- The values that a field allows, in ascending order and each once. -/
structure FieldSet where
  values : Array Nat
  ascending : values.toList.Pairwise (· < ·)
deriving DecidableEq

instance : Ord FieldSet := ⟨fun first second => compare first.values second.values⟩

theorem pairwise_foldr_insertAscending {xs : List Nat} :
    (xs.foldr insertAscending []).Pairwise (· < ·) := by
  induction xs with
  | nil => exact List.Pairwise.nil
  | cons x xs ih => exact pairwise_insertAscending ih

def FieldSet.ofList (xs : List Nat) : FieldSet :=
  ⟨(xs.foldr insertAscending []).toArray, pairwise_foldr_insertAscending⟩

def FieldSet.toList (set : FieldSet) : List Nat := set.values.toList

theorem FieldSet.pairwise_toList (set : FieldSet) : set.toList.Pairwise (· < ·) := set.ascending

theorem FieldSet.mem_toList_ofList {xs : List Nat} {x : Nat} :
    x ∈ (ofList xs).toList ↔ x ∈ xs := by
  change x ∈ xs.foldr insertAscending [] ↔ x ∈ xs
  induction xs with
  | nil => simp
  | cons y ys ih => rw [List.foldr_cons, mem_insertAscending, ih, List.mem_cons]

/-- Halves the interval `[low, high)` of places until the value is found or no place is left. -/
def holdsWithin (values : Array Nat) (value low high : Nat) (bounded : high ≤ values.size) :
    Bool :=
  if room : low < high then
    let middle := (low + high) / 2
    if values[middle] = value then true
    else if values[middle] < value then holdsWithin values value (middle + 1) high bounded
    else holdsWithin values value low middle (by omega)
  else false
termination_by high - low

/-- Membership by binary search. -/
def FieldSet.contains (set : FieldSet) (value : Nat) : Bool :=
  holdsWithin set.values value 0 set.values.size (Nat.le_refl _)

/-- The first value of a list that is not below the bound. In an ascending list it is the least
such value. -/
def firstFrom (values : List Nat) (lower : Nat) : Option Nat :=
  values.find? (lower ≤ ·)

/-- The last value of a list that is not above the bound. In an ascending list it is the greatest
such value. -/
def lastUpTo (values : List Nat) (upper : Nat) : Option Nat :=
  values.reverse.find? (· ≤ upper)

end CronTimes
