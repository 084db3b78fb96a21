import CronTimes.FieldText
import CronTimes.Proofs.ProgressionTerms
import Mathlib.Tactic.ByContra

namespace CronTimes

theorem holdsWithin_iff {values : Array Nat} {value low high : Nat} {bounded : high ≤ values.size}
    (ascending : values.toList.Pairwise (· < ·)) :
    holdsWithin values value low high bounded ↔
      ∃ i, ∃ hi : i < values.size, low ≤ i ∧ i < high ∧ values[i] = value := by
  have sorted : ∀ i j (hi : i < values.size) (hj : j < values.size), i < j →
      values[i] < values[j] := by
    intro i j hi hj hij
    exact List.pairwise_iff_getElem.mp ascending i j (by simpa using hi) (by simpa using hj) hij
  fun_induction holdsWithin values value low high bounded with
  | case1 low high bounded room middle same =>
    exact iff_of_true rfl ⟨middle, by omega, by omega, by omega, same⟩
  | case2 low high bounded room middle other below ih =>
    refine Iff.trans ih ?_
    constructor
    · rintro ⟨i, hi, hl, hh, he⟩
      exact ⟨i, hi, by omega, hh, he⟩
    · rintro ⟨i, hi, hl, hh, he⟩
      refine ⟨i, hi, ?_, hh, he⟩
      by_contra before
      rcases Nat.lt_or_eq_of_le (show i ≤ middle by omega) with lt | rfl
      · have := sorted i middle hi (by omega) lt
        omega
      · exact other he
  | case3 low high bounded room middle other below ih =>
    refine Iff.trans ih ?_
    constructor
    · rintro ⟨i, hi, hl, hh, he⟩
      exact ⟨i, hi, hl, by omega, he⟩
    · rintro ⟨i, hi, hl, hh, he⟩
      refine ⟨i, hi, hl, ?_, he⟩
      by_contra after
      rcases Nat.lt_or_eq_of_le (show middle ≤ i by omega) with lt | rfl
      · have := sorted middle i (by omega) hi lt
        omega
      · exact other he
  | case4 low high bounded room =>
    constructor
    · simp
    · rintro ⟨i, hi, hl, hh, he⟩
      omega

theorem FieldSet.contains_iff {set : FieldSet} {value : Nat} :
    set.contains value ↔ value ∈ set.toList := by
  rw [contains, holdsWithin_iff set.ascending, toList, List.mem_iff_getElem]
  constructor
  · rintro ⟨i, hi, -, -, he⟩
    exact ⟨i, by simpa using hi, by simpa using he⟩
  · rintro ⟨i, hi, he⟩
    exact ⟨i, by simpa using hi, by omega, by simpa using hi, by simpa using he⟩

/-- The values of an item are the terms of its progression, all of them. -/
theorem FieldItem.values?_eq_some_iff {item : FieldItem} {values : List Nat}
    (fits : item.last ≤ progressionCeiling) :
    item.values? = some values ↔ item.first ≤ item.last ∧ 0 < item.step ∧
      ListsTerms item.first item.last item.step values := by
  rw [values?, Option.map_eq_some_iff]
  constructor
  · intro h
    obtain ⟨p, started, rfl⟩ := h
    obtain ⟨ordered, positive, rfl⟩ := (Progression.start?_eq_some_iff fits).mp started
    obtain ⟨numbers, terms⟩ := exists_listsTerms item.last positive item.first
    rw [Progression.values_standingAt fits positive terms]
    exact ⟨ordered, positive, terms⟩
  · intro h
    obtain ⟨ordered, positive, terms⟩ := h
    exact ⟨_, (Progression.start?_eq_some_iff fits).mpr ⟨ordered, positive, rfl⟩,
      Progression.values_standingAt fits positive terms⟩

theorem wordIndex?_lt {words : List String} {text : List Char} {i : Nat}
    (h : wordIndex? words text = some i) : i < words.length := by
  unfold wordIndex? at h
  split at h
  next => simp at h
  next =>
    obtain ⟨hi, _⟩ := List.findIdx?_eq_some_iff_getElem.mp h
    exact hi

theorem CronField.value?_bounds {field : CronField} {text : List Char} {v : Nat}
    (h : field.value? text = some v) : field.least ≤ v ∧ v ≤ field.greatest := by
  unfold value? at h
  split at h
  next number =>
    cases Option.some.inj h
    exact (boundedNumber?_eq_some_iff.mp number).2
  next =>
    obtain ⟨i, hi, rfl⟩ := Option.map_eq_some_iff.mp h
    have hlt := wordIndex?_lt hi
    cases field <;> simp [names, monthNames, weekdayNames, least, greatest] at * <;> omega

theorem CronField.range?_bounds {field : CronField} {first last : List Char} {ends : Nat × Nat}
    (h : field.range? first last = some ends) :
    field.least ≤ ends.1 ∧ ends.2 ≤ field.greatest := by
  obtain ⟨low, hl, h⟩ := Option.bind_eq_some_iff.mp h
  obtain ⟨high, hh, h⟩ := Option.bind_eq_some_iff.mp h
  split at h
  next =>
    cases Option.some.inj h
    exact ⟨(value?_bounds hl).1, (value?_bounds hh).2⟩
  next => simp at h

theorem CronField.stepBase?_bounds {field : CronField} {text : List Char} {ends : Nat × Nat}
    (h : field.stepBase? text = some ends) :
    field.least ≤ ends.1 ∧ ends.2 ≤ field.greatest := by
  unfold stepBase? at h
  split at h
  next =>
    cases Option.some.inj h
    exact ⟨Nat.le_refl _, Nat.le_refl _⟩
  next =>
    split at h
    next => exact range?_bounds h
    next =>
      obtain ⟨v, hv, rfl⟩ := Option.map_eq_some_iff.mp h
      exact ⟨(value?_bounds hv).1, Nat.le_refl _⟩

theorem CronField.item?_bounds {field : CronField} {text : List Char} {item : FieldItem}
    (h : field.item? text = some item) :
    field.least ≤ item.first ∧ item.last ≤ field.greatest := by
  unfold item? at h
  split at h
  next =>
    cases Option.some.inj h
    exact ⟨Nat.le_refl _, Nat.le_refl _⟩
  next =>
    split at h
    next =>
      split at h
      next => simp at h
      next =>
        obtain ⟨step, _, h⟩ := Option.bind_eq_some_iff.mp h
        obtain ⟨ends, he, h⟩ := Option.bind_eq_some_iff.mp h
        cases Option.some.inj h
        exact stepBase?_bounds he
    next =>
      split at h
      next =>
        obtain ⟨ends, he, rfl⟩ := Option.map_eq_some_iff.mp h
        exact range?_bounds he
      next =>
        obtain ⟨v, hv, rfl⟩ := Option.map_eq_some_iff.mp h
        exact value?_bounds hv

theorem CronField.greatest_le_ceiling (field : CronField) :
    field.greatest ≤ progressionCeiling := by
  cases field <;> decide

/-- An item that a field reads has a value, and none out of bounds. -/
theorem CronField.item?_values {field : CronField} {text : List Char} {item : FieldItem}
    {values : List Nat} (read : field.item? text = some item) (h : item.values? = some values) :
    item.first ∈ values ∧ ∀ v ∈ values, field.least ≤ v ∧ v ≤ field.greatest := by
  have hb := item?_bounds read
  have fits := Nat.le_trans hb.2 field.greatest_le_ceiling
  obtain ⟨ordered, -, terms⟩ := (FieldItem.values?_eq_some_iff fits).mp h
  refine ⟨terms.mem_iff.mpr ⟨0, by simp, ordered⟩, ?_⟩
  intro v hv
  obtain ⟨i, hi, hlast⟩ := terms.mem_iff.mp hv
  omega

theorem mem_of_mapM {α β : Type} {f : α → Option β} {xs : List α} {ys : List β}
    (h : xs.mapM f = some ys) :
    (∀ y ∈ ys, ∃ x ∈ xs, f x = some y) ∧ ∀ x ∈ xs, ∃ y ∈ ys, f x = some y := by
  induction xs generalizing ys with
  | nil =>
    simp only [List.mapM_nil, Option.pure_def, Option.some.injEq] at h
    subst h
    simp
  | cons x xs ih =>
    rw [List.mapM_cons] at h
    obtain ⟨y, hy, h⟩ := Option.bind_eq_some_iff.mp h
    obtain ⟨rest, hr, h⟩ := Option.bind_eq_some_iff.mp h
    cases Option.some.inj h
    obtain ⟨made, kept⟩ := ih hr
    constructor
    · intro z hz
      rcases List.mem_cons.mp hz with rfl | hz
      · exact ⟨x, by simp, hy⟩
      · obtain ⟨w, hw, hwz⟩ := made z hz
        exact ⟨w, by simp [hw], hwz⟩
    · intro w hw
      rcases List.mem_cons.mp hw with rfl | hw
      · exact ⟨y, by simp, hy⟩
      · obtain ⟨z, hz, hwz⟩ := kept w hw
        exact ⟨z, by simp [hz], hwz⟩

/-- What reading a field guarantees: it allows something, and nothing out of bounds. -/
structure CronField.Allows (field : CronField) (set : FieldSet) : Prop where
  nonempty : ∃ v, v ∈ set.toList
  least_le : ∀ v ∈ set.toList, field.least ≤ v
  le_greatest : ∀ v ∈ set.toList, v ≤ field.greatest

theorem CronField.set?_bounds {field : CronField} {text : List Char} {set : FieldSet}
    (h : field.set? text = some set) : field.Allows set := by
  obtain ⟨items, hi, h⟩ := Option.bind_eq_some_iff.mp h
  obtain ⟨lists, hl, h⟩ := Option.bind_eq_some_iff.mp h
  cases Option.some.inj h
  obtain ⟨read, kept⟩ := mem_of_mapM hi
  obtain ⟨listed, values⟩ := mem_of_mapM hl
  have bounds : ∀ v ∈ lists.flatten, field.least ≤ v ∧ v ≤ field.greatest := by
    intro v hv
    obtain ⟨list, hlist, hv⟩ := List.mem_flatten.mp hv
    obtain ⟨item, hitem, hvalues⟩ := listed list hlist
    obtain ⟨part, _, hpart⟩ := read item hitem
    exact (item?_values hpart hvalues).2 v hv
  refine ⟨?_, ?_, ?_⟩
  · obtain ⟨part, hpart⟩ := List.exists_mem_of_ne_nil _ (List.splitOn_ne_nil ',' text)
    obtain ⟨item, hitem, hread⟩ := kept part hpart
    obtain ⟨list, hlist, hvalues⟩ := values item hitem
    have hfirst := (item?_values hread hvalues).1
    exact ⟨item.first, FieldSet.mem_toList_ofList.mpr (List.mem_flatten.mpr ⟨list, hlist, hfirst⟩)⟩
  · exact fun v hv => (bounds v (FieldSet.mem_toList_ofList.mp hv)).1
  · exact fun v hv => (bounds v (FieldSet.mem_toList_ofList.mp hv)).2

theorem CronField.parse_bounds {field : CronField} {text : String} {set : FieldSet}
    (h : field.parse text = .ok set) : field.Allows set := by
  unfold parse at h
  split at h
  next read =>
    cases Except.ok.inj h
    exact set?_bounds read
  next => simp at h

end CronTimes
