import CronTimes.Proofs.FieldValues
import CronTimes.Proofs.Spelling

namespace CronTimes

/-- What an item of a list starts from: every value, one value or a range of values. -/
inductive ItemBase
  | all
  | value (v : Nat)
  | range (first last : Nat)

/-- An item of a list; a step picks values at equal distances. -/
structure ListItem where
  base : ItemBase
  step : Option Nat

def ItemBase.first (field : CronField) : ItemBase → Nat
  | .all => field.least
  | .value v => v
  | .range a _ => a

/-- The value up to which steps go on. From a single value they go on to the greatest one. -/
def ItemBase.last (field : CronField) : ItemBase → Nat
  | .all | .value _ => field.greatest
  | .range _ b => b

def ItemBase.Covers (field : CronField) (x : Nat) : ItemBase → Prop
  | .all => field.least ≤ x ∧ x ≤ field.greatest
  | .value v => x = v
  | .range a b => a ≤ x ∧ x ≤ b

def ListItem.Covers (field : CronField) (x : Nat) (item : ListItem) : Prop :=
  match item.step with
  | none => item.base.Covers field x
  | some n => ∃ i, x = item.base.first field + i * n ∧ x ≤ item.base.last field

/-- The widest step of a field. -/
def CronField.widest : CronField → Nat
  | .year => 229
  | field => field.greatest

inductive CronField.WritesBase (field : CronField) : List Char → ItemBase → Prop
  | all : WritesBase field ['*'] .all
  | value {text : List Char} {v : Nat} (spelled : field.Spells text v) :
      WritesBase field text (.value v)
  | range {first last : List Char} {a b : Nat} (low : field.Spells first a)
      (high : field.Spells last b) (ordered : a ≤ b) :
      WritesBase field (first ++ '-' :: last) (.range a b)

/-- How a field writes an item. Days of the week take no step. -/
inductive CronField.Writes (field : CronField) : List Char → ListItem → Prop
  | plain {text : List Char} {base : ItemBase} (written : field.WritesBase text base) :
      Writes field text ⟨base, none⟩
  | stepped {text step : List Char} {base : ItemBase} {n : Nat} (steps : field ≠ .dayOfWeek)
      (written : field.WritesBase text base) (numeral : IsNumeral step n) (low : 1 ≤ n)
      (high : n ≤ field.widest) : Writes field (text ++ '/' :: step) ⟨base, some n⟩

/-- How a field writes a list, one item at least, with commas between the items. -/
inductive CronField.Lists (field : CronField) : List Char → List ListItem → Prop
  | last {text : List Char} {item : ListItem} (written : field.Writes text item) :
      Lists field text [item]
  | cons {text rest : List Char} {item : ListItem} {items : List ListItem}
      (written : field.Writes text item) (more : Lists field rest items) :
      Lists field (text ++ ',' :: rest) (item :: items)

/-- The progression that an item stands for. -/
def ListItem.series (field : CronField) : ListItem → FieldItem
  | ⟨base, some n⟩ => ⟨base.first field, base.last field, n⟩
  | ⟨.value v, none⟩ => ⟨v, v, 1⟩
  | ⟨base, none⟩ => ⟨base.first field, base.last field, 1⟩

theorem FieldSet.eq_of_mem_iff {first second : FieldSet}
    (h : ∀ x, x ∈ first.toList ↔ x ∈ second.toList) : first = second := by
  have same := first.pairwise_toList.eq_of_mem_iff second.pairwise_toList h
  cases first
  cases second
  cases Array.toList_inj.mp same
  rfl

namespace CronField

variable {field : CronField} {text : List Char} {base : ItemBase} {item : ListItem}
  {items : List ListItem} {set : FieldSet}

theorem widest_eq (field : CronField) : field.greatestStep = field.widest := by
  cases field <;> rfl

theorem WritesBase.chars (h : field.WritesBase text base) :
    ∀ c ∈ text, field.Uses c ∨ c = '*' ∨ c = '-' := by
  intro c hc
  cases h with
  | all => exact Or.inr (Or.inl (List.mem_singleton.mp hc))
  | value spelled => exact Or.inl (spelled.uses c hc)
  | range low high =>
    rcases List.mem_append.mp hc with hc | hc
    · exact Or.inl (low.uses c hc)
    · rcases List.mem_cons.mp hc with rfl | hc
      · exact Or.inr (Or.inr rfl)
      · exact Or.inl (high.uses c hc)

theorem Writes.chars (h : field.Writes text item) :
    ∀ c ∈ text, field.Uses c ∨ c = '*' ∨ c = '-' ∨ c = '/' := by
  intro c hc
  cases h with
  | plain written => exact (written.chars c hc).imp_right (Or.imp_right Or.inl)
  | stepped steps written numeral =>
    rcases List.mem_append.mp hc with hc | hc
    · exact (written.chars c hc).imp_right (Or.imp_right Or.inl)
    · rcases List.mem_cons.mp hc with rfl | hc
      · exact Or.inr (Or.inr (Or.inr rfl))
      · exact Or.inl (Or.inl (numeral.2.1 c hc))

/-- A list is written with the characters of its values and four marks. -/
theorem Lists.chars (h : field.Lists text items) :
    ∀ c ∈ text, field.Uses c ∨ c = '*' ∨ c = '-' ∨ c = '/' ∨ c = ',' := by
  intro c hc
  induction h with
  | last written => exact (written.chars c hc).imp_right (by simp +contextual [or_imp])
  | cons written more ih =>
    rcases List.mem_append.mp hc with hc | hc
    · exact (written.chars c hc).imp_right (by simp +contextual [or_imp])
    · rcases List.mem_cons.mp hc with rfl | hc
      · simp
      · exact ih hc

theorem WritesBase.same_word {other : List Char} (h : field.WritesBase text base)
    (same : sameWord text other) : field.WritesBase other base := by
  cases h with
  | all => exact sameWord_eq same (by simp [Char.isAlpha]) ▸ .all
  | value spelled => exact .value (spelled.same_word same)
  | range low high ordered =>
    obtain ⟨first, last, rfl, hf, hl⟩ := sameWord_cut same (by decide)
    exact .range (low.same_word hf) (high.same_word hl) ordered

theorem Writes.same_word {other : List Char} (h : field.Writes text item)
    (same : sameWord text other) : field.Writes other item := by
  cases h with
  | plain written => exact .plain (written.same_word same)
  | stepped steps written numeral low high =>
    obtain ⟨base, step, rfl, hb, hs⟩ := sameWord_cut same (by decide)
    exact .stepped steps (written.same_word hb) (numeral.same_word hs) low high

/-- The case of letters does not matter in a list. -/
theorem Lists.same_word {other : List Char} (h : field.Lists text items)
    (same : sameWord text other) : field.Lists other items := by
  induction h generalizing other with
  | last written => exact .last (written.same_word same)
  | cons written more ih =>
    obtain ⟨first, rest, rfl, hf, hr⟩ := sameWord_cut same (by decide)
    exact .cons (written.same_word hf) (ih hr)

theorem WritesBase.slash_not_mem (h : field.WritesBase text base) : '/' ∉ text := by
  intro hm
  rcases h.chars '/' hm with used | other
  · exact absurd used.isAlphanum (by decide)
  · exact absurd other (by decide)

theorem Writes.comma_not_mem (h : field.Writes text item) : ',' ∉ text := by
  intro hm
  rcases h.chars ',' hm with used | other
  · exact absurd used.isAlphanum (by decide)
  · exact absurd other (by decide)

theorem marked_ne_star {before after : List Char} {mark : Char} (h : mark ≠ '*') :
    before ++ mark :: after ≠ ['*'] := by
  intro same
  have hm : mark ∈ ['*'] := same ▸ by simp
  exact h (List.mem_singleton.mp hm)

theorem Spells.ne_star {v : Nat} (h : field.Spells text v) : text ≠ ['*'] := by
  rintro rfl
  exact h.not_mem (by decide) (List.mem_singleton_self '*')

theorem Spells.hyphen_not_mem {v : Nat} (h : field.Spells text v) : '-' ∉ text :=
  h.not_mem (by decide)

theorem range?_eq_some_iff {first last : List Char} {ends : Nat × Nat} :
    field.range? first last = some ends ↔
      field.Spells first ends.1 ∧ field.Spells last ends.2 ∧ ends.1 ≤ ends.2 := by
  obtain ⟨a, b⟩ := ends
  constructor
  · intro h
    obtain ⟨low, hl, h⟩ := Option.bind_eq_some_iff.mp h
    obtain ⟨high, hh, h⟩ := Option.bind_eq_some_iff.mp h
    split at h
    next ordered =>
      obtain ⟨rfl, rfl⟩ := Prod.mk.inj (Option.some.inj h)
      exact ⟨value?_eq_some_iff.mp hl, value?_eq_some_iff.mp hh, ordered⟩
    next => simp at h
  · rintro ⟨low, high, ordered⟩
    have hl := value?_eq_some_iff.mpr low
    have hh := value?_eq_some_iff.mpr high
    simp only at hl hh ordered
    simp [range?, hl, hh, ordered]

theorem stepBase?_eq_some_iff {ends : Nat × Nat} :
    field.stepBase? text = some ends ↔
      ∃ base, field.WritesBase text base ∧ (base.first field, base.last field) = ends := by
  constructor
  · intro h
    unfold stepBase? at h
    split at h
    next star =>
      subst star
      exact ⟨.all, .all, Option.some.inj h⟩
    next =>
      split at h
      next first last hc =>
        obtain ⟨rfl, -⟩ := cut?_eq_some_iff.mp hc
        obtain ⟨low, high, ordered⟩ := range?_eq_some_iff.mp h
        exact ⟨.range ends.1 ends.2, .range low high ordered, rfl⟩
      next =>
        obtain ⟨v, hv, rfl⟩ := Option.map_eq_some_iff.mp h
        exact ⟨.value v, .value (value?_eq_some_iff.mp hv), rfl⟩
  · rintro ⟨base, written, rfl⟩
    unfold stepBase?
    cases written with
    | all => rw [if_pos rfl]; rfl
    | value spelled =>
      rw [if_neg spelled.ne_star, cut?_eq_none_iff.mpr spelled.hyphen_not_mem]
      simp only [value?_eq_some_iff.mpr spelled]
      rfl
    | range low high ordered =>
      rw [if_neg (marked_ne_star (by decide)), cut?_eq_some_iff.mpr ⟨rfl, low.hyphen_not_mem⟩]
      exact range?_eq_some_iff.mpr ⟨low, high, ordered⟩

theorem item?_eq_some_iff {made : FieldItem} :
    field.item? text = some made ↔ ∃ item, field.Writes text item ∧ item.series field = made := by
  constructor
  · intro h
    unfold item? at h
    split at h
    next star =>
      subst star
      exact ⟨⟨.all, none⟩, .plain .all, Option.some.inj h⟩
    next =>
      split at h
      next base step hc =>
        obtain ⟨rfl, -⟩ := cut?_eq_some_iff.mp hc
        split at h
        next => simp at h
        next steps =>
          obtain ⟨n, hn, h⟩ := Option.bind_eq_some_iff.mp h
          obtain ⟨ends, he, h⟩ := Option.bind_eq_some_iff.mp h
          obtain ⟨numeral, low, high⟩ := boundedNumber?_iff_isNumeral.mp hn
          obtain ⟨base, written, rfl⟩ := stepBase?_eq_some_iff.mp he
          rw [widest_eq] at high
          exact ⟨⟨base, some n⟩, .stepped steps written numeral low high, Option.some.inj h⟩
      next =>
        split at h
        next first last hc =>
          obtain ⟨rfl, -⟩ := cut?_eq_some_iff.mp hc
          obtain ⟨ends, he, rfl⟩ := Option.map_eq_some_iff.mp h
          obtain ⟨low, high, ordered⟩ := range?_eq_some_iff.mp he
          exact ⟨⟨.range ends.1 ends.2, none⟩, .plain (.range low high ordered), rfl⟩
        next =>
          obtain ⟨v, hv, rfl⟩ := Option.map_eq_some_iff.mp h
          exact ⟨⟨.value v, none⟩, .plain (.value (value?_eq_some_iff.mp hv)), rfl⟩
  · rintro ⟨item, written, rfl⟩
    unfold item?
    cases written with
    | plain written =>
      have unstepped := cut?_eq_none_iff.mpr written.slash_not_mem
      cases written with
      | all => rw [if_pos rfl]; rfl
      | value spelled =>
        rw [if_neg spelled.ne_star, unstepped, cut?_eq_none_iff.mpr spelled.hyphen_not_mem]
        simp only [value?_eq_some_iff.mpr spelled]
        rfl
      | @range first last a b low high ordered =>
        have ends : field.range? first last = some (a, b) :=
          range?_eq_some_iff.mpr ⟨low, high, ordered⟩
        rw [if_neg (marked_ne_star (by decide)), unstepped,
          cut?_eq_some_iff.mpr ⟨rfl, low.hyphen_not_mem⟩]
        simp only [ends]
        rfl
    | @stepped base step meant n steps written numeral low high =>
      have hn := boundedNumber?_iff_isNumeral.mpr ⟨numeral, low, widest_eq field ▸ high⟩
      have ends := stepBase?_eq_some_iff.mpr ⟨meant, written, rfl⟩
      rw [if_neg (marked_ne_star (by decide)),
        cut?_eq_some_iff.mpr ⟨rfl, written.slash_not_mem⟩]
      simp only [if_neg steps, hn, ends]
      rfl

theorem Spells.bounds {v : Nat} (h : field.Spells text v) :
    field.least ≤ v ∧ v ≤ field.greatest :=
  value?_bounds (value?_eq_some_iff.mpr h)

theorem WritesBase.first_le_last (h : field.WritesBase text base) :
    base.first field ≤ base.last field := by
  cases h with
  | all => cases field <;> decide
  | value spelled => exact spelled.bounds.2
  | range low high ordered => exact ordered

theorem WritesBase.last_le (h : field.WritesBase text base) :
    base.last field ≤ field.greatest := by
  cases h with
  | all => exact Nat.le_refl _
  | value => exact Nat.le_refl _
  | range low high => exact high.bounds.2

theorem Writes.series_spec (h : field.Writes text item) :
    (item.series field).first ≤ (item.series field).last ∧ 1 ≤ (item.series field).step ∧
      (item.series field).last ≤ field.greatest := by
  cases h with
  | stepped steps written numeral low high => exact ⟨written.first_le_last, low, written.last_le⟩
  | plain written =>
    cases written with
    | all => exact ⟨WritesBase.all.first_le_last, Nat.le_refl 1, Nat.le_refl _⟩
    | value spelled => exact ⟨Nat.le_refl _, Nat.le_refl 1, spelled.bounds.2⟩
    | range low high ordered => exact ⟨ordered, Nat.le_refl 1, high.bounds.2⟩

theorem covers_iff_series {x : Nat} :
    item.Covers field x ↔ ∃ i, x = (item.series field).first + i * (item.series field).step ∧
      x ≤ (item.series field).last := by
  obtain ⟨base, step⟩ := item
  cases step with
  | some n => exact Iff.rfl
  | none =>
    cases base with
    | all =>
      constructor
      · rintro ⟨low, high⟩
        exact ⟨x - field.least, show x = field.least + (x - field.least) * 1 by omega, high⟩
      · rintro ⟨i, rfl, high⟩
        exact ⟨Nat.le_add_right _ _, high⟩
    | value v =>
      constructor
      · rintro rfl
        exact ⟨0, by simp [ListItem.series], Nat.le_refl _⟩
      · rintro ⟨i, rfl, high⟩
        exact Nat.le_antisymm high (Nat.le_add_right _ _)
    | range a b =>
      constructor
      · rintro ⟨low, high⟩
        exact ⟨x - a, show x = a + (x - a) * 1 by omega, high⟩
      · rintro ⟨i, rfl, high⟩
        exact ⟨Nat.le_add_right _ _, high⟩

theorem Writes.values (h : field.Writes text item) :
    ∃ values, (item.series field).values? = some values ∧
      ∀ x, x ∈ values ↔ item.Covers field x := by
  obtain ⟨ordered, positive, high⟩ := h.series_spec
  have fits := high.trans field.greatest_le_ceiling
  obtain ⟨values, terms⟩ :=
    exists_listsTerms (item.series field).last positive (item.series field).first
  refine ⟨values, (FieldItem.values?_eq_some_iff fits).mpr ⟨ordered, positive, terms⟩, ?_⟩
  exact fun x => terms.mem_iff.trans covers_iff_series.symm

theorem lists_of_forall₂ {parts : List (List Char)} (h : List.Forall₂ field.Writes parts items)
    (some_part : parts ≠ []) : field.Lists ([','].intercalate parts) items := by
  induction h with
  | nil => exact absurd rfl some_part
  | cons written rest ih =>
    cases rest with
    | nil =>
      rw [List.intercalate_singleton]
      exact .last written
    | cons next rest =>
      rw [List.intercalate_cons_cons, List.append_assoc, List.singleton_append]
      exact .cons written (ih (by simp))

/-- Splitting at commas takes a list apart into its items and nothing else. -/
theorem lists_iff_forall₂ :
    field.Lists text items ↔ List.Forall₂ field.Writes (text.splitOn ',') items := by
  constructor
  · intro h
    induction h with
    | last written =>
      rw [List.splitOn_eq_singleton written.comma_not_mem]
      exact .cons written .nil
    | cons written more ih =>
      rw [List.splitOn_append_cons_self_of_not_mem written.comma_not_mem]
      exact .cons written ih
  · intro h
    have whole : [','].intercalate (text.splitOn ',') = text := List.intercalate_splitOn ','
    rw [← whole]
    exact lists_of_forall₂ h (List.splitOn_ne_nil ',' text)

theorem mapM_item?_eq_some_iff {parts : List (List Char)} {made : List FieldItem} :
    parts.mapM field.item? = some made ↔
      ∃ items, List.Forall₂ field.Writes parts items ∧
        items.map (ListItem.series field) = made := by
  induction parts generalizing made with
  | nil =>
    constructor
    · intro h
      exact ⟨[], .nil, Option.some.inj h⟩
    · rintro ⟨items, written, rfl⟩
      cases written
      rfl
  | cons part parts ih =>
    rw [List.mapM_cons]
    constructor
    · intro h
      obtain ⟨first, hf, h⟩ := Option.bind_eq_some_iff.mp h
      obtain ⟨rest, hr, h⟩ := Option.bind_eq_some_iff.mp h
      obtain ⟨item, written, rfl⟩ := item?_eq_some_iff.mp hf
      obtain ⟨items, more, rfl⟩ := ih.mp hr
      exact ⟨item :: items, .cons written more, Option.some.inj h⟩
    · rintro ⟨items, written, rfl⟩
      cases written with
      | cons written more =>
        have hf := item?_eq_some_iff.mpr ⟨_, written, rfl⟩
        have hr := ih.mpr ⟨_, more, rfl⟩
        simp [hf, hr]

theorem mapM_values?_exists {parts : List (List Char)}
    (h : List.Forall₂ field.Writes parts items) :
    ∃ values, (items.map (ListItem.series field)).mapM FieldItem.values? = some values ∧
      ∀ x, x ∈ values.flatten ↔ ∃ item ∈ items, item.Covers field x := by
  induction h with
  | nil => exact ⟨[], rfl, by simp⟩
  | cons written more ih =>
    obtain ⟨first, hf, members⟩ := written.values
    obtain ⟨rest, hr, others⟩ := ih
    refine ⟨first :: rest, by simp [hf, hr], ?_⟩
    intro x
    rw [List.flatten_cons, List.mem_append, members, others]
    simp

theorem Lists.set_exists (h : field.Lists text items) :
    ∃ set, field.set? text = some set ∧
      ∀ x, x ∈ set.toList ↔ ∃ item ∈ items, item.Covers field x := by
  have written := lists_iff_forall₂.mp h
  obtain ⟨values, hv, members⟩ := mapM_values?_exists written
  refine ⟨FieldSet.ofList values.flatten, ?_, fun x => ?_⟩
  · simp [set?, mapM_item?_eq_some_iff.mpr ⟨items, written, rfl⟩, hv]
  · exact FieldSet.mem_toList_ofList.trans (members x)

theorem set?_lists (h : field.set? text = some set) : ∃ items, field.Lists text items := by
  obtain ⟨made, hm, -⟩ := Option.bind_eq_some_iff.mp h
  obtain ⟨items, written, -⟩ := mapM_item?_eq_some_iff.mp hm
  exact ⟨items, lists_iff_forall₂.mpr written⟩

theorem set?_eq_some_iff :
    field.set? text = some set ↔ ∃ items, field.Lists text items ∧
      ∀ x, x ∈ set.toList ↔ ∃ item ∈ items, item.Covers field x := by
  constructor
  · intro h
    obtain ⟨items, lists⟩ := set?_lists h
    obtain ⟨same, hs, members⟩ := lists.set_exists
    cases Option.some.inj (h.symm.trans hs)
    exact ⟨items, lists, members⟩
  · rintro ⟨items, lists, covered⟩
    obtain ⟨made, hm, members⟩ := lists.set_exists
    rw [hm, FieldSet.eq_of_mem_iff fun x => (members x).trans (covered x).symm]

theorem set?_same_word {other : List Char} (h : field.set? text = some set)
    (same : sameWord text other) : field.set? other = some set := by
  obtain ⟨items, lists, members⟩ := set?_eq_some_iff.mp h
  exact set?_eq_some_iff.mpr ⟨items, lists.same_word same, members⟩

theorem parse_eq_ok_iff {text : String} :
    field.parse text = .ok set ↔ field.set? text.toList = some set := by
  rw [parse]
  split
  next read => rw [read, Except.ok.injEq, Option.some.injEq]
  next refused => simp [refused]

theorem parse_exists_iff {text : String} :
    (∃ set, field.parse text = .ok set) ↔ ∃ items, field.Lists text.toList items := by
  constructor
  · rintro ⟨set, h⟩
    exact set?_lists (parse_eq_ok_iff.mp h)
  · rintro ⟨items, lists⟩
    obtain ⟨set, h, -⟩ := lists.set_exists
    exact ⟨set, parse_eq_ok_iff.mpr h⟩

theorem parse_eq_error_iff {text : String} {e : CronError} :
    field.parse text = .error e ↔
      e = .field field text ∧ ¬ ∃ items, field.Lists text.toList items := by
  rw [← parse_exists_iff, parse]
  split
  next => simp
  next => simp [eq_comm]

end CronField

/-- A field reads lists of items and refuses all else as a whole. What it allows is what the items
cover, in ascending order and within its bounds. -/
theorem CronField.reads_lists (field : CronField) (text : String) :
    ((∃ set, field.parse text = .ok set) ↔ ∃ items, field.Lists text.toList items) ∧
    (∀ set, field.parse text = .ok set →
      set.toList ≠ [] ∧ set.toList.Pairwise (· < ·) ∧
      (∀ x ∈ set.toList, field.least ≤ x ∧ x ≤ field.greatest) ∧
      ∀ items, field.Lists text.toList items →
        ∀ x, x ∈ set.toList ↔ ∃ item ∈ items, item.Covers field x) := by
  refine ⟨parse_exists_iff, ?_⟩
  intro set read
  have allows := parse_bounds read
  refine ⟨?_, set.pairwise_toList, fun x hx => ⟨allows.least_le x hx, allows.le_greatest x hx⟩, ?_⟩
  · obtain ⟨v, hv⟩ := allows.nonempty
    exact List.ne_nil_of_mem hv
  · intro items lists
    obtain ⟨same, hs, members⟩ := lists.set_exists
    cases Option.some.inj ((parse_eq_ok_iff.mp read).symm.trans hs)
    exact members

/-- From March on every fourth month, and July and August. A range has two ends only. -/
theorem CronField.reads_lists_of_months :
    (∃ set, CronField.month.parse "MAR/4,jul-08" = .ok set ∧
      ∀ x, x ∈ set.toList ↔
        ∃ item ∈ [⟨.value 3, some 4⟩, ⟨.range 7 8, none⟩], ListItem.Covers .month x item) ∧
    ¬ ∃ items, CronField.month.Lists "1-2-3".toList items := by
  have mar : CronField.month.Spells ['M', 'A', 'R'] 3 := value?_eq_some_iff.mp (by decide +kernel)
  have jul : CronField.month.Spells ['j', 'u', 'l'] 7 := value?_eq_some_iff.mp (by decide +kernel)
  have aug : CronField.month.Spells ['0', '8'] 8 := value?_eq_some_iff.mp (by decide +kernel)
  have four : IsNumeral ['4'] 4 := number?_eq_some_iff_isNumeral.mp (by decide +kernel)
  have spring := Writes.stepped (by decide) (.value mar) four (by decide) (by decide)
  have summer := Writes.plain (.range jul aug (by decide))
  have lists : CronField.month.Lists "MAR/4,jul-08".toList
      [⟨.value 3, some 4⟩, ⟨.range 7 8, none⟩] := .cons spring (.last summer)
  obtain ⟨set, parsed⟩ := (CronField.reads_lists .month "MAR/4,jul-08").1.mpr ⟨_, lists⟩
  refine ⟨⟨set, parsed, ?_⟩, ?_⟩
  · exact ((CronField.reads_lists .month "MAR/4,jul-08").2 set parsed).2.2.2 _ lists
  · have refused : CronField.month.parse "1-2-3" = .error (.field .month "1-2-3") := by
      decide +kernel
    rw [← (CronField.reads_lists .month "1-2-3").1, refused]
    simp
end CronTimes
