import CronTimes.CronField
import Mathlib

namespace CronTimes

/-- ASCII digits, one at least, that stand for a number. Leading zeros count for nothing. -/
def IsNumeral (text : List Char) (n : Nat) : Prop :=
  text ≠ [] ∧ (∀ c ∈ text, c.isDigit) ∧ Nat.ofDigitChars 10 text 0 = n

/-- How a field spells a single value: as a number within its bounds or, where values have names,
as the name in any ASCII case. -/
inductive CronField.Spells (field : CronField) : List Char → Nat → Prop
  | number {text : List Char} {v : Nat} (numeral : IsNumeral text v) (low : field.least ≤ v)
      (high : v ≤ field.greatest) : Spells field text v
  | name {text : List Char} {name : String} {i : Nat} (named : field.names[i]? = some name)
      (same : sameWord name.toList text) : Spells field text (i + 1)

/-- The characters that values of a field are spelled with. -/
def CronField.Uses (field : CronField) (c : Char) : Prop :=
  c.isDigit ∨ ∃ name ∈ field.names, c.toLower ∈ name.toList.map Char.toLower

section Letters

variable {first second third text : List Char} {c mark : Char}

theorem sameWord_iff : sameWord first second ↔ first.map Char.toLower = second.map Char.toLower :=
  beq_iff_eq

theorem sameWord_symm (h : sameWord first second) : sameWord second first :=
  sameWord_iff.mpr (sameWord_iff.mp h).symm

theorem sameWord_trans (h : sameWord first second) (h' : sameWord second third) :
    sameWord first third :=
  sameWord_iff.mpr ((sameWord_iff.mp h).trans (sameWord_iff.mp h'))

theorem sameWord_capitals : sameWord text (text.map Char.toUpper) := by
  simp [sameWord_iff]

theorem sameWord_ne_nil (h : sameWord first second) (nonempty : first ≠ []) : second ≠ [] := by
  rintro rfl
  exact nonempty (List.map_eq_nil_iff.mp (sameWord_iff.mp h))

theorem not_isUpper (h : c.isAlpha = false) : ¬ c.isUpper := by
  intro hu
  simp [Char.isAlpha, hu] at h

/-- Only letters have a case. -/
theorem toLower_eq_iff (h : mark.isAlpha = false) : c.toLower = mark ↔ c = mark := by
  constructor
  · rintro rfl
    rw [Char.isAlpha_toLower_eq_isAlpha] at h
    exact (Char.toLower_eq_of_not_isUpper (not_isUpper h)).symm
  · rintro rfl
    exact Char.toLower_eq_of_not_isUpper (not_isUpper h)

theorem isAlpha_of_isDigit (h : c.isDigit) : c.isAlpha = false := by
  rw [Char.isDigit_iff_toNat] at h
  obtain ⟨low, high⟩ := h
  have hlow : 48 ≤ c.toNat := low
  have hhigh : c.toNat ≤ 57 := high
  simp only [Char.isAlpha, Char.isUpper, Char.isLower, UInt32.le_iff_toNat_le, Char.toNat_val,
    ge_iff_le, Bool.or_eq_false_iff, Bool.and_eq_false_iff, decide_eq_false_iff_not,
    Char.reduceToNat]
  omega

/-- A word keeps its letters in whatever case. -/
theorem sameWord_isAlpha (h : sameWord first second) (letters : ∀ c ∈ first, c.isAlpha) :
    ∀ c ∈ second, c.isAlpha := by
  intro c hc
  have lower : c.toLower ∈ first.map Char.toLower :=
    sameWord_iff.mp h ▸ List.mem_map_of_mem hc
  obtain ⟨d, hd, same⟩ := List.mem_map.mp lower
  rw [← Char.isAlpha_toLower_eq_isAlpha, ← same, Char.isAlpha_toLower_eq_isAlpha]
  exact letters d hd

/-- A text without letters is the same word as no other text. -/
theorem sameWord_eq (h : sameWord first second) (plain : ∀ c ∈ first, c.isAlpha = false) :
    first = second := by
  rw [sameWord_iff] at h
  induction first generalizing second with
  | nil => exact (List.map_eq_nil_iff.mp h.symm).symm
  | cons c first ih =>
    obtain ⟨d, rest, rfl, hd, hrest⟩ := List.map_eq_cons_iff.mp h.symm
    have hc := plain c (by simp)
    rw [(toLower_eq_iff hc).mpr rfl, toLower_eq_iff hc] at hd
    rw [hd, ih hrest.symm fun e he => plain e (List.mem_cons_of_mem c he)]

theorem sameWord_append {other : List Char} (h : sameWord (first ++ second) other) :
    ∃ before after, other = before ++ after ∧ sameWord first before ∧ sameWord second after := by
  rw [sameWord_iff, List.map_append] at h
  obtain ⟨before, after, rfl, hb, ha⟩ := List.map_eq_append_iff.mp h.symm
  exact ⟨before, after, rfl, sameWord_iff.mpr hb.symm, sameWord_iff.mpr ha.symm⟩

theorem sameWord_cons {other : List Char} (h : sameWord (c :: text) other) :
    ∃ d rest, other = d :: rest ∧ d.toLower = c.toLower ∧ sameWord text rest := by
  rw [sameWord_iff, List.map_cons] at h
  obtain ⟨d, rest, rfl, hd, hrest⟩ := List.map_eq_cons_iff.mp h.symm
  exact ⟨d, rest, rfl, hd, sameWord_iff.mpr hrest.symm⟩

/-- Texts that are cut at a mark in one case are cut there in the other. -/
theorem sameWord_cut {other : List Char} (h : sameWord (first ++ mark :: second) other)
    (plain : mark.isAlpha = false) :
    ∃ before after, other = before ++ mark :: after ∧ sameWord first before ∧
      sameWord second after := by
  obtain ⟨before, tail, rfl, hb, ht⟩ := sameWord_append h
  obtain ⟨d, after, rfl, hd, ha⟩ := sameWord_cons ht
  rw [(toLower_eq_iff plain).mpr rfl, toLower_eq_iff plain] at hd
  exact ⟨before, after, by rw [hd], hb, ha⟩

end Letters

section Numerals

variable {text other : List Char} {n least greatest : Nat}

theorem number?_eq_some_iff_isNumeral : number? text = some n ↔ IsNumeral text n :=
  number?_eq_some_iff

theorem boundedNumber?_iff_isNumeral :
    boundedNumber? least greatest text = some n ↔ IsNumeral text n ∧ least ≤ n ∧ n ≤ greatest := by
  rw [boundedNumber?_eq_some_iff, number?_eq_some_iff_isNumeral]

theorem IsNumeral.same_word (h : IsNumeral text n) (same : sameWord text other) :
    IsNumeral other n :=
  sameWord_eq same (fun c hc => isAlpha_of_isDigit (h.2.1 c hc)) ▸ h

end Numerals

namespace CronField

variable {field : CronField} {text other : List Char} {v i : Nat}

theorem names_isAlpha (field : CronField) :
    ∀ name ∈ field.names, name.toList ≠ [] ∧ ∀ c ∈ name.toList, c.isAlpha := by
  cases field <;> simp [names, monthNames, weekdayNames]

theorem names_distinct (field : CronField) :
    field.names.Pairwise fun first second => ¬ sameWord first.toList second.toList := by
  cases field <;> decide +kernel

theorem wordIndex?_eq_some_iff :
    wordIndex? field.names text = some i ↔
      ∃ name, field.names[i]? = some name ∧ sameWord name.toList text := by
  rw [wordIndex?]
  split
  next empty =>
    refine iff_of_false (by simp) ?_
    rintro ⟨name, named, same⟩
    have nonempty := (field.names_isAlpha name (List.mem_of_getElem? named)).1
    exact sameWord_ne_nil same nonempty empty
  next =>
    rw [List.findIdx?_eq_some_iff_getElem]
    constructor
    · rintro ⟨hi, same, -⟩
      exact ⟨field.names[i], List.getElem?_eq_getElem hi, same⟩
    · rintro ⟨name, named, same⟩
      obtain ⟨hi, rfl⟩ := List.getElem?_eq_some_iff.mp named
      refine ⟨hi, same, ?_⟩
      intro j hj earlier
      have distinct := List.pairwise_iff_getElem.mp field.names_distinct j i (hj.trans hi) hi hj
      exact distinct (sameWord_trans earlier (sameWord_symm same))

theorem Uses.isAlphanum {c : Char} (h : field.Uses c) : c.isAlphanum := by
  rw [Char.isAlphanum, Bool.or_eq_true]
  rcases h with digit | ⟨name, named, letter⟩
  · exact Or.inr digit
  · obtain ⟨d, hd, same⟩ := List.mem_map.mp letter
    rw [← Char.isAlpha_toLower_eq_isAlpha, ← same, Char.isAlpha_toLower_eq_isAlpha]
    exact Or.inl ((field.names_isAlpha name named).2 d hd)

theorem Spells.uses (h : field.Spells text v) : ∀ c ∈ text, field.Uses c := by
  intro c hc
  cases h with
  | number numeral => exact Or.inl (numeral.2.1 c hc)
  | @name name _ named same =>
    refine Or.inr ⟨name, List.mem_of_getElem? named, ?_⟩
    rw [sameWord_iff.mp same]
    exact List.mem_map_of_mem hc

theorem Spells.not_mem {mark : Char} (h : field.Spells text v) (plain : mark.isAlphanum = false) :
    mark ∉ text := by
  intro hm
  simp [(h.uses mark hm).isAlphanum] at plain

theorem Spells.ne_nil (h : field.Spells text v) : text ≠ [] := by
  cases h with
  | number numeral => exact numeral.1
  | name named same =>
    exact sameWord_ne_nil same (field.names_isAlpha _ (List.mem_of_getElem? named)).1

/-- A name is not read as a number. -/
theorem not_isNumeral_of_name {name : String} {n : Nat} (named : name ∈ field.names)
    (same : sameWord name.toList text) : ¬ IsNumeral text n := by
  intro numeral
  obtain ⟨c, hc⟩ := List.exists_mem_of_ne_nil text numeral.1
  have letter := sameWord_isAlpha same (field.names_isAlpha name named).2 c hc
  simp [isAlpha_of_isDigit (numeral.2.1 c hc)] at letter

theorem value?_eq_some_iff : field.value? text = some v ↔ field.Spells text v := by
  rw [value?]
  constructor
  · intro h
    split at h
    next number =>
      cases Option.some.inj h
      obtain ⟨numeral, low, high⟩ := boundedNumber?_iff_isNumeral.mp number
      exact .number numeral low high
    next =>
      obtain ⟨i, hi, rfl⟩ := Option.map_eq_some_iff.mp h
      obtain ⟨name, named, same⟩ := wordIndex?_eq_some_iff.mp hi
      exact .name named same
  · intro h
    cases h with
    | number numeral low high =>
      rw [boundedNumber?_iff_isNumeral.mpr ⟨numeral, low, high⟩]
    | name named same =>
      have none : boundedNumber? field.least field.greatest text = none := by
        rw [Option.eq_none_iff_forall_ne_some]
        intro n number
        exact not_isNumeral_of_name (List.mem_of_getElem? named) same
          (boundedNumber?_iff_isNumeral.mp number).1
      rw [none, wordIndex?_eq_some_iff.mpr ⟨_, named, same⟩, Option.map_some]

theorem Spells.same_word (h : field.Spells text v) (same : sameWord text other) :
    field.Spells other v := by
  cases h with
  | number numeral low high => exact .number (numeral.same_word same) low high
  | name named spelled => exact .name named (sameWord_trans spelled same)

end CronField

end CronTimes
