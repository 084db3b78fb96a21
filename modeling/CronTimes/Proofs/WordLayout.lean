import CronTimes.Blank

namespace CronTimes

/-- How words stand in a text: one after the other with blanks between them, and with blanks before
the first and after the last where there are any. -/
inductive Layout : List Char → List String → Prop
  | blank {gap : List Char} (blanks : ∀ c ∈ gap, isBlank c) : Layout gap []
  | word {gap rest : List Char} {word : String} {words : List String}
      (blanks : ∀ c ∈ gap, isBlank c) (nonempty : word ≠ "")
      (solid : ∀ c ∈ word.toList, isBlank c = false) (parted : ∀ c ∈ rest.head?, isBlank c)
      (more : Layout rest words) : Layout (gap ++ (word.toList ++ rest)) (word :: words)

section Blanks

variable {gap text : List Char} {c : Char}

theorem filter_splitOnP_blank (hc : isBlank c) :
    ((c :: text).splitOnP isBlank).filter (· ≠ []) =
      (text.splitOnP isBlank).filter (· ≠ []) := by
  rw [List.splitOnP_cons_eq_if_modifyHead, if_pos hc]
  simp

theorem filter_splitOnP_blanks (blanks : ∀ c ∈ gap, isBlank c) :
    ((gap ++ text).splitOnP isBlank).filter (· ≠ []) =
      (text.splitOnP isBlank).filter (· ≠ []) := by
  induction gap with
  | nil => rfl
  | cons c gap ih =>
    obtain ⟨hc, rest⟩ := List.forall_mem_cons.mp blanks
    rw [List.cons_append, filter_splitOnP_blank hc, ih rest]

end Blanks

namespace Layout

variable {text rest : List Char} {words : List String} {c : Char}

theorem solid_words (h : Layout text words) :
    ∀ word ∈ words, word ≠ "" ∧ ∀ c ∈ word.toList, isBlank c = false := by
  induction h with
  | blank => simp
  | word blanks nonempty solid parted more ih =>
    exact List.forall_mem_cons.mpr ⟨⟨nonempty, solid⟩, ih⟩

theorem cons_blank (h : Layout text words) (hc : isBlank c) : Layout (c :: text) words := by
  cases h with
  | blank blanks => exact .blank (List.forall_mem_cons.mpr ⟨hc, blanks⟩)
  | word blanks nonempty solid parted more =>
    rw [← List.cons_append]
    exact .word (List.forall_mem_cons.mpr ⟨hc, blanks⟩) nonempty solid parted more

theorem cons_word {word : String} (h : Layout rest words) (nonempty : word ≠ "")
    (solid : ∀ c ∈ word.toList, isBlank c = false) (parted : ∀ c ∈ rest.head?, isBlank c) :
    Layout (word.toList ++ rest) (word :: words) := by
  rw [← List.nil_append (word.toList ++ rest)]
  exact .word (by simp) nonempty solid parted h

/-- A letter in front of a text begins a word of its own or makes the first word longer. -/
theorem cons_solid (h : Layout text words) (hc : isBlank c = false) :
    ∃ words, Layout (c :: text) words := by
  have alone (parted : ∀ b ∈ text.head?, isBlank b) :
      Layout (c :: text) (String.singleton c :: words) := by
    have word : (String.singleton c).toList = [c] := String.toList_singleton c
    rw [← List.singleton_append, ← word]
    exact h.cons_word (by simp) (by simpa using hc) parted
  cases h with
  | blank blanks => exact ⟨_, alone fun b hb => blanks b (List.mem_of_mem_head? hb)⟩
  | @word gap rest word words blanks nonempty solid parted more =>
    cases gap with
    | cons b gap => exact ⟨_, alone (by simpa using blanks b)⟩
    | nil =>
      have longer : (String.singleton c ++ word).toList = c :: word.toList := by simp
      refine ⟨(String.singleton c ++ word) :: words, ?_⟩
      rw [List.nil_append, ← List.cons_append, ← longer]
      exact more.cons_word (by simp [nonempty]) (by simpa [hc] using solid) parted

theorem exists_words (text : List Char) : ∃ words, Layout text words := by
  induction text with
  | nil => exact ⟨[], .blank (by simp)⟩
  | cons c text ih =>
    obtain ⟨words, h⟩ := ih
    cases hc : isBlank c with
    | true => exact ⟨words, h.cons_blank hc⟩
    | false => exact h.cons_solid hc

theorem splitOnP_eq (h : Layout text words) :
    ((text.splitOnP isBlank).filter (· ≠ [])).map String.ofList = words := by
  induction h with
  | @blank gap blanks =>
    rw [← List.append_nil gap, filter_splitOnP_blanks blanks]
    rfl
  | @word gap rest word words blanks nonempty solid parted more ih =>
    have some_letter : word.toList ≠ [] := by simpa using nonempty
    rw [filter_splitOnP_blanks blanks]
    cases rest with
    | nil =>
      rw [List.append_nil, List.splitOnP_eq_singleton solid]
      simp [some_letter, ← ih]
    | cons c rest =>
      have hc : isBlank c := by simpa using parted
      rw [filter_splitOnP_blank hc] at ih
      rw [List.splitOnP_append_cons_of_forall_mem solid c hc]
      simp [some_letter, ← ih]

end Layout

/-- A text has one layout. -/
theorem layout_iff {text : String} {words : List String} :
    Layout text.toList words ↔ blankSeparated text = words := by
  refine ⟨Layout.splitOnP_eq, ?_⟩
  rintro rfl
  obtain ⟨words, h⟩ := Layout.exists_words text.toList
  rwa [show blankSeparated text = words from h.splitOnP_eq]

/-- Words with one space between them are laid out as they are. -/
theorem layout_spaced {words : List String}
    (solid : ∀ word ∈ words, word ≠ "" ∧ ∀ c ∈ word.toList, isBlank c = false) :
    Layout (" ".intercalate words).toList words := by
  induction words with
  | nil => exact .blank (by simp)
  | cons word words ih =>
    obtain ⟨⟨nonempty, letters⟩, others⟩ := List.forall_mem_cons.mp solid
    cases words with
    | nil =>
      rw [String.intercalate_singleton, ← List.append_nil word.toList]
      exact Layout.cons_word (.blank (by simp)) nonempty letters (by simp)
    | cons next words =>
      rw [String.intercalate_cons_cons, String.toList_append, String.toList_append,
        List.append_assoc]
      have space : isBlank ' ' := by decide
      exact ((ih others).cons_blank space).cons_word nonempty letters (by simpa using space)

end CronTimes
