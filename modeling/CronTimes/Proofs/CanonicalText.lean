import CronTimes.JsonForm
import CronTimes.Proofs.FirstFault
import CronTimes.Proofs.ScheduleBounds

namespace CronTimes

/-- ASCII letters and digits, and the marks that fields are written with. -/
def IsFieldChar (c : Char) : Prop :=
  c.isAlphanum ∨ c ∈ ['*', ',', '-', '/', '?', '#']

/-- Six fields with one space between them and none around them. -/
def IsCanonical (text : String) : Prop :=
  ∃ fields : List String, fields.length = 6 ∧
    (∀ field ∈ fields, field ≠ "" ∧ ∀ c ∈ field.toList, IsFieldChar c) ∧
    text = " ".intercalate fields

/-- The bytes of a text in UTF-8. -/
def utf8Bytes (text : String) : List UInt8 := text.toUTF8.data.toList

/-- The characters that need no escape in JSON. -/
def IsUnescaped (c : Char) : Prop :=
  c ≠ '"' ∧ c ≠ '\\' ∧ 0x20 ≤ c.toNat

instance : DecidablePred IsUnescaped := fun _ => inferInstanceAs (Decidable (_ ∧ _ ∧ _))

/-- What is asked of a JSON reader: unescaped characters between quotation marks are a text. -/
def ReadsTexts (read : String → Option JsonValue) : Prop :=
  ∀ text : String, (∀ c ∈ text.toList, IsUnescaped c) →
    read ("\"" ++ text ++ "\"") = some (.text text)

section Characters

variable {text : List Char} {c : Char}

theorem isAlphanum_bounds (h : c.isAlphanum) : 0x30 ≤ c.toNat ∧ c.toNat < 0x7B := by
  simp only [Char.isAlphanum, Char.isAlpha, Char.isUpper, Char.isLower, Char.isDigit,
    UInt32.le_iff_toNat_le, Char.toNat_val, ge_iff_le, Bool.or_eq_true, Bool.and_eq_true,
    decide_eq_true_eq, Char.reduceToNat] at h
  omega

theorem IsFieldChar.visible (h : IsFieldChar c) : IsUnescaped c ∧ c.toNat < 0x80 := by
  rcases h with letter | mark
  · have := isAlphanum_bounds letter
    refine ⟨⟨?_, ?_, by omega⟩, by omega⟩
    · rintro rfl
      exact absurd letter (by decide)
    · rintro rfl
      exact absurd letter (by decide)
  · simp only [List.mem_cons, List.not_mem_nil, or_false] at mark
    rcases mark with rfl | rfl | rfl | rfl | rfl | rfl
    all_goals exact ⟨⟨by decide, by decide, by decide⟩, by decide⟩

theorem CronField.Lists.isFieldChar {field : CronField} {items : List ListItem}
    (h : field.Lists text items) : ∀ c ∈ text, IsFieldChar c := by
  intro c hc
  rcases h.chars c hc with used | rfl | rfl | rfl | rfl
  · exact Or.inl used.isAlphanum
  all_goals exact Or.inr (by simp)

theorem CronField.Spells.isFieldChar {field : CronField} {v : Nat} (h : field.Spells text v) :
    ∀ c ∈ text, IsFieldChar c :=
  fun c hc => Or.inl (h.uses c hc).isAlphanum

theorem IsNumeral.isFieldChar {n : Nat} (h : IsNumeral text n) : ∀ c ∈ text, IsFieldChar c :=
  fun c hc => Or.inl (by simp [Char.isAlphanum, h.2.1 c hc])

theorem DayRule.TokenOfMonth.isFieldChar {rule : DayRule} (h : TokenOfMonth text rule) :
    ∀ c ∈ text, IsFieldChar c := by
  have l : IsFieldChar 'L' := Or.inl (by decide)
  have w : IsFieldChar 'W' := Or.inl (by decide)
  have hyphen : IsFieldChar '-' := Or.inr (by simp)
  cases h with
  | last => simpa using l
  | lastWeekday => simpa using ⟨l, w⟩
  | fromLast numeral => simpa using ⟨l, hyphen, numeral.isFieldChar⟩
  | weekdayNear numeral =>
    exact List.forall_mem_append.mpr ⟨numeral.isFieldChar, by simpa using w⟩

theorem DayRule.TokenOfWeek.isFieldChar {rule : DayRule} (h : TokenOfWeek text rule) :
    ∀ c ∈ text, IsFieldChar c := by
  have l : ∀ {l : Char}, l = 'L' ∨ l = 'l' → IsFieldChar l := by
    rintro l (rfl | rfl) <;> exact Or.inl (by decide)
  have hyphen : IsFieldChar '-' := Or.inr (by simp)
  have hash : IsFieldChar '#' := Or.inr (by simp)
  cases h with
  | saturday letter => simpa using l letter
  | lastAfter letter spelled => simpa using ⟨l letter, hyphen, spelled.isFieldChar⟩
  | lastBefore letter spelled =>
    exact List.forall_mem_append.mpr ⟨spelled.isFieldChar, by simpa using l letter⟩
  | nth spelled numeral =>
    have tail := List.forall_mem_cons.mpr ⟨hash, numeral.isFieldChar⟩
    exact List.forall_mem_append.mpr ⟨spelled.isFieldChar, tail⟩

theorem CronField.Belongs.isFieldChar {field : CronField} {text : String}
    (h : field.Belongs text) : ∀ c ∈ text.toList, IsFieldChar c := by
  rcases h with ⟨rule, token⟩ | ⟨items, lists⟩
  · cases field with
    | dayOfMonth => exact DayRule.TokenOfMonth.isFieldChar token
    | dayOfWeek => exact DayRule.TokenOfWeek.isFieldChar token
    | minute | hour | month | year => exact token.elim
  · exact lists.isFieldChar

end Characters

section Texts

variable {text : String} {words : List String} {c : Char}

theorem mem_spaced (h : c ∈ (" ".intercalate words).toList) :
    c = ' ' ∨ ∃ word ∈ words, c ∈ word.toList := by
  induction words with
  | nil => simp at h
  | cons word words ih =>
    cases words with
    | nil => exact Or.inr ⟨word, by simp, by rwa [String.intercalate_singleton] at h⟩
    | cons next words =>
      rw [String.intercalate_cons_cons, String.toList_append, String.toList_append,
        List.mem_append, List.mem_append] at h
      rcases h with (first | space) | later
      · exact Or.inr ⟨word, by simp, first⟩
      · exact Or.inl (by simpa using space)
      · refine (ih later).imp_right ?_
        rintro ⟨other, member, hc⟩
        exact ⟨other, List.mem_cons_of_mem _ member, hc⟩

theorem IsCanonical.visible (h : IsCanonical text) (hc : c ∈ text.toList) :
    IsUnescaped c ∧ c.toNat < 0x80 := by
  obtain ⟨fields, -, letters, rfl⟩ := h
  rcases mem_spaced hc with rfl | ⟨field, member, hc⟩
  · exact ⟨⟨by decide, by decide, by decide⟩, by decide⟩
  · exact ((letters field member).2 c hc).visible

theorem escaped_eq (h : IsUnescaped c) : escaped c = [c] := by
  obtain ⟨quote, backslash, high⟩ := h
  rw [escaped, if_neg quote, if_neg backslash, if_neg (by omega), if_neg (by omega),
    if_neg (by omega), if_neg (by omega), if_neg (by omega), if_neg (by omega)]

theorem quoted_eq (h : ∀ c ∈ text.toList, IsUnescaped c) : quoted text = "\"" ++ text ++ "\"" := by
  have plain : text.toList.flatMap escaped = text.toList := by
    rw [List.flatMap_congr fun c hc => escaped_eq (h c hc)]
    simp
  rw [quoted, plain, ← String.toList_inj]
  simp

end Texts

section Bytes

variable {first second : String} {xs ys : List Char} {c : Char}

theorem toNat_byte (ascii : c.toNat < 0x80) : c.val.toUInt8.toNat = c.toNat := by
  rw [UInt32.toNat_toUInt8, Char.toNat_val]
  omega

theorem utf8Bytes_eq (ascii : ∀ c ∈ first.toList, c.toNat < 0x80) :
    utf8Bytes first = first.toList.map fun c => c.val.toUInt8 := by
  have single : ∀ c ∈ first.toList, String.utf8EncodeChar c = [c.val.toUInt8] := by
    intro c hc
    refine String.utf8EncodeChar_eq_singleton (Char.utf8Size_eq_one_iff.mpr ?_)
    exact UInt32.le_iff_toNat_le.mpr (Nat.le_of_lt_succ (ascii c hc))
  have encoded : utf8Bytes first = first.toList.flatMap String.utf8EncodeChar := by
    rw [utf8Bytes, String.toUTF8, ← String.ofList_toList (s := first), String.toByteArray_ofList,
      List.utf8Encode]
    simp
  rw [encoded, List.flatMap_congr single, List.map_eq_flatMap]

theorem compare_bytes_eq_lt_iff (hx : ∀ c ∈ xs, c.toNat < 0x80) (hy : ∀ c ∈ ys, c.toNat < 0x80) :
    compare (xs.map fun c => c.val.toUInt8) (ys.map fun c => c.val.toUInt8) = .lt ↔ xs < ys := by
  induction xs generalizing ys with
  | nil =>
    cases ys with
    | nil => simp
    | cons y ys => exact iff_of_true rfl (List.nil_lt_cons y ys)
  | cons x xs ih =>
    cases ys with
    | nil => exact iff_of_false (by simp) (List.not_lt_nil _)
    | cons y ys =>
      obtain ⟨hx, hxs⟩ := List.forall_mem_cons.mp hx
      obtain ⟨hy, hys⟩ := List.forall_mem_cons.mp hy
      have before : x.val.toUInt8 < y.val.toUInt8 ↔ x < y := by
        rw [UInt8.lt_iff_toNat_lt, toNat_byte hx, toNat_byte hy]
        rfl
      have same : x.val.toUInt8 = y.val.toUInt8 ↔ x = y := by
        rw [← UInt8.toNat_inj, toNat_byte hx, toNat_byte hy, Char.toNat_inj]
      rw [List.map_cons, List.map_cons, List.compare_eq_compareLex, List.compareLex_cons_cons,
        Ordering.then_eq_lt, ← List.compare_eq_compareLex, ih hxs hys, List.cons_lt_cons_iff,
        Std.compare_eq_lt, before, Std.compare_eq_iff_eq, same]

theorem compare_eq_lt_iff_bytes (hf : ∀ c ∈ first.toList, c.toNat < 0x80)
    (hs : ∀ c ∈ second.toList, c.toNat < 0x80) :
    compare first second = .lt ↔ compare (utf8Bytes first) (utf8Bytes second) = .lt := by
  rw [utf8Bytes_eq hf, utf8Bytes_eq hs, compare_bytes_eq_lt_iff hf hs, compare_lt_iff_lt,
    String.lt_iff_toList_lt]

/-- Texts in ASCII are ordered as their bytes are. -/
theorem compare_eq_bytes (hf : ∀ c ∈ first.toList, c.toNat < 0x80)
    (hs : ∀ c ∈ second.toList, c.toNat < 0x80) :
    compare first second = compare (utf8Bytes first) (utf8Bytes second) := by
  cases h : compare first second with
  | lt => exact ((compare_eq_lt_iff_bytes hf hs).mp h).symm
  | eq =>
    cases Std.LawfulEqCmp.eq_of_compare h
    exact Std.compare_self.symm
  | gt =>
    have opposite := (compare_eq_lt_iff_bytes hs hf).mp (Std.OrientedCmp.lt_of_gt h)
    exact (Std.OrientedCmp.gt_of_lt opposite).symm

end Bytes

section Order

theorem FieldSet.compare_self (set : FieldSet) : compare set set = .eq := by
  change compare set.values set.values = .eq
  exact Std.compare_self

theorem DayRule.compare_self (rule : DayRule) : compare rule rule = .eq := by
  cases rule with
  | daysOfMonth days => exact congrArg (Ordering.then · .eq) (FieldSet.compare_self days)
  | fromLast offset => exact congrArg (Ordering.then · .eq) Std.compare_self
  | weekdayNear day => exact congrArg (Ordering.then · .eq) Std.compare_self
  | lastWeekday => rfl
  | daysOfWeek weekdays => exact congrArg (Ordering.then · .eq) (FieldSet.compare_self weekdays)
  | lastOfWeek weekday => exact congrArg (Ordering.then · .eq) Std.compare_self
  | nthOfWeek weekday nth =>
    change (compare weekday weekday).then ((compare nth nth).then .eq) = .eq
    simp

theorem Schedule.compare_eq (s t : Schedule) :
    compare s t = (compare s.expression t.expression).then ((compare s.minute t.minute).then
      ((compare s.hour t.hour).then ((compare s.days t.days).then ((compare s.month t.month).then
        ((compare s.year t.year).then .eq))))) :=
  rfl

theorem Schedule.compare_self (s : Schedule) : compare s s = .eq := by
  simp [compare_eq, FieldSet.compare_self, DayRule.compare_self]

end Order

namespace Schedule

variable {text other : String} {fields : List String} {s t : Schedule}

theorem Accepts.length_eq (h : Accepts fields) : fields.length = 6 := by
  cases h
  rfl

theorem Accepts.isFieldChar (h : Accepts fields) :
    ∀ field ∈ fields, ∀ c ∈ field.toList, IsFieldChar c := by
  cases h with
  | @fields minute hour dayOfMonth month dayOfWeek year choice sound =>
    have letters : ∀ f ∈ triedFields minute hour dayOfMonth month dayOfWeek year,
        ∀ c ∈ f.2.toList, IsFieldChar c :=
      fun f hf => (sound f hf).isFieldChar
    have mark : ∀ c ∈ "?".toList, IsFieldChar c := by simp [IsFieldChar]
    rcases usedDays_cases choice with ⟨-, rfl, day⟩ | ⟨rfl, -, day⟩
    · simp only [triedFields, day, List.forall_mem_cons] at letters ⊢
      obtain ⟨hmi, hh, hd, hmo, hy, -⟩ := letters
      exact ⟨hmi, hh, hd, hmo, mark, hy, by simp⟩
    · simp only [triedFields, day, List.forall_mem_cons] at letters ⊢
      obtain ⟨hmi, hh, hd, hmo, hy, -⟩ := letters
      exact ⟨hmi, hh, mark, hmo, hd, hy, by simp⟩

theorem expression_eq (h : parse text = .ok s) :
    s.expression = " ".intercalate (blankSeparated text) := by
  unfold parse at h
  split at h
  next minute hour dayOfMonth month dayOfWeek year same =>
    rw [same]
    split at h
    next => simp at h
    next =>
      obtain ⟨minute, -, h⟩ := bind_eq_ok h
      obtain ⟨hour, -, h⟩ := bind_eq_ok h
      obtain ⟨days, -, h⟩ := bind_eq_ok h
      obtain ⟨month, -, h⟩ := bind_eq_ok h
      obtain ⟨year, -, h⟩ := bind_eq_ok h
      cases Except.ok.inj h
      rfl
  next => simp at h

/-- Blanks leave no trace in a schedule. -/
theorem parse_of_fields (h : parse text = .ok s)
    (same : blankSeparated text = blankSeparated other) : parse other = .ok s := by
  unfold parse at h ⊢
  rw [← same]
  split at h
  next =>
    split at h
    next => simp at h
    next choice => simpa [choice] using h
  next => simp at h

theorem canonical (h : parse text = .ok s) : IsCanonical s.expression := by
  have accepts := parse_exists_iff.mp ⟨s, h⟩
  refine ⟨blankSeparated text, accepts.length_eq, ?_, expression_eq h⟩
  intro field member
  exact ⟨((layout_iff.mpr rfl).solid_words field member).1, accepts.isFieldChar field member⟩

theorem parse_expression (h : parse text = .ok s) : parse s.expression = .ok s := by
  refine parse_of_fields h ?_
  rw [expression_eq h]
  exact (layout_iff.mp (layout_spaced (layout_iff.mpr rfl).solid_words)).symm

theorem eq_iff_expression (hs : parse text = .ok s) (ht : parse other = .ok t) :
    s = t ↔ s.expression = t.expression := by
  constructor
  · rintro rfl
    rfl
  · intro same
    have read := parse_expression hs
    rw [same, parse_expression ht] at read
    exact (Except.ok.inj read).symm

theorem compare_eq_expression (hs : parse text = .ok s) (ht : parse other = .ok t) :
    compare s t = compare s.expression t.expression := by
  by_cases same : s.expression = t.expression
  · cases (eq_iff_expression hs ht).mpr same
    rw [compare_self, Std.compare_self]
  · have apart : compare s.expression t.expression ≠ .eq :=
      fun h => same (Std.LawfulEqCmp.eq_of_compare h)
    rw [compare_eq]
    revert apart
    cases compare s.expression t.expression <;> simp

end Schedule

/-- The text of a schedule is written in plain characters, with six fields and single spaces. It is
read back as the same schedule, also by way of JSON, and decides what the schedule is equal to and
how it is ordered. -/
theorem Schedule.text_is_canonical {text : String} {s : Schedule}
    (parsed : Schedule.parse text = .ok s) :
    IsCanonical (toString s) ∧ toString s = s.expression ∧
    Schedule.parse (toString s) = .ok s ∧
    s.json = "\"" ++ toString s ++ "\"" ∧
    (∀ read, ReadsTexts read → ∃ value, read s.json = some value ∧ Schedule.ofJson value = .ok s) ∧
    ∀ other t, Schedule.parse other = .ok t →
      (∀ fields, Layout text.toList fields → Layout other.toList fields → s = t) ∧
      (s = t ↔ toString s = toString t) ∧
      compare s t = compare (utf8Bytes (toString s)) (utf8Bytes (toString t)) := by
  have canonical := Schedule.canonical parsed
  have again := parse_expression parsed
  have json : s.json = "\"" ++ toString s ++ "\"" :=
    quoted_eq fun c hc => (canonical.visible hc).1
  refine ⟨canonical, rfl, again, json, ?_, ?_⟩
  · intro read reader
    refine ⟨.text s.expression, ?_, by rw [ofJson, again]⟩
    rw [json]
    exact reader s.expression fun c hc => (canonical.visible hc).1
  · intro other t parsed'
    refine ⟨?_, eq_iff_expression parsed parsed', ?_⟩
    · intro fields hf hf'
      have same := parse_of_fields parsed ((layout_iff.mp hf).trans (layout_iff.mp hf').symm)
      exact Except.ok.inj (same.symm.trans parsed')
    · rw [compare_eq_expression parsed parsed']
      exact compare_eq_bytes (fun c hc => (canonical.visible hc).2)
        fun c hc => ((Schedule.canonical parsed').visible hc).2

/-- Reads texts without escapes and nothing else. -/
def readUnescaped (json : String) : Option JsonValue :=
  match json.toList with
  | '"' :: rest => do
    let text ← dropMark? '"' rest
    if ∀ c ∈ text, IsUnescaped c then some (.text (String.ofList text)) else none
  | _ => none

theorem readUnescaped_eq {json : String} {rest : List Char} (h : json.toList = '"' :: rest) :
    readUnescaped json = (dropMark? '"' rest).bind fun text =>
      if ∀ c ∈ text, IsUnescaped c then some (.text (String.ofList text)) else none := by
  simp only [readUnescaped, h]
  rfl

theorem readUnescaped_texts : ReadsTexts readUnescaped := by
  intro text plain
  have marks : ("\"" ++ text ++ "\"").toList = '"' :: (text.toList ++ ['"']) := by simp
  have closed : dropMark? '"' (text.toList ++ ['"']) = some text.toList :=
    dropMark?_eq_some_iff.mpr rfl
  rw [readUnescaped_eq marks, closed, Option.bind_some, if_pos plain, String.ofList_toList]

def workdays (expression : String) : Schedule where
  expression := expression
  minute := FieldSet.ofList [0]
  hour := FieldSet.ofList [9]
  days := .daysOfWeek (FieldSet.ofList [2, 3, 4, 5, 6])
  month := FieldSet.ofList (List.range' 1 12)
  year := FieldSet.ofList [2030]

theorem parse_workdays :
    Schedule.parse "0\t9 ?\u2003* mon-FRI 2030\n" = .ok (workdays "0 9 ? * mon-FRI 2030") := by
  decide +kernel

/-- Two spellings of the same days are two schedules, and capitals come first. -/
theorem Schedule.text_is_canonical_workdays :
    (∃ value, readUnescaped (workdays "0 9 ? * mon-FRI 2030").json = some value ∧
      Schedule.ofJson value = .ok (workdays "0 9 ? * mon-FRI 2030")) ∧
    workdays "0 9 ? * mon-FRI 2030" ≠ workdays "0 9 ? * MON-FRI 2030" ∧
    compare (workdays "0 9 ? * mon-FRI 2030") (workdays "0 9 ? * MON-FRI 2030") = .gt := by
  have capitals :
      Schedule.parse "0 9 ? * MON-FRI 2030" = .ok (workdays "0 9 ? * MON-FRI 2030") := by
    decide +kernel
  obtain ⟨-, -, -, -, json, others⟩ := Schedule.text_is_canonical parse_workdays
  obtain ⟨-, equal, order⟩ := others _ _ capitals
  refine ⟨json readUnescaped readUnescaped_texts, ?_, ?_⟩
  · rw [ne_eq, equal]
    decide
  · rw [order]
    decide +kernel

end CronTimes
