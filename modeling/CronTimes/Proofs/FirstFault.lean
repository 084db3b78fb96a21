import CronTimes.Schedule
import CronTimes.Proofs.DayTokens
import CronTimes.Proofs.WordLayout

namespace CronTimes

/-- What a day field may say other than a list. The other fields are lists only. -/
def CronField.Token : CronField → List Char → DayRule → Prop
  | .dayOfMonth => DayRule.TokenOfMonth
  | .dayOfWeek => DayRule.TokenOfWeek
  | _ => fun _ _ => False

/-- What the grammar of a field has room for. -/
def CronField.Belongs (field : CronField) (text : String) : Prop :=
  (∃ rule, field.Token text.toList rule) ∨ ∃ items, field.Lists text.toList items

/-- The day field that is not given up. -/
def usedDays (dayOfMonth dayOfWeek : String) : CronField × String :=
  if dayOfMonth = "?" then (.dayOfWeek, dayOfWeek) else (.dayOfMonth, dayOfMonth)

/-- The fields of an expression in the order in which they are tried. -/
def triedFields (minute hour dayOfMonth month dayOfWeek year : String) :
    List (CronField × String) :=
  [(.minute, minute), (.hour, hour), usedDays dayOfMonth dayOfWeek, (.month, month), (.year, year)]

/-- The first field that says what its grammar has no room for, with all that it says. -/
inductive FirstFault : List (CronField × String) → CronError → Prop
  | here {field : CronField} {text : String} {rest : List (CronField × String)}
      (fault : ¬ field.Belongs text) : FirstFault ((field, text) :: rest) (.field field text)
  | later {field : CronField} {text : String} {rest : List (CronField × String)} {e : CronError}
      (sound : field.Belongs text) (fault : FirstFault rest e) :
      FirstFault ((field, text) :: rest) e

/-- Why a text with the given fields is no schedule. -/
inductive Schedule.Refuses (text : String) : List String → CronError → Prop
  | fieldCount {fields : List String} (count : fields.length ≠ 6) :
      Refuses text fields (.fieldCount text)
  | dayChoice {minute hour dayOfMonth month dayOfWeek year : String}
      (choice : dayOfMonth = "?" ↔ dayOfWeek = "?") :
      Refuses text [minute, hour, dayOfMonth, month, dayOfWeek, year] (.dayChoice text)
  | field {minute hour dayOfMonth month dayOfWeek year : String} {e : CronError}
      (choice : ¬ (dayOfMonth = "?" ↔ dayOfWeek = "?"))
      (fault : FirstFault (triedFields minute hour dayOfMonth month dayOfWeek year) e) :
      Refuses text [minute, hour, dayOfMonth, month, dayOfWeek, year] e

/-- The fields of which a schedule is made. -/
inductive Schedule.Accepts : List String → Prop
  | fields {minute hour dayOfMonth month dayOfWeek year : String}
      (choice : ¬ (dayOfMonth = "?" ↔ dayOfWeek = "?"))
      (sound : ∀ tried ∈ triedFields minute hour dayOfMonth month dayOfWeek year,
        tried.1.Belongs tried.2) :
      Accepts [minute, hour, dayOfMonth, month, dayOfWeek, year]

section Faults

variable {field : CronField} {text : String} {tried : List (CronField × String)} {e : CronError}

theorem firstFault_iff_of_fault (fault : ¬ field.Belongs text) :
    FirstFault ((field, text) :: tried) e ↔ e = .field field text := by
  constructor
  · intro h
    cases h with
    | here => rfl
    | later sound => exact absurd sound fault
  · rintro rfl
    exact .here fault

theorem firstFault_iff_of_sound (sound : field.Belongs text) :
    FirstFault ((field, text) :: tried) e ↔ FirstFault tried e := by
  constructor
  · intro h
    cases h with
    | here fault => exact absurd sound fault
    | later _ fault => exact fault
  · exact .later sound

theorem firstFault_exists_iff : (∃ e, FirstFault tried e) ↔ ¬ ∀ f ∈ tried, f.1.Belongs f.2 := by
  induction tried with
  | nil =>
    refine iff_of_false ?_ (by simp)
    rintro ⟨e, fault⟩
    cases fault
  | cons f tried ih =>
    obtain ⟨field, text⟩ := f
    rw [List.forall_mem_cons]
    by_cases sound : field.Belongs text
    · rw [and_iff_right sound, exists_congr fun _ => firstFault_iff_of_sound sound, ih]
    · exact iff_of_true ⟨_, .here sound⟩ fun all => sound all.1

end Faults

section Readings

variable {α β : Type} {field : CronField} {text : String} {f : CronField × String}
  {tried : List (CronField × String)}

/-- A reading of one field refuses what the field has no room for, and nothing else. -/
def Judges (reading : Except CronError α) (f : CronField × String) : Prop :=
  ∀ e, reading = .error e ↔ e = .field f.1 f.2 ∧ ¬ f.1.Belongs f.2

/-- A reading of several fields fails at the first one at fault, and nowhere else. -/
def FailsFirst (reading : Except CronError α) (tried : List (CronField × String)) : Prop :=
  ∀ e, reading = .error e ↔ FirstFault tried e

theorem FailsFirst.ok (a : α) : FailsFirst (.ok a) [] := by
  intro e
  refine iff_of_false (by simp) ?_
  rintro ⟨⟩

theorem FailsFirst.bind {first : Except CronError α} {next : α → Except CronError β}
    (one : Judges first f) (more : ∀ a, FailsFirst (next a) tried) :
    FailsFirst (first >>= next) (f :: tried) := by
  obtain ⟨field, text⟩ := f
  intro e
  cases hf : first with
  | error cause =>
    obtain ⟨rfl, fault⟩ := (one cause).mp hf
    rw [firstFault_iff_of_fault fault]
    constructor
    · intro h
      exact (Except.error.inj h).symm
    · rintro rfl
      rfl
  | ok a =>
    have sound : field.Belongs text := by
      by_contra fault
      simp [(one _).mpr ⟨rfl, fault⟩] at hf
    exact (more a e).trans (firstFault_iff_of_sound sound).symm

theorem CronField.parse_judges (plain : ∀ chars rule, ¬ field.Token chars rule) :
    Judges (field.parse text) (field, text) := by
  intro e
  rw [parse_eq_error_iff, Belongs, or_iff_right]
  rintro ⟨rule, token⟩
  exact plain _ _ token

theorem DayRule.Reads.judges {listed : FieldSet → DayRule} {reading : Except CronError DayRule}
    (h : Reads field field.Token listed text reading) : Judges reading (field, text) := by
  intro e
  rw [h.error_iff, CronField.Belongs, not_or, ← CronField.parse_exists_iff, not_exists, not_exists]

theorem usedDays_cases {dayOfMonth dayOfWeek : String}
    (choice : ¬ (dayOfMonth = "?" ↔ dayOfWeek = "?")) :
    dayOfMonth ≠ "?" ∧ dayOfWeek = "?" ∧
        usedDays dayOfMonth dayOfWeek = (.dayOfMonth, dayOfMonth) ∨
      dayOfMonth = "?" ∧ dayOfWeek ≠ "?" ∧
        usedDays dayOfMonth dayOfWeek = (.dayOfWeek, dayOfWeek) := by
  rw [usedDays]
  split
  next unused => exact Or.inr ⟨unused, fun same => choice (iff_of_true unused same), rfl⟩
  next used => exact Or.inl ⟨used, by_contra fun other => choice (iff_of_false used other), rfl⟩

theorem DayRule.parse_judges {dayOfMonth dayOfWeek : String}
    (choice : ¬ (dayOfMonth = "?" ↔ dayOfWeek = "?")) :
    Judges (DayRule.parse dayOfMonth dayOfWeek) (usedDays dayOfMonth dayOfWeek) := by
  rw [DayRule.parse]
  rcases usedDays_cases choice with ⟨used, unused, day⟩ | ⟨unused, used, day⟩
  · rw [if_pos ⟨used, unused⟩, day]
    exact (parseOfMonth_reads dayOfMonth).judges
  · rw [if_neg (fun h => h.1 unused), if_pos ⟨unused, used⟩, day]
    exact (parseOfWeek_reads dayOfWeek).judges

end Readings

namespace Schedule

variable {text minute hour dayOfMonth month dayOfWeek year : String} {fields : List String}
  {e : CronError}

theorem refuses_iff_dayChoice (choice : dayOfMonth = "?" ↔ dayOfWeek = "?") :
    Refuses text [minute, hour, dayOfMonth, month, dayOfWeek, year] e ↔ e = .dayChoice text := by
  constructor
  · intro h
    cases h with
    | fieldCount count => exact absurd rfl count
    | dayChoice => rfl
    | field other => exact absurd choice other
  · rintro rfl
    exact .dayChoice choice

theorem refuses_iff_firstFault (choice : ¬ (dayOfMonth = "?" ↔ dayOfWeek = "?")) :
    Refuses text [minute, hour, dayOfMonth, month, dayOfWeek, year] e ↔
      FirstFault (triedFields minute hour dayOfMonth month dayOfWeek year) e := by
  constructor
  · intro h
    cases h with
    | fieldCount count => exact absurd rfl count
    | dayChoice other => exact absurd other choice
    | field _ fault => exact fault
  · exact .field choice

theorem refuses_iff_fieldCount (count : fields.length ≠ 6) :
    Refuses text fields e ↔ e = .fieldCount text := by
  constructor
  · intro h
    cases h with
    | fieldCount => rfl
    | dayChoice => exact absurd rfl count
    | field => exact absurd rfl count
  · rintro rfl
    exact .fieldCount count

theorem six_fields (count : fields.length = 6) :
    ∃ minute hour dayOfMonth month dayOfWeek year,
      fields = [minute, hour, dayOfMonth, month, dayOfWeek, year] :=
  match fields, count with
  | [minute, hour, dayOfMonth, month, dayOfWeek, year], _ =>
    ⟨minute, hour, dayOfMonth, month, dayOfWeek, year, rfl⟩

theorem parse_eq_error_iff : parse text = .error e ↔ Refuses text (blankSeparated text) e := by
  rw [parse]
  split
  next minute hour dayOfMonth month dayOfWeek year same =>
    rw [same]
    split
    next choice => rw [refuses_iff_dayChoice choice, Except.error.injEq, eq_comm]
    next choice =>
      rw [refuses_iff_firstFault choice]
      -- The reading is taken apart one field at a time, in the order of `triedFields`.
      refine FailsFirst.bind (CronField.parse_judges fun _ _ => id) (fun _ => ?_) e
      refine FailsFirst.bind (CronField.parse_judges fun _ _ => id) fun _ => ?_
      refine FailsFirst.bind (DayRule.parse_judges choice) fun _ => ?_
      refine FailsFirst.bind (CronField.parse_judges fun _ _ => id) fun _ => ?_
      refine FailsFirst.bind (CronField.parse_judges fun _ _ => id) fun _ => ?_
      exact FailsFirst.ok _
  next other =>
    have count : (blankSeparated text).length ≠ 6 := by
      intro six
      obtain ⟨a, b, c, d, e, f, same⟩ := six_fields six
      exact other a b c d e f same
    rw [refuses_iff_fieldCount count, Except.error.injEq, eq_comm]

theorem accepts_iff : Accepts fields ↔ ¬ ∃ e, Refuses text fields e := by
  constructor
  · rintro ⟨choice, sound⟩ ⟨e, refuses⟩
    exact firstFault_exists_iff.mp ⟨e, (refuses_iff_firstFault choice).mp refuses⟩ sound
  · intro none
    have count : fields.length = 6 := by
      by_contra count
      exact none ⟨_, .fieldCount count⟩
    obtain ⟨minute, hour, dayOfMonth, month, dayOfWeek, year, rfl⟩ := six_fields count
    have choice : ¬ (dayOfMonth = "?" ↔ dayOfWeek = "?") :=
      fun choice => none ⟨_, .dayChoice choice⟩
    refine .fields choice ?_
    by_contra fault
    obtain ⟨e, first⟩ := firstFault_exists_iff.mpr fault
    exact none ⟨e, .field choice first⟩

theorem parse_exists_iff : (∃ s, parse text = .ok s) ↔ Accepts (blankSeparated text) := by
  rw [accepts_iff, ← exists_congr fun _ => parse_eq_error_iff]
  cases parse text <;> simp

end Schedule

/-- Every text is decided by its fields. Their number comes first, then the choice of a day field,
then the fields in turn; a text at fault nowhere is a schedule. -/
theorem Schedule.parse_decides (text : String) :
    ∃ fields, (∀ words, Layout text.toList words ↔ words = fields) ∧
      (∀ e, Schedule.parse text = .error e ↔ Refuses text fields e) ∧
      ((∃ s, Schedule.parse text = .ok s) ↔ Accepts fields) :=
  ⟨blankSeparated text, fun _ => layout_iff.trans eq_comm, fun _ => parse_eq_error_iff,
    parse_exists_iff⟩

/-- The year is at fault too, but it comes later. -/
example : Schedule.parse "0 9 ? * mon,fry 1969" = .error (.field .dayOfWeek "mon,fry") := by
  decide +kernel

end CronTimes
