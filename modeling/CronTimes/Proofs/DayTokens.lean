import CronTimes.DayRule
import CronTimes.Proofs.ListGrammar

namespace CronTimes

/-- What the day-of-month field may say other than a list of days. Its letters are capitals. -/
inductive DayRule.TokenOfMonth : List Char → DayRule → Prop
  | last : TokenOfMonth ['L'] (.fromLast 0)
  | lastWeekday : TokenOfMonth ['L', 'W'] .lastWeekday
  | fromLast {text : List Char} {n : Nat} (numeral : IsNumeral text n) (high : n ≤ 30) :
      TokenOfMonth ('L' :: '-' :: text) (.fromLast n)
  | weekdayNear {text : List Char} {n : Nat} (numeral : IsNumeral text n) (low : 1 ≤ n)
      (high : n ≤ 31) : TokenOfMonth (text ++ ['W']) (.weekdayNear n)

/-- What the day-of-week field may say other than a list of days. -/
inductive DayRule.TokenOfWeek : List Char → DayRule → Prop
  | saturday {l : Char} {week : FieldSet} (letter : l = 'L' ∨ l = 'l') (one : week.toList = [7]) :
      TokenOfWeek [l] (.daysOfWeek week)
  | lastAfter {l : Char} {text : List Char} {d : Nat} (letter : l = 'L' ∨ l = 'l')
      (spelled : CronField.dayOfWeek.Spells text d) :
      TokenOfWeek (l :: '-' :: text) (.lastOfWeek d)
  | lastBefore {l : Char} {text : List Char} {d : Nat} (letter : l = 'L' ∨ l = 'l')
      (spelled : CronField.dayOfWeek.Spells text d) : TokenOfWeek (text ++ [l]) (.lastOfWeek d)
  | nth {text count : List Char} {d n : Nat} (spelled : CronField.dayOfWeek.Spells text d)
      (numeral : IsNumeral count n) (low : 1 ≤ n) (high : n ≤ 5) :
      TokenOfWeek (text ++ '#' :: count) (.nthOfWeek d n)

/-- A day field reads its tokens and, apart from these, lists of days, and no text is both. What it
refuses it refuses as a whole. -/
structure DayRule.Reads (field : CronField) (token : List Char → DayRule → Prop)
    (listed : FieldSet → DayRule) (text : String) (reading : Except CronError DayRule) : Prop where
  ok_iff : ∀ rule, reading = .ok rule ↔
    token text.toList rule ∨ ∃ days, field.parse text = .ok days ∧ listed days = rule
  error_iff : ∀ e, reading = .error e ↔ e = .field field text ∧
    (∀ rule, ¬ token text.toList rule) ∧ ∀ days, field.parse text ≠ .ok days
  apart : ∀ rule days, token text.toList rule → field.parse text ≠ .ok days

section Marks

variable {mark c : Char} {text rest : List Char}

theorem dropMark?_eq_some_iff : dropMark? mark text = some rest ↔ text = rest ++ [mark] := by
  rw [dropMark?]
  split
  next closed =>
    obtain ⟨before, rfl⟩ := List.getLast?_eq_some_iff.mp closed
    simp [eq_comm]
  next open_ended =>
    refine iff_of_false (by simp) ?_
    rintro rfl
    exact open_ended (by simp)

theorem dropMark?_eq_none (h : mark ∉ text) : dropMark? mark text = none := by
  rw [Option.eq_none_iff_forall_ne_some]
  intro rest closed
  exact h (dropMark?_eq_some_iff.mp closed ▸ by simp)

theorem not_mem_head?_append (nonempty : text ≠ []) (free : mark ∉ text) :
    mark ∉ (text ++ rest).head? := by
  rw [List.head?_append_of_ne_nil _ nonempty]
  exact fun head => free (List.mem_of_mem_head? head)

theorem IsNumeral.not_mem {n : Nat} (h : IsNumeral text n) (plain : mark.isDigit = false) :
    mark ∉ text := by
  intro hm
  simp [h.2.1 mark hm] at plain

theorem toLower_eq_l_iff : c.toLower = 'l' ↔ c = 'L' ∨ c = 'l' := by
  constructor
  · intro h
    by_cases upper : c.isUpper
    · have same := Char.toUpper_toLower_eq_toUpper c
      rw [h, Char.toUpper_eq_of_not_isLower (Char.not_isLower_of_isUpper upper)] at same
      exact Or.inl same.symm
    · exact Or.inr (Char.toLower_eq_of_not_isUpper upper ▸ h)
  · rintro (rfl | rfl) <;> rfl

end Marks

namespace CronField

variable {text : List Char} {items : List ListItem} {c : Char} {v : Nat}

theorem spells_dayOfMonth_iff :
    dayOfMonth.Spells text v ↔ IsNumeral text v ∧ 1 ≤ v ∧ v ≤ 31 := by
  constructor
  · intro h
    cases h with
    | number numeral low high => exact ⟨numeral, low, high⟩
    | name named => simp [names] at named
  · rintro ⟨numeral, low, high⟩
    exact .number numeral low high

theorem isAlpha_of_dayOfMonth (h : dayOfMonth.Lists text items) :
    ∀ c ∈ text, c.isAlpha = false := by
  intro c hc
  rcases h.chars c hc with (digit | ⟨name, named, -⟩) | rfl | rfl | rfl | rfl
  · exact isAlpha_of_isDigit digit
  · simp [names] at named
  all_goals decide

/-- No day of the week has an L in its name. -/
theorem Uses.ne_of_dayOfWeek (h : dayOfWeek.Uses c) : c ≠ 'L' ∧ c ≠ 'l' ∧ c ≠ '#' := by
  have names : ∀ name ∈ dayOfWeek.names, 'l' ∉ name.toList.map Char.toLower := by decide +kernel
  refine ⟨?_, ?_, ?_⟩
  · rintro rfl
    rcases h with digit | ⟨name, named, letter⟩
    · exact absurd digit (by decide)
    · exact names name named letter
  · rintro rfl
    rcases h with digit | ⟨name, named, letter⟩
    · exact absurd digit (by decide)
    · exact names name named letter
  · rintro rfl
    exact absurd h.isAlphanum (by decide)

theorem ne_of_dayOfWeek (h : dayOfWeek.Lists text items) :
    ∀ c ∈ text, c ≠ 'L' ∧ c ≠ 'l' ∧ c ≠ '#' := by
  intro c hc
  rcases h.chars c hc with used | rfl | rfl | rfl | rfl
  · exact used.ne_of_dayOfWeek
  all_goals decide

end CronField

namespace DayRule

variable {text other : List Char} {rule : DayRule} {days : FieldSet}

theorem TokenOfMonth.letter (h : TokenOfMonth text rule) : ∃ c ∈ text, c.isAlpha := by
  cases h with
  | last => exact ⟨'L', by simp, by decide⟩
  | lastWeekday => exact ⟨'L', by simp, by decide⟩
  | fromLast => exact ⟨'L', by simp, by decide⟩
  | weekdayNear => exact ⟨'W', by simp, by decide⟩

theorem TokenOfMonth.not_list (h : TokenOfMonth text rule) :
    CronField.dayOfMonth.set? text ≠ some days := by
  intro listed
  obtain ⟨items, lists⟩ := CronField.set?_lists listed
  obtain ⟨c, hc, letter⟩ := h.letter
  simp [CronField.isAlpha_of_dayOfMonth lists c hc] at letter

/-- Only a text that begins with an L is read by its first letters. -/
theorem ofMonthText?_of_head (h : 'L' ∉ text.head?) :
    ofMonthText? text =
      match dropMark? 'W' text with
      | some day => (CronField.dayOfMonth.value? day).map .weekdayNear
      | none => (CronField.dayOfMonth.set? text).map .daysOfMonth := by
  unfold ofMonthText?
  split
  next => simp at h
  next => simp at h
  next => simp at h
  next => rfl

theorem ofMonthText?_eq_some_iff :
    ofMonthText? text = some rule ↔ TokenOfMonth text rule ∨
      ∃ days, CronField.dayOfMonth.set? text = some days ∧ daysOfMonth days = rule := by
  constructor
  · intro h
    unfold ofMonthText? at h
    split at h
    next =>
      cases Option.some.inj h
      exact Or.inl .last
    next =>
      cases Option.some.inj h
      exact Or.inl .lastWeekday
    next =>
      obtain ⟨n, hn, rfl⟩ := Option.map_eq_some_iff.mp h
      obtain ⟨numeral, -, high⟩ := boundedNumber?_iff_isNumeral.mp hn
      exact Or.inl (.fromLast numeral high)
    next =>
      split at h
      next closed =>
        obtain ⟨n, hn, rfl⟩ := Option.map_eq_some_iff.mp h
        obtain ⟨numeral, low, high⟩ :=
          CronField.spells_dayOfMonth_iff.mp (CronField.value?_eq_some_iff.mp hn)
        cases dropMark?_eq_some_iff.mp closed
        exact Or.inl (.weekdayNear numeral low high)
      next => exact Or.inr (Option.map_eq_some_iff.mp h)
  · rintro (token | ⟨days, listed, rfl⟩)
    · cases token with
      | last => rfl
      | lastWeekday => rfl
      | fromLast numeral high =>
        have hn := boundedNumber?_iff_isNumeral.mpr ⟨numeral, Nat.zero_le _, high⟩
        simp [ofMonthText?, hn]
      | @weekdayNear day n numeral low high =>
        have head : 'L' ∉ (day ++ ['W']).head? :=
          not_mem_head?_append numeral.1 (numeral.not_mem (by decide))
        have hv := CronField.value?_eq_some_iff.mpr
          (CronField.spells_dayOfMonth_iff.mpr ⟨numeral, low, high⟩)
        rw [ofMonthText?_of_head head, dropMark?_eq_some_iff.mpr rfl]
        simp [hv]
    · obtain ⟨items, lists⟩ := CronField.set?_lists listed
      have free : ∀ c, c.isAlpha → c ∉ text := by
        intro c letter hc
        simp [CronField.isAlpha_of_dayOfMonth lists c hc] at letter
      have head : 'L' ∉ text.head? := fun hl => free 'L' (by decide) (List.mem_of_mem_head? hl)
      rw [ofMonthText?_of_head head, dropMark?_eq_none (free 'W' (by decide))]
      simp [listed]

theorem TokenOfWeek.letter (h : TokenOfWeek text rule) :
    ∃ c ∈ text, c = 'L' ∨ c = 'l' ∨ c = '#' := by
  cases h with
  | @saturday l _ letter => exact ⟨l, by simp, letter.imp_right Or.inl⟩
  | @lastAfter l _ _ letter => exact ⟨l, by simp, letter.imp_right Or.inl⟩
  | @lastBefore l _ _ letter => exact ⟨l, by simp, letter.imp_right Or.inl⟩
  | nth => exact ⟨'#', by simp, by simp⟩

theorem TokenOfWeek.not_list (h : TokenOfWeek text rule) :
    CronField.dayOfWeek.set? text ≠ some days := by
  intro listed
  obtain ⟨items, lists⟩ := CronField.set?_lists listed
  obtain ⟨c, hc, letter⟩ := h.letter
  have free := CronField.ne_of_dayOfWeek lists c hc
  simp [free] at letter

/-- The case of letters does not matter in a token. -/
theorem TokenOfWeek.same_word (h : TokenOfWeek text rule) (same : sameWord text other) :
    TokenOfWeek other rule := by
  cases h with
  | saturday letter one =>
    obtain ⟨l, rest, rfl, hl, hr⟩ := sameWord_cons same
    cases sameWord_eq hr (by simp)
    exact .saturday (toLower_eq_l_iff.mp (hl.trans (toLower_eq_l_iff.mpr letter))) one
  | lastAfter letter spelled =>
    obtain ⟨l, tail, rfl, hl, ht⟩ := sameWord_cons same
    obtain ⟨hyphen, rest, rfl, hh, hr⟩ := sameWord_cons ht
    cases (toLower_eq_iff (by decide)).mp hh
    exact .lastAfter (toLower_eq_l_iff.mp (hl.trans (toLower_eq_l_iff.mpr letter)))
      (spelled.same_word hr)
  | lastBefore letter spelled =>
    obtain ⟨weekday, tail, rfl, hw, ht⟩ := sameWord_append same
    obtain ⟨l, rest, rfl, hl, hr⟩ := sameWord_cons ht
    cases sameWord_eq hr (by simp)
    exact .lastBefore (toLower_eq_l_iff.mp (hl.trans (toLower_eq_l_iff.mpr letter)))
      (spelled.same_word hw)
  | nth spelled numeral low high =>
    obtain ⟨weekday, count, rfl, hw, hc⟩ := sameWord_cut same (by decide)
    exact .nth (spelled.same_word hw) (numeral.same_word hc) low high

theorem saturdays_eq {week : FieldSet} (one : week.toList = [7]) : saturdays = week :=
  FieldSet.eq_of_mem_iff fun x => by rw [saturdays, FieldSet.mem_toList_ofList, one]

theorem ofCapitals?_of_head (h : 'L' ∉ text.head?) :
    ofCapitals? text =
      match dropMark? 'L' text with
      | some weekday => (CronField.dayOfWeek.value? weekday).map .lastOfWeek
      | none =>
        match cut? '#' text with
        | some (weekday, nth) => do
          let weekday ← CronField.dayOfWeek.value? weekday
          let nth ← boundedNumber? 1 5 nth
          some (.nthOfWeek weekday nth)
        | none => (CronField.dayOfWeek.set? text).map .daysOfWeek := by
  unfold ofCapitals?
  split
  next => simp at h
  next => simp at h
  next => rfl

theorem ofCapitals?_eq_some_iff (capitals : 'l' ∉ text) :
    ofCapitals? text = some rule ↔ TokenOfWeek text rule ∨
      ∃ days, CronField.dayOfWeek.set? text = some days ∧ daysOfWeek days = rule := by
  constructor
  · intro h
    unfold ofCapitals? at h
    split at h
    next =>
      cases Option.some.inj h
      exact Or.inl (.saturday (Or.inl rfl) (by decide +kernel))
    next =>
      obtain ⟨d, hd, rfl⟩ := Option.map_eq_some_iff.mp h
      exact Or.inl (.lastAfter (Or.inl rfl) (CronField.value?_eq_some_iff.mp hd))
    next =>
      split at h
      next closed =>
        obtain ⟨d, hd, rfl⟩ := Option.map_eq_some_iff.mp h
        cases dropMark?_eq_some_iff.mp closed
        exact Or.inl (.lastBefore (Or.inl rfl) (CronField.value?_eq_some_iff.mp hd))
      next =>
        split at h
        next hc =>
          obtain ⟨rfl, -⟩ := cut?_eq_some_iff.mp hc
          obtain ⟨d, hd, h⟩ := Option.bind_eq_some_iff.mp h
          obtain ⟨n, hn, h⟩ := Option.bind_eq_some_iff.mp h
          cases Option.some.inj h
          obtain ⟨numeral, low, high⟩ := boundedNumber?_iff_isNumeral.mp hn
          exact Or.inl (.nth (CronField.value?_eq_some_iff.mp hd) numeral low high)
        next => exact Or.inr (Option.map_eq_some_iff.mp h)
  · have capital : ∀ l ∈ text, l = 'L' ∨ l = 'l' → l = 'L' := by
      rintro l hl (rfl | rfl)
      · rfl
      · exact absurd hl capitals
    rintro (token | ⟨days, listed, rfl⟩)
    · cases token with
      | @saturday l week letter one =>
        cases capital l (by simp) letter
        rw [← saturdays_eq one]
        rfl
      | @lastAfter l weekday d letter spelled =>
        cases capital l (by simp) letter
        simp [ofCapitals?, CronField.value?_eq_some_iff.mpr spelled]
      | @lastBefore l weekday d letter spelled =>
        cases capital l (by simp) letter
        have free : 'L' ∉ weekday := fun hl => (spelled.uses 'L' hl).ne_of_dayOfWeek.1 rfl
        rw [ofCapitals?_of_head (not_mem_head?_append spelled.ne_nil free),
          dropMark?_eq_some_iff.mpr rfl]
        simp [CronField.value?_eq_some_iff.mpr spelled]
      | @nth weekday count d n spelled numeral low high =>
        have free : 'L' ∉ weekday := fun hl => (spelled.uses 'L' hl).ne_of_dayOfWeek.1 rfl
        have digits : 'L' ∉ count := numeral.not_mem (by decide)
        have open_ended : 'L' ∉ weekday ++ '#' :: count := by simp [free, digits]
        rw [ofCapitals?_of_head (not_mem_head?_append spelled.ne_nil free),
          dropMark?_eq_none open_ended,
          cut?_eq_some_iff.mpr ⟨rfl, spelled.not_mem (by decide)⟩]
        simp [CronField.value?_eq_some_iff.mpr spelled,
          boundedNumber?_iff_isNumeral.mpr ⟨numeral, low, high⟩]
    · obtain ⟨items, lists⟩ := CronField.set?_lists listed
      have free := CronField.ne_of_dayOfWeek lists
      have closed : 'L' ∉ text := fun hl => (free 'L' hl).1 rfl
      have head : 'L' ∉ text.head? := fun hl => closed (List.mem_of_mem_head? hl)
      have uncut : '#' ∉ text := fun hm => (free '#' hm).2.2 rfl
      rw [ofCapitals?_of_head head, dropMark?_eq_none closed, cut?_eq_none_iff.mpr uncut]
      simp [listed]

theorem ofWeekText?_eq_some_iff :
    ofWeekText? text = some rule ↔ TokenOfWeek text rule ∨
      ∃ days, CronField.dayOfWeek.set? text = some days ∧ daysOfWeek days = rule := by
  have capitals : 'l' ∉ text.map Char.toUpper := by
    intro hl
    obtain ⟨c, -, hc⟩ := List.mem_map.mp hl
    have := Char.isLower_toUpper_eq_false c
    simp [hc] at this
  have same : sameWord text (text.map Char.toUpper) := sameWord_capitals
  rw [ofWeekText?, ofCapitals?_eq_some_iff capitals]
  constructor
  · rintro (token | ⟨days, listed, made⟩)
    · exact Or.inl (token.same_word (sameWord_symm same))
    · exact Or.inr ⟨days, CronField.set?_same_word listed (sameWord_symm same), made⟩
  · rintro (token | ⟨days, listed, made⟩)
    · exact Or.inl (token.same_word same)
    · exact Or.inr ⟨days, CronField.set?_same_word listed same, made⟩

theorem ofWeekText?_same_word (same : sameWord text other) :
    ofWeekText? text = ofWeekText? other := by
  have folded : ∀ cs : List Char, cs.map Char.toUpper = (cs.map Char.toLower).map Char.toUpper := by
    simp
  rw [ofWeekText?, ofWeekText?, folded text, folded other, sameWord_iff.mp same]

theorem reads_of {field : CronField} {token : List Char → DayRule → Prop}
    {listed : FieldSet → DayRule} {text : String} {read : Option DayRule}
    (spec : ∀ rule, read = some rule ↔ token text.toList rule ∨
      ∃ days, field.set? text.toList = some days ∧ listed days = rule)
    (apart : ∀ rule days, token text.toList rule → field.set? text.toList ≠ some days) :
    Reads field token listed text (read.elim (.error (.field field text)) .ok) where
  ok_iff rule := by
    simp only [CronField.parse_eq_ok_iff, ← spec]
    cases read <;> simp
  error_iff e := by
    simp only [ne_eq, CronField.parse_eq_ok_iff]
    cases hr : read with
    | some rule =>
      refine iff_of_false (by simp) ?_
      rintro ⟨-, no_token, no_list⟩
      rcases (spec rule).mp hr with token | ⟨days, list, -⟩
      · exact no_token rule token
      · exact no_list days list
    | none =>
      rw [Option.elim_none, Except.error.injEq, eq_comm]
      refine (and_iff_left ⟨fun rule token => ?_, fun days list => ?_⟩).symm
      · simpa [hr] using (spec rule).mpr (Or.inl token)
      · simpa [hr] using (spec (listed days)).mpr (Or.inr ⟨days, list, rfl⟩)
  apart rule days token := by
    rw [ne_eq, CronField.parse_eq_ok_iff]
    exact apart rule days token

theorem parseOfMonth_reads (text : String) :
    Reads .dayOfMonth TokenOfMonth daysOfMonth text (parseOfMonth text) := by
  have made : parseOfMonth text =
      (ofMonthText? text.toList).elim (.error (.field .dayOfMonth text)) .ok := by
    rw [parseOfMonth]
    cases ofMonthText? text.toList <;> rfl
  rw [made]
  exact reads_of (fun _ => ofMonthText?_eq_some_iff) fun _ _ token => token.not_list

theorem parseOfWeek_reads (text : String) :
    Reads .dayOfWeek TokenOfWeek daysOfWeek text (parseOfWeek text) := by
  have made : parseOfWeek text =
      (ofWeekText? text.toList).elim (.error (.field .dayOfWeek text)) .ok := by
    rw [parseOfWeek]
    cases ofWeekText? text.toList <;> rfl
  rw [made]
  exact reads_of (fun _ => ofWeekText?_eq_some_iff) fun _ _ token => token.not_list

end DayRule

/-- Both day fields read their tokens exactly, and lists apart from them. In the day-of-week field
the case of letters makes no difference, except that a refused text is reported as it is. -/
theorem DayRule.day_fields_read_tokens (text : String) :
    Reads .dayOfMonth TokenOfMonth daysOfMonth text (parseOfMonth text) ∧
    Reads .dayOfWeek TokenOfWeek daysOfWeek text (parseOfWeek text) ∧
    ∀ other : String, sameWord text.toList other.toList →
      (∃ rule, parseOfWeek text = .ok rule ∧ parseOfWeek other = .ok rule) ∨
        parseOfWeek text = .error (.field .dayOfWeek text) ∧
          parseOfWeek other = .error (.field .dayOfWeek other) := by
  refine ⟨parseOfMonth_reads text, parseOfWeek_reads text, ?_⟩
  intro other same
  have agree := ofWeekText?_same_word same
  rw [parseOfWeek, parseOfWeek, ← agree]
  cases ofWeekText? text.toList with
  | some rule => exact Or.inl ⟨rule, rfl, rfl⟩
  | none => exact Or.inr ⟨rfl, rfl⟩

/-- A text that begins or ends like a token is not read otherwise where it is none. -/
theorem DayRule.day_fields_read_tokens_overlapping :
    (∃ rule, parseOfWeek "fril" = .ok rule ∧ parseOfWeek "FRIL" = .ok rule) ∧
    (∀ rule, ¬ TokenOfMonth "L-2W".toList rule) ∧
    ∀ rule, ¬ TokenOfWeek "2#1,3#1".toList rule := by
  have friday : parseOfWeek "fril" = .ok (.lastOfWeek 6) := by decide +kernel
  have month : parseOfMonth "L-2W" = .error (.field .dayOfMonth "L-2W") := by decide +kernel
  have week : parseOfWeek "2#1,3#1" = .error (.field .dayOfWeek "2#1,3#1") := by decide +kernel
  refine ⟨?_, ?_, ?_⟩
  · rcases (day_fields_read_tokens "fril").2.2 "FRIL" (by decide +kernel) with found | ⟨refused, -⟩
    · exact found
    · simp [friday] at refused
  · exact (((day_fields_read_tokens "L-2W").1.error_iff _).mp month).2.1
  · exact (((day_fields_read_tokens "2#1,3#1").2.1.error_iff _).mp week).2.1

end CronTimes
