import CronTimes.Proofs.StampRendering

namespace CronTimes

/-- The end of a time stamp that is given in UTC. -/
def IsUtc (zone : List Char) : Prop :=
  zone = ['Z'] ∨ zone = ['z'] ∨
    ∃ sign ∈ ['+', '-', '\u2212'], zone = [sign, '0', '0', ':', '0', '0']

/-- A text is the time stamp, in UTC. -/
def Stamp.InUtc (stamp : Stamp) (text : List Char) : Prop :=
  ∃ mark ∈ ['T', 't', ' '], ∃ zone, IsUtc zone ∧ stamp.Writes mark zone text

/-- A reader of time stamps finds the instants of those that exist, and nothing in other texts. -/
def ReadsStamps (read : String → Option (Instant × Int)) : Prop :=
  ∀ text instant offset, read text = some (instant, offset) ↔
    ∃ stamp : Stamp, stamp.Tells offset text.toList ∧ stamp.Exists ∧ stamp.Names instant

section Zones

variable {zone text : List Char} {stamp : Stamp}

theorem isDigits_two_zero_iff : IsDigits 2 0 text ↔ text = ['0', '0'] := by
  have zeros : IsDigits 2 0 ['0', '0'] := isDigits_padded (by decide) (by decide)
  constructor
  · exact fun h => h.unique zeros
  · rintro rfl
    exact zeros

theorem writesOffset_zero_iff : WritesOffset 0 zone ↔ IsUtc zone := by
  constructor
  · intro h
    generalize zero : (0 : Int) = offset at h
    cases h with
    | utc letter =>
      simp only [List.mem_cons, List.not_mem_nil, or_false] at letter
      rcases letter with rfl | rfl
      · exact Or.inl rfl
      · exact Or.inr (Or.inl rfl)
    | @ahead h m _ _ hh hm =>
      obtain ⟨rfl, rfl⟩ : h = 0 ∧ m = 0 := by omega
      rw [isDigits_two_zero_iff.mp hh, isDigits_two_zero_iff.mp hm]
      exact Or.inr (Or.inr ⟨'+', by simp, rfl⟩)
    | @behind sign h m _ _ minus hh hm =>
      obtain ⟨rfl, rfl⟩ : h = 0 ∧ m = 0 := by omega
      rw [isDigits_two_zero_iff.mp hh, isDigits_two_zero_iff.mp hm]
      exact Or.inr (Or.inr ⟨sign, List.mem_cons_of_mem '+' minus, rfl⟩)
  · have zeros := isDigits_two_zero_iff.mpr rfl
    rintro (rfl | rfl | ⟨sign, hs, rfl⟩)
    · exact .utc (by simp)
    · exact .utc (by simp)
    · rcases List.mem_cons.mp hs with rfl | minus
      · exact .ahead zeros zeros (by decide) (by decide)
      · exact .behind minus zeros zeros (by decide) (by decide)

theorem tells_zero_iff : stamp.Tells 0 text ↔ stamp.InUtc text := by
  simp only [Stamp.Tells, Stamp.InUtc, writesOffset_zero_iff]

theorem not_mem_digits {digits : List Char} {c : Char} (decimal : ∀ c ∈ digits, c.isDigit)
    (plain : c.isDigit = false) : c ∉ digits := by
  intro hc
  simp [decimal c hc] at plain

theorem WritesTriple.no_point {width first second third : Nat} {mark : Char}
    (h : WritesTriple width mark first second third text) (other : mark ≠ '.') : '.' ∉ text := by
  obtain ⟨⟨-, -, h₁, -⟩, ⟨-, -, h₂, -⟩, ⟨-, -, h₃, -⟩⟩ := h
  simp only [List.mem_append, List.mem_cons, not_or]
  exact ⟨not_mem_digits h₁ rfl, other.symm, not_mem_digits h₂ rfl, other.symm,
    not_mem_digits h₃ rfl⟩

theorem IsUtc.parted (h : IsUtc zone) : ∀ c ∈ zone.head?, c.isDigit = false :=
  fun c hc => ((writesOffset_zero_iff.mpr h).parted c hc).1

theorem IsUtc.no_point (h : IsUtc zone) : '.' ∉ zone := by
  rcases h with rfl | rfl | ⟨sign, hs, rfl⟩
  · decide
  · decide
  · simp only [List.mem_cons, List.not_mem_nil, or_false] at hs
    rcases hs with rfl | rfl | rfl <;> decide

end Zones

namespace Stamp

variable {stamp : Stamp} {text : List Char}

/-- A time stamp whose date and clock time exist has an instant. -/
theorem exists_named (h : stamp.InUtc text) (exist : stamp.Exists) :
    ∃ instant, stamp.Names instant := by
  obtain ⟨mark, -, zone, -, h⟩ := h
  obtain ⟨⟨hy, -, -⟩, -, hf⟩ := h
  obtain ⟨⟨positive, inside⟩, hour, minute, second⟩ := exist
  have four : stamp.year < 10 ^ 4 := hy.1 ▸ hy.2.lt
  have nanos := fractionNanos_lt hf.decimal
  have calendar : calendarStart ≤ stamp.year ∧ (stamp.year : Int) ≤ calendarEnd := by
    unfold calendarStart calendarEnd
    omega
  let date : Date := ⟨stamp.year, stamp.month, stamp.day, calendar.1, calendar.2, positive, inside⟩
  let minute : Minute := ⟨date, stamp.hour, stamp.minute, by omega, by omega⟩
  by_cases leap : stamp.second = 60
  · refine ⟨⟨minute, 59, fractionNanos stamp.fraction + 1000000000, by omega, by omega, by omega⟩,
      rfl, rfl, rfl, rfl, rfl, ?_, ?_⟩
    · rw [leap]
      rfl
    · rw [if_pos leap]
  · refine ⟨⟨minute, stamp.second, fractionNanos stamp.fraction, by omega, by omega, by omega⟩,
      rfl, rfl, rfl, rfl, rfl, ?_, ?_⟩
    · dsimp only
      omega
    · rw [if_neg leap, Nat.add_zero]

/-- The only point of a time stamp is the one before its fraction of a second. -/
theorem Writes.cut_at_point {mark : Char} {zone head tail : List Char} (other : mark ≠ '.')
    (hz : IsUtc zone) (h : stamp.Writes mark zone (head ++ '.' :: tail)) :
    tail = stamp.fraction ++ zone ∧ (∀ c ∈ stamp.fraction, c.isDigit) ∧
      ∀ digits, digits ≠ [] → (∀ c ∈ digits, c.isDigit) →
        ({ stamp with fraction := digits } : Stamp).Writes mark zone
          (head ++ '.' :: (digits ++ zone)) := by
  generalize same : head ++ '.' :: tail = text at h
  obtain @⟨date, time, part, hd, ht, hf⟩ := h
  have front : '.' ∉ date ++ mark :: time := by
    simp only [List.mem_append, List.mem_cons, not_or]
    exact ⟨hd.no_point (by decide), other.symm, ht.no_point (by decide)⟩
  have parted : (date ++ mark :: time) ++ (part ++ zone) = head ++ '.' :: tail := by
    rw [same, List.append_assoc, List.cons_append]
  -- Nothing else in a time stamp has a point, so the text has a fraction and is cut in front of it.
  generalize stamp.fraction = fraction at hf
  cases hf with
  | none =>
    have inside : '.' ∈ (date ++ mark :: time) ++ ([] ++ zone) := by
      rw [parted]
      simp
    rcases List.mem_append.mp inside with hfront | hzone
    · exact absurd hfront front
    · exact absurd hzone hz.no_point
  | digits _ decimal =>
    have after : '.' ∉ fraction ++ zone := by
      rw [List.mem_append, not_or]
      exact ⟨not_mem_digits decimal rfl, hz.no_point⟩
    obtain ⟨rfl, -, rfl⟩ := (List.append_cons_inj_of_notMem front after).mp parted
    refine ⟨rfl, decimal, ?_⟩
    intro digits nonempty decimal'
    have written : ({ stamp with fraction := digits } : Stamp).Writes mark zone
        (date ++ mark :: (time ++ ('.' :: digits ++ zone))) :=
      .parts hd ht (.digits nonempty decimal')
    rwa [List.append_assoc, List.cons_append]

/-- What stands after the ninth digit of a fraction is not told from other digits in its place. -/
theorem InUtc.exchange_digits {head nine more more' rest : List Char} (full : nine.length = 9)
    (decimal : ∀ c ∈ nine, c.isDigit) (hm : ∀ c ∈ more, c.isDigit) (hm' : ∀ c ∈ more', c.isDigit)
    (h : stamp.InUtc (head ++ '.' :: (nine ++ (more ++ rest)))) :
    ∃ digits, fractionNanos digits = fractionNanos stamp.fraction ∧
      ({ stamp with fraction := digits } : Stamp).InUtc
        (head ++ '.' :: (nine ++ (more' ++ rest))) := by
  obtain ⟨mark, hmark, zone, hz, h⟩ := h
  have other : mark ≠ '.' := by
    rintro rfl
    simp at hmark
  obtain ⟨after, decimal', exchange⟩ := h.cut_at_point other hz
  -- Digits at the head of the rest belong to the fraction too: it goes on as far as there are digits.
  obtain ⟨whole, ending⟩ := span_digits decimal' hz.parted
  rw [← after, List.takeWhile_append_of_pos decimal, List.takeWhile_append_of_pos hm] at whole
  rw [← after, List.dropWhile_append_of_pos decimal, List.dropWhile_append_of_pos hm] at ending
  have others : ∀ c ∈ rest.takeWhile Char.isDigit, c.isDigit :=
    fun c hc => List.mem_takeWhile_imp hc
  have joined : ∀ c ∈ more' ++ rest.takeWhile Char.isDigit, c.isDigit :=
    List.forall_mem_append.mpr ⟨hm', others⟩
  have nonempty : nine ++ (more' ++ rest.takeWhile Char.isDigit) ≠ [] := by
    rintro empty
    simp [(List.append_eq_nil_iff.mp empty).1] at full
  refine ⟨nine ++ (more' ++ rest.takeWhile Char.isDigit), ?_, mark, hmark, zone, hz, ?_⟩
  · rw [← whole, fractionNanos_append full joined,
      fractionNanos_append full (List.forall_mem_append.mpr ⟨hm, others⟩)]
  · have parts : rest = rest.takeWhile Char.isDigit ++ zone := by
      rw [← ending, List.takeWhile_append_dropWhile]
    have written := exchange _ nonempty (List.forall_mem_append.mpr ⟨decimal, joined⟩)
    rwa [List.append_assoc, List.append_assoc, ← parts] at written

end Stamp

namespace Instant

variable {read : String → Option (Instant × Int)} {text : String} {instant : Instant}

theorem ofText?_reads : ReadsStamps fun text => ofText? text.toList :=
  fun _ _ _ => ofText?_eq_some_iff

/-- There is one reader of time stamps. -/
theorem inUtc_eq_parse (reads : ReadsStamps read) (text : String) : inUtc read text = parse text := by
  have same : read text = ofText? text.toList := by
    ext ⟨instant, offset⟩
    rw [reads, ofText?_eq_some_iff]
  rw [parse, inUtc, inUtc, same]

theorem parse_eq_ok_iff :
    parse text = .ok instant ↔
      ∃ stamp : Stamp, stamp.InUtc text.toList ∧ stamp.Exists ∧ stamp.Names instant := by
  simp only [← tells_zero_iff]
  rw [← ofText?_eq_some_iff, parse, inUtc]
  split
  next found offset same =>
    rw [same]
    split
    next zero => simp [zero]
    next ahead => simp [ahead]
  next none => simp [none]

theorem parse_ok_or_error (text : String) :
    (∃ instant, parse text = .ok instant) ∨ parse text = .error (.instant text) := by
  rw [parse, inUtc]
  split
  next found offset same =>
    split
    · exact Or.inl ⟨found, rfl⟩
    · exact Or.inr rfl
  next => exact Or.inr rfl

theorem exists_parse_iff :
    (∃ instant, parse text = .ok instant) ↔
      ∃ stamp : Stamp, stamp.InUtc text.toList ∧ stamp.Exists := by
  simp only [parse_eq_ok_iff]
  constructor
  · rintro ⟨instant, stamp, written, exist, -⟩
    exact ⟨stamp, written, exist⟩
  · rintro ⟨stamp, written, exist⟩
    obtain ⟨instant, names⟩ := Stamp.exists_named written exist
    exact ⟨instant, stamp, written, exist, names⟩

theorem parse_eq_error_iff {error : CronError} :
    parse text = .error error ↔
      error = .instant text ∧ ¬ ∃ stamp : Stamp, stamp.InUtc text.toList ∧ stamp.Exists := by
  rw [← exists_parse_iff]
  rcases parse_ok_or_error text with ⟨instant, ok⟩ | refused
  · simp [ok]
  · simp [refused, eq_comm]

/-- Other digits in the place of those after the ninth make no other instant. -/
theorem parse_exchange_digits {head nine more more' rest : List Char} (full : nine.length = 9)
    (decimal : ∀ c ∈ nine, c.isDigit) (hm : ∀ c ∈ more, c.isDigit) (hm' : ∀ c ∈ more', c.isDigit)
    (h : parse (String.ofList (head ++ '.' :: (nine ++ (more ++ rest)))) = .ok instant) :
    parse (String.ofList (head ++ '.' :: (nine ++ (more' ++ rest)))) = .ok instant := by
  rw [parse_eq_ok_iff, String.toList_ofList] at h ⊢
  obtain ⟨stamp, written, exist, names⟩ := h
  obtain ⟨digits, nanos, written'⟩ := written.exchange_digits full decimal hm hm'
  refine ⟨_, written', exist, names.year, names.month, names.day, names.hour, names.minute,
    names.second, ?_⟩
  rw [nanos]
  exact names.nanosecond

theorem parse_drop_digits_iff {head nine more rest : List Char} (full : nine.length = 9)
    (decimal : ∀ c ∈ nine, c.isDigit) (hm : ∀ c ∈ more, c.isDigit) :
    parse (String.ofList (head ++ '.' :: (nine ++ (more ++ rest)))) = .ok instant ↔
      parse (String.ofList (head ++ '.' :: (nine ++ rest))) = .ok instant := by
  have empty : ∀ c ∈ ([] : List Char), c.isDigit := by simp
  constructor
  · intro h
    rw [← List.nil_append rest]
    exact parse_exchange_digits full decimal hm empty h
  · intro h
    rw [← List.nil_append rest] at h
    exact parse_exchange_digits full decimal empty hm h

theorem parse_of_renders (h : instant.Renders text.toList) : parse text = .ok instant := by
  obtain ⟨stamp, writes, exist, names, -⟩ := h
  have utc : IsUtc ['+', '0', '0', ':', '0', '0'] := Or.inr (Or.inr ⟨'+', by simp, rfl⟩)
  exact parse_eq_ok_iff.mpr ⟨stamp, ⟨'T', by simp, _, utc, writes⟩, exist, names⟩

/-- Time stamps in UTC are read, and nothing else is. Any other text is refused and named in the
error. A fraction of a second counts to its ninth digit. What an instant is rendered as is read back as
that instant. -/
theorem reads_utc_stamps {read : String → Option (Instant × Int)} (reads : ReadsStamps read) :
    (∀ text, inUtc read text = parse text) ∧
    (∀ text instant, parse text = .ok instant ↔
      ∃ stamp : Stamp, stamp.InUtc text.toList ∧ stamp.Exists ∧ stamp.Names instant) ∧
    (∀ text, (∃ instant, parse text = .ok instant) ↔
      ∃ stamp : Stamp, stamp.InUtc text.toList ∧ stamp.Exists) ∧
    (∀ text error, parse text = .error error ↔
      error = .instant text ∧ ¬ ∃ stamp : Stamp, stamp.InUtc text.toList ∧ stamp.Exists) ∧
    (∀ head nine more rest : List Char, nine.length = 9 → (∀ c ∈ nine, c.isDigit) →
      (∀ c ∈ more, c.isDigit) → ∀ instant,
        parse (String.ofList (head ++ '.' :: (nine ++ (more ++ rest)))) = .ok instant ↔
          parse (String.ofList (head ++ '.' :: (nine ++ rest))) = .ok instant) ∧
    (∀ instant text, instant.Renders text.toList → parse text = .ok instant) ∧
    ∀ instant : Instant, 0 ≤ instant.minute.date.year → instant.minute.date.year ≤ 9999 →
      (∀ text, instant.Renders text.toList ↔ text = instant.timestamp) ∧
        parse instant.timestamp = .ok instant := by
  refine ⟨inUtc_eq_parse reads, fun _ _ => parse_eq_ok_iff, fun _ => exists_parse_iff,
    fun _ _ => parse_eq_error_iff, ?_, fun _ _ => parse_of_renders, ?_⟩
  · intro head nine more rest full decimal hm instant
    exact parse_drop_digits_iff full decimal hm
  · intro instant positive four
    have rendered (text : String) : instant.Renders text.toList ↔ text = instant.timestamp := by
      rw [renders_iff positive four, timestamp, ← String.toList_inj, String.toList_ofList]
    exact ⟨rendered, parse_of_renders ((rendered _).mpr rfl)⟩

/-- A leap second with a tenth digit and a minus sign is read as the leap second without them. The
same second by a clock that is two hours ahead is refused. -/
theorem reads_utc_stamps_of_leap_second :
    (∃ instant, parse "1972-06-30 23:59:60.1234567891\u221200:00" = .ok instant ∧
      instant.timestamp = "1972-06-30T23:59:60.123456789+00:00" ∧
      parse instant.timestamp = .ok instant) ∧
    parse "1972-07-01T01:59:60+02:00" = .error (.instant "1972-07-01T01:59:60+02:00") := by
  obtain ⟨agrees, -, -, -, drop, -, rendered⟩ := reads_utc_stamps ofText?_reads
  have nine : ∃ instant, parse "1972-06-30 23:59:60.123456789\u221200:00" = .ok instant ∧
      instant.minute.date.year = 1972 ∧
      instant.timestamp = "1972-06-30T23:59:60.123456789+00:00" := ⟨_, rfl, rfl, by decide +kernel⟩
  obtain ⟨instant, read, year, text⟩ := nine
  have ten := (drop "1972-06-30 23:59:60".toList "123456789".toList ['1'] "\u221200:00".toList
    (by decide) (by simp) (by simp) instant).mpr read
  refine ⟨⟨instant, ten, text, (rendered instant (by omega) (by omega)).2⟩, ?_⟩
  rw [← agrees]
  rfl

end Instant

end CronTimes
