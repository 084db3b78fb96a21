import CronTimes.Timestamp
import CronTimes.Proofs.DigitWidths
import CronTimes.Proofs.MinuteOrder

namespace CronTimes

/-- The fraction of a second in a time stamp: digits after a point, or nothing. -/
inductive WritesFraction : List Char → List Char → Prop
  | none : WritesFraction [] []
  | digits {digits : List Char} (nonempty : digits ≠ []) (decimal : ∀ c ∈ digits, c.isDigit) :
      WritesFraction digits ('.' :: digits)

/-- The nanoseconds of a fraction. What is less than one is dropped. -/
def fractionNanos (digits : List Char) : Nat :=
  Nat.ofDigitChars 10 digits 0 * 1000000000 / 10 ^ digits.length

/-- Three numbers with a mark between them, all but the first in two digits. -/
inductive WritesTriple (width : Nat) (mark : Char) (first second third : Nat) : List Char → Prop
  | parts {one two three : List Char} (h₁ : IsDigits width first one) (h₂ : IsDigits 2 second two)
      (h₃ : IsDigits 2 third three) :
      WritesTriple width mark first second third (one ++ mark :: (two ++ mark :: three))

/-- The end of a time stamp, and by how many seconds the clock is ahead of UTC. -/
inductive WritesOffset : Int → List Char → Prop
  | utc {letter : Char} (h : letter ∈ ['Z', 'z']) : WritesOffset 0 [letter]
  | ahead {h m : Nat} {hours minutes : List Char} (hh : IsDigits 2 h hours)
      (hm : IsDigits 2 m minutes) (hour : h ≤ 23) (minute : m ≤ 59) :
      WritesOffset ((h * 60 + m) * 60) ('+' :: (hours ++ ':' :: minutes))
  | behind {sign : Char} {h m : Nat} {hours minutes : List Char} (minus : sign ∈ ['-', '\u2212'])
      (hh : IsDigits 2 h hours) (hm : IsDigits 2 m minutes) (hour : h ≤ 23) (minute : m ≤ 59) :
      WritesOffset (-((h * 60 + m) * 60)) (sign :: (hours ++ ':' :: minutes))

/-- The numbers of a time stamp and the digits of its fraction of a second. -/
structure Stamp where
  year : Nat
  month : Nat
  day : Nat
  hour : Nat
  minute : Nat
  second : Nat
  fraction : List Char

namespace Stamp

/-- How a time stamp is written, with a mark before the clock time and a zone after it. -/
inductive Writes (stamp : Stamp) (mark : Char) (zone : List Char) : List Char → Prop
  | parts {date time fraction : List Char}
      (hd : WritesTriple 4 '-' stamp.year stamp.month stamp.day date)
      (ht : WritesTriple 2 ':' stamp.hour stamp.minute stamp.second time)
      (hf : WritesFraction stamp.fraction fraction) :
      Writes stamp mark zone (date ++ mark :: (time ++ (fraction ++ zone)))

/-- A text is the time stamp, by a clock that is ahead of UTC by a number of seconds. -/
def Tells (stamp : Stamp) (offset : Int) (text : List Char) : Prop :=
  ∃ mark ∈ ['T', 't', ' '], ∃ zone, WritesOffset offset zone ∧ stamp.Writes mark zone text

/-- The date is on the calendar and the time on the clock. Any minute may have a second 60. -/
def Exists (stamp : Stamp) : Prop :=
  (1 ≤ stamp.day ∧ stamp.day ≤ monthLength stamp.year stamp.month) ∧
    stamp.hour ≤ 23 ∧ stamp.minute ≤ 59 ∧ stamp.second ≤ 60

/-- The instant of a time stamp. Second 60 is a leap second, which prolongs second 59. -/
structure Names (stamp : Stamp) (instant : Instant) : Prop where
  year : instant.minute.date.year = stamp.year
  month : instant.minute.date.month = stamp.month
  day : instant.minute.date.day = stamp.day
  hour : instant.minute.hour = stamp.hour
  minute : instant.minute.minute = stamp.minute
  second : instant.second = min stamp.second 59
  nanosecond : instant.nanosecond =
    fractionNanos stamp.fraction + if stamp.second = 60 then 1000000000 else 0

end Stamp

section Readers

variable {width value nanos : Nat} {offset sign : Int}
  {text rest digits part zone marks : List Char}

theorem readNumber?_eq_some_iff :
    readNumber? width text = some (value, rest) ↔
      ∃ digits, IsDigits width value digits ∧ text = digits ++ rest := by
  rw [readNumber?]
  constructor
  · intro h
    split at h
    next full =>
      obtain ⟨n, hn, same⟩ := Option.map_eq_some_iff.mp h
      cases same
      exact ⟨_, ⟨full, number?_eq_some_iff_isNumeral.mp hn⟩, (List.take_append_drop _ _).symm⟩
    next => simp at h
  · rintro ⟨digits, ⟨full, numeral⟩, rfl⟩
    rw [List.take_left' full, List.drop_left' full, if_pos full,
      number?_eq_some_iff_isNumeral.mpr numeral, Option.map_some]

theorem readMark?_eq_some_iff :
    readMark? marks text = some rest ↔ ∃ mark ∈ marks, text = mark :: rest := by
  cases text with
  | nil => simp [readMark?]
  | cons c text => simp [readMark?]

theorem readTriple?_eq_some_iff {mark : Char} {first second third : Nat} :
    readTriple? width mark text = some ((first, second, third), rest) ↔
      ∃ part, WritesTriple width mark first second third part ∧ text = part ++ rest := by
  simp only [readTriple?, Option.bind_eq_bind, Option.bind_eq_some_iff, Prod.exists,
    readNumber?_eq_some_iff, readMark?_eq_some_iff, List.mem_singleton, exists_eq_left]
  constructor
  · rintro ⟨_, _, ⟨one, h₁, rfl⟩, _, rfl, _, _, ⟨two, h₂, rfl⟩, _, rfl, _, _, ⟨three, h₃, rfl⟩, same⟩
    cases same
    exact ⟨_, .parts h₁ h₂ h₃, by simp⟩
  · rintro ⟨_, ⟨h₁, h₂, h₃⟩, rfl⟩
    simp only [List.append_assoc, List.cons_append]
    exact ⟨_, _, ⟨_, h₁, rfl⟩, _, rfl, _, _, ⟨_, h₂, rfl⟩, _, rfl, _, _, ⟨_, h₃, rfl⟩, rfl⟩

theorem readSign?_eq_some_iff :
    readSign? text = some (sign, rest) ↔
      sign = 1 ∧ text = '+' :: rest ∨ sign = -1 ∧ ∃ c ∈ ['-', '\u2212'], text = c :: rest := by
  cases text with
  | nil => simp [readSign?]
  | cons c text =>
    rw [readSign?]
    constructor
    · intro h
      split at h
      next plus =>
        cases h
        exact Or.inl ⟨rfl, by rw [plus]⟩
      next =>
        split at h
        next minus =>
          cases h
          exact Or.inr ⟨rfl, c, minus, rfl⟩
        next => simp at h
    · rintro (⟨rfl, same⟩ | ⟨rfl, d, minus, same⟩)
      · cases same
        rfl
      · cases same
        have other : c ≠ '+' := by
          rintro rfl
          simp at minus
        rw [if_neg other, if_pos minus]

theorem zoneOffset?_eq_some_iff : zoneOffset? zone = some offset ↔ WritesOffset offset zone := by
  unfold zoneOffset?
  split
  next letter =>
    rw [Option.some.injEq]
    constructor
    · rintro rfl
      rcases letter with rfl | rfl <;> exact .utc (by simp)
    · intro h
      cases h with
      | utc => rfl
      | ahead => simp at letter
      | behind => simp at letter
  next other =>
    simp only [Option.bind_eq_bind, Option.bind_eq_some_iff, Prod.exists, readNumber?_eq_some_iff,
      readMark?_eq_some_iff, readSign?_eq_some_iff, List.mem_singleton, exists_eq_left]
    constructor
    · rintro ⟨sign, _, signed, h, _, ⟨hours, hh, rfl⟩, _, rfl, m, rest, ⟨minutes, hm, rfl⟩, final⟩
      split at final
      next range =>
        obtain ⟨rfl, hour, minute⟩ := range
        cases final
        rw [List.append_nil] at signed
        rcases signed with ⟨rfl, rfl⟩ | ⟨rfl, mark, minus, rfl⟩
        · rw [Int.one_mul]
          exact .ahead hh hm hour minute
        · rw [Int.neg_one_mul]
          exact .behind minus hh hm hour minute
      next => simp at final
    · intro h
      cases h with
      | utc letter => exact absurd (by simpa using letter) other
      | ahead hh hm hour minute =>
        refine ⟨1, _, Or.inl ⟨rfl, rfl⟩, _, _, ⟨_, hh, rfl⟩, _, rfl, _, [], ⟨_, hm, ?_⟩, ?_⟩
        · rw [List.append_nil]
        · rw [if_pos ⟨rfl, hour, minute⟩, Int.one_mul]
      | behind minus hh hm hour minute =>
        refine ⟨-1, _, Or.inr ⟨rfl, _, minus, rfl⟩, _, _, ⟨_, hh, rfl⟩, _, rfl, _, [],
          ⟨_, hm, ?_⟩, ?_⟩
        · rw [List.append_nil]
        · rw [if_pos ⟨rfl, hour, minute⟩, Int.neg_one_mul]

theorem fractionNanos_lt (decimal : ∀ c ∈ digits, c.isDigit) : fractionNanos digits < 1000000000 :=
  Nat.div_lt_of_lt_mul (Nat.mul_lt_mul_of_pos_right (ofDigitChars_lt decimal) (by decide))

theorem fractionNanos_of_short (short : digits.length ≤ 9) :
    fractionNanos digits = Nat.ofDigitChars 10 digits 0 * 10 ^ (9 - digits.length) := by
  have billion : 1000000000 = 10 ^ (9 - digits.length) * 10 ^ digits.length := by
    rw [← Nat.pow_add, Nat.sub_add_cancel short]
  rw [fractionNanos, billion, ← Nat.mul_assoc, Nat.mul_div_cancel _ (Nat.pow_pos (by decide))]

/-- Digits after the ninth are less than one nanosecond. -/
theorem fractionNanos_append {more : List Char} (nine : digits.length = 9)
    (decimal : ∀ c ∈ more, c.isDigit) :
    fractionNanos (digits ++ more) = Nat.ofDigitChars 10 digits 0 := by
  have value : Nat.ofDigitChars 10 (digits ++ more) 0 =
      Nat.ofDigitChars 10 more 0 + Nat.ofDigitChars 10 digits 0 * 10 ^ more.length := by
    rw [Nat.ofDigitChars_append, ofDigitChars_eq, Nat.add_comm]
  have unit : 10 ^ (digits ++ more).length = 10 ^ more.length * 1000000000 := by
    rw [List.length_append, nine, Nat.pow_add, Nat.mul_comm]
  rw [fractionNanos, value, unit, Nat.mul_div_mul_right _ _ (by decide),
    Nat.add_mul_div_right _ _ (Nat.pow_pos (by decide)), Nat.div_eq_of_lt (ofDigitChars_lt decimal),
    Nat.zero_add]

/-- Nine digits, with zeros behind those that there are, count the nanoseconds. -/
theorem ofDigitChars_take_nine (decimal : ∀ c ∈ digits, c.isDigit) :
    Nat.ofDigitChars 10 ((digits ++ List.replicate 9 '0').take 9) 0 = fractionNanos digits := by
  rcases Nat.le_total digits.length 9 with short | long
  · have filled : (digits ++ List.replicate 9 '0').take 9 =
        digits ++ List.replicate (9 - digits.length) '0' := by
      rw [List.take_append, List.take_of_length_le short, List.take_replicate,
        Nat.min_eq_left (Nat.sub_le _ _)]
    rw [filled, Nat.ofDigitChars_append, Nat.ofDigitChars_replicate_zero,
      fractionNanos_of_short short, Nat.mul_comm]
  · have beyond : ∀ c ∈ digits.drop 9, c.isDigit := fun c hc => decimal c (List.mem_of_mem_drop hc)
    rw [List.take_append_of_le_length long,
      ← fractionNanos_append (List.length_take_of_le long) beyond, List.take_append_drop]

theorem readFraction?_sound (h : readFraction? text = some (nanos, rest)) :
    ∃ digits part, WritesFraction digits part ∧ text = part ++ rest ∧
      nanos = fractionNanos digits := by
  unfold readFraction? at h
  split at h
  next digits =>
    dsimp only at h
    split at h
    next => simp at h
    next nonempty =>
      have decimal : ∀ c ∈ digits.takeWhile Char.isDigit, c.isDigit :=
        fun c hc => List.mem_takeWhile_imp hc
      rw [ofDigitChars_take_nine decimal] at h
      cases h
      exact ⟨_, _, .digits nonempty decimal, by simp, rfl⟩
  next =>
    cases h
    exact ⟨[], [], .none, rfl, rfl⟩

/-- What is no digit ends a row of digits. -/
theorem span_digits (decimal : ∀ c ∈ digits, c.isDigit)
    (parted : ∀ c ∈ rest.head?, c.isDigit = false) :
    (digits ++ rest).takeWhile Char.isDigit = digits ∧
      (digits ++ rest).dropWhile Char.isDigit = rest := by
  rw [List.takeWhile_append_of_pos decimal, List.dropWhile_append_of_pos decimal]
  cases rest with
  | nil => simp
  | cons c rest =>
    have other : ¬ c.isDigit := by simpa using parted c rfl
    rw [List.takeWhile_cons_of_neg other, List.dropWhile_cons_of_neg other, List.append_nil]
    exact ⟨rfl, rfl⟩

theorem readFraction?_complete (written : WritesFraction digits part)
    (parted : ∀ c ∈ rest.head?, c.isDigit = false ∧ c ≠ '.') :
    readFraction? (part ++ rest) = some (fractionNanos digits, rest) := by
  cases written with
  | none =>
    unfold readFraction?
    split
    next point =>
      rw [List.nil_append] at point
      simp [point] at parted
    next => rfl
  | digits nonempty decimal =>
    obtain ⟨whole, after⟩ := span_digits decimal fun c hc => (parted c hc).1
    simp only [List.cons_append, readFraction?, whole, after, if_neg nonempty,
      ofDigitChars_take_nine decimal]

theorem WritesFraction.decimal (h : WritesFraction digits part) : ∀ c ∈ digits, c.isDigit := by
  cases h with
  | none => simp
  | digits _ decimal => exact decimal

theorem WritesOffset.parted (h : WritesOffset offset zone) :
    ∀ c ∈ zone.head?, c.isDigit = false ∧ c ≠ '.' := by
  intro c hc
  cases h with
  | utc letter =>
    cases hc
    simp only [List.mem_cons, List.not_mem_nil, or_false] at letter
    rcases letter with rfl | rfl <;> decide
  | ahead =>
    cases hc
    decide
  | behind minus =>
    cases hc
    simp only [List.mem_cons, List.not_mem_nil, or_false] at minus
    rcases minus with rfl | rfl <;> decide

end Readers

theorem Instant.ofClock?_eq_some_iff {minute : Minute} {second nanosecond : Nat}
    {instant : Instant} :
    ofClock? minute second nanosecond = some instant ↔
      second ≤ 60 ∧ instant.minute = minute ∧ instant.second = min second 59 ∧
        instant.nanosecond = nanosecond + if second = 60 then 1000000000 else 0 := by
  have last := instant.second_le
  rw [ofClock?]
  by_cases leap : second = 60
  · rw [if_pos leap, if_pos leap, of?_eq_some_iff]
    constructor
    · rintro ⟨rfl, hs, hn⟩
      exact ⟨by omega, rfl, by omega, hn⟩
    · rintro ⟨-, rfl, hs, hn⟩
      exact ⟨rfl, by omega, hn⟩
  · rw [if_neg leap, if_neg leap, of?_eq_some_iff, Nat.add_zero]
    constructor
    · rintro ⟨rfl, hs, hn⟩
      exact ⟨by omega, rfl, by omega, hn⟩
    · rintro ⟨high, rfl, hs, hn⟩
      exact ⟨rfl, by omega, hn⟩

/-- The instant of a time stamp is found where its date and its clock time exist. -/
theorem Stamp.names_iff {stamp : Stamp} {instant : Instant} :
    (∃ minute, Minute.ofCivil? stamp.year stamp.month stamp.day stamp.hour stamp.minute =
        some minute ∧
      Instant.ofClock? minute stamp.second (fractionNanos stamp.fraction) = some instant) ↔
    stamp.Exists ∧ stamp.Names instant := by
  constructor
  · rintro ⟨minute, hm, hi⟩
    obtain ⟨last, rfl, hs, hn⟩ := Instant.ofClock?_eq_some_iff.mp hi
    obtain ⟨hy, hmo, hd, hh, hmin⟩ := Minute.ofCivil?_eq_some_iff.mp hm
    have positive := instant.minute.date.day_pos
    have inside := instant.minute.date.day_le
    have := instant.minute.hour_lt
    have := instant.minute.minute_lt
    rw [hd] at positive
    rw [hy, hmo, hd] at inside
    exact ⟨⟨⟨positive, inside⟩, by omega, by omega, last⟩, hy, hmo, hd, hh, hmin, hs, hn⟩
  · rintro ⟨⟨-, -, -, last⟩, hy, hmo, hd, hh, hmin, hs, hn⟩
    exact ⟨instant.minute, Minute.ofCivil?_eq_some_iff.mpr ⟨hy, hmo, hd, hh, hmin⟩,
      Instant.ofClock?_eq_some_iff.mpr ⟨last, rfl, hs, hn⟩⟩

theorem Instant.ofText?_eq_some_iff {text : List Char} {instant : Instant} {offset : Int} :
    ofText? text = some (instant, offset) ↔
      ∃ stamp : Stamp, stamp.Tells offset text ∧ stamp.Exists ∧ stamp.Names instant := by
  simp only [ofText?, Option.bind_eq_bind, Option.bind_eq_some_iff, Prod.exists,
    readTriple?_eq_some_iff, readMark?_eq_some_iff, zoneOffset?_eq_some_iff, Option.some.injEq,
    Prod.mk.injEq]
  constructor
  · rintro ⟨y, m, d, _, ⟨date, hd, rfl⟩, _, ⟨mark, hmark, rfl⟩, h, min, s, _, ⟨time, ht, rfl⟩,
      nanos, zone, fraction, _, hz, minute, hminute, _, hinstant, rfl, rfl⟩
    obtain ⟨digits, part, hf, rfl, rfl⟩ := readFraction?_sound fraction
    let stamp : Stamp := ⟨y, m, d, h, min, s, digits⟩
    exact ⟨stamp, ⟨mark, hmark, zone, hz, .parts hd ht hf⟩,
      Stamp.names_iff.mp ⟨minute, hminute, hinstant⟩⟩
  · rintro ⟨stamp, ⟨mark, hmark, zone, hz, ⟨hd, ht, hf⟩⟩, named⟩
    obtain ⟨minute, hminute, hinstant⟩ := Stamp.names_iff.mpr named
    exact ⟨_, _, _, _, ⟨_, hd, rfl⟩, _, ⟨mark, hmark, rfl⟩, _, _, _, _, ⟨_, ht, rfl⟩, _, _,
      readFraction?_complete hf hz.parted, _, hz, minute, hminute, instant, hinstant, rfl, rfl⟩

end CronTimes
