import CronTimes.Proofs.StampGrammar

namespace CronTimes

/-- Digits of a fraction in groups of three, no more of them than its nanoseconds need. -/
structure IsShortest (digits : List Char) : Prop where
  decimal : ∀ c ∈ digits, c.isDigit
  groups : digits.length ∈ [0, 3, 6, 9]
  least : ∀ other : List Char, (∀ c ∈ other, c.isDigit) → other.length ∈ [0, 3, 6, 9] →
    fractionNanos other = fractionNanos digits → digits.length ≤ other.length

/-- How an instant is rendered: in UTC, with as short a fraction of a second as holds it. -/
def Instant.Renders (instant : Instant) (text : List Char) : Prop :=
  ∃ stamp : Stamp, stamp.Writes 'T' ['+', '0', '0', ':', '0', '0'] text ∧ stamp.Exists ∧
    stamp.Names instant ∧ IsShortest stamp.fraction

section Fractions

variable {digits other : List Char} {width value nanos : Nat}

theorem le_nine_of_groups (groups : width ∈ [0, 3, 6, 9]) : width ≤ 9 := by
  simp only [List.mem_cons, List.not_mem_nil, or_false] at groups
  omega

theorem IsShortest.unique (h : IsShortest digits) (h' : IsShortest other)
    (same : fractionNanos digits = fractionNanos other) : digits = other := by
  have lengths : digits.length = other.length :=
    Nat.le_antisymm (h.least other h'.decimal h'.groups same.symm)
      (h'.least digits h.decimal h.groups same)
  have short := le_nine_of_groups h.groups
  rw [fractionNanos_of_short short, fractionNanos_of_short (lengths ▸ short), lengths] at same
  have values := Nat.eq_of_mul_eq_mul_right (Nat.pow_pos (by decide)) same
  exact (digits_eq_of_value h.decimal h'.decimal lengths values).2

theorem fractionNanos_padded (positive : 0 < width) (nine : width ≤ 9) (small : value < 10 ^ width) :
    fractionNanos (padded width value) = value * 10 ^ (9 - width) := by
  obtain ⟨length, -, -, number⟩ := isDigits_padded positive small
  have short : (padded width value).length ≤ 9 := by omega
  rw [fractionNanos_of_short short, length, number]

/-- A fraction is as short as can be where a group less leaves a rest. -/
theorem isShortest_padded {shorter : Nat} (groups : shorter + 3 ∈ [0, 3, 6, 9])
    (small : value < 10 ^ (shorter + 3))
    (rest : ¬ 10 ^ (9 - shorter) ∣ value * 10 ^ (9 - (shorter + 3))) :
    IsShortest (padded (shorter + 3) value) := by
  obtain ⟨length, -, decimal, -⟩ := isDigits_padded (Nat.succ_pos _) small
  have nanos := fractionNanos_padded (Nat.succ_pos _) (le_nine_of_groups groups) small
  refine ⟨decimal, ?_, ?_⟩
  · rwa [length]
  · intro other _ groups' same
    rw [length]
    -- A group less makes the unit of a fraction too large for what the last group holds.
    by_contra few
    have less : other.length ≤ shorter := by
      simp only [List.mem_cons, List.not_mem_nil, or_false] at groups groups'
      omega
    apply rest
    rw [← nanos, ← same, fractionNanos_of_short (le_nine_of_groups groups')]
    exact Dvd.dvd.mul_left (Nat.pow_dvd_pow 10 (Nat.sub_le_sub_left less 9)) _

theorem fractionText_shortest (small : nanos < 1000000000) :
    ∃ digits, WritesFraction digits (fractionText nanos) ∧ IsShortest digits ∧
      fractionNanos digits = nanos := by
  have written {shorter value : Nat} (groups : shorter + 3 ∈ [0, 3, 6, 9])
      (fits : value < 10 ^ (shorter + 3)) (whole : value * 10 ^ (9 - (shorter + 3)) = nanos)
      (rest : ¬ 10 ^ (9 - shorter) ∣ nanos) :
      ∃ digits, WritesFraction digits ('.' :: padded (shorter + 3) value) ∧ IsShortest digits ∧
        fractionNanos digits = nanos :=
    ⟨padded (shorter + 3) value, .digits isNumeral_padded.1 isNumeral_padded.2.1,
      isShortest_padded groups fits (whole ▸ rest),
      whole ▸ fractionNanos_padded (Nat.succ_pos _) (le_nine_of_groups groups) fits⟩
  unfold fractionText
  split
  next zero => exact ⟨[], .none, ⟨by simp, by simp, by simp⟩, zero.symm⟩
  next positive =>
    split
    next millis => exact written (by decide) (by omega) (by omega) (by omega)
    next no_millis =>
      split
      next micros => exact written (by decide) (by omega) (by omega) (by omega)
      next no_micros => exact written (by decide) small (by simp) (by omega)

end Fractions

section Writing

variable {width first second third : Nat} {mark : Char} {text other digits zone : List Char}
  {stamp : Stamp}

theorem WritesTriple.unique (h : WritesTriple width mark first second third text)
    (h' : WritesTriple width mark first second third other) : text = other := by
  obtain ⟨h₁, h₂, h₃⟩ := h
  obtain ⟨h₁', h₂', h₃'⟩ := h'
  rw [h₁.unique h₁', h₂.unique h₂', h₃.unique h₃']

theorem WritesFraction.unique (h : WritesFraction digits text) (h' : WritesFraction digits other) :
    text = other := by
  cases h with
  | none => cases h' with
    | none => rfl
    | digits nonempty => exact absurd rfl nonempty
  | digits nonempty => cases h' with
    | none => exact absurd rfl nonempty
    | digits => rfl

/-- A time stamp is written in one way, up to the mark and the zone. -/
theorem Stamp.Writes.unique (h : stamp.Writes mark zone text) (h' : stamp.Writes mark zone other) :
    text = other := by
  obtain ⟨hd, ht, hf⟩ := h
  obtain ⟨hd', ht', hf'⟩ := h'
  rw [hd.unique hd', ht.unique ht', hf.unique hf']

theorem writesTriple_padded (positive : 0 < width) (h₁ : first < 10 ^ width) (h₂ : second < 10 ^ 2)
    (h₃ : third < 10 ^ 2) :
    WritesTriple width mark first second third
      (padded width first ++ mark :: padded 2 second ++ mark :: padded 2 third) := by
  rw [List.append_assoc, List.cons_append]
  exact .parts (isDigits_padded positive h₁) (isDigits_padded (by decide) h₂)
    (isDigits_padded (by decide) h₃)

end Writing

namespace Instant

variable {instant : Instant}

/-- The time stamp of an instant, with the digits of its fraction of a second. -/
def stamp (instant : Instant) (fraction : List Char) : Stamp where
  year := instant.minute.date.year.toNat
  month := instant.minute.date.month
  day := instant.minute.date.day
  hour := instant.minute.hour
  minute := instant.minute.minute
  second := instant.second + instant.nanosecond / 1000000000
  fraction := fraction

/-- A leap second is the one whole second that an instant may carry in its nanoseconds. -/
theorem leap_iff {second nanos : Nat} (small : nanos < 1000000000) :
    (second ≤ 60 ∧ instant.second = min second 59 ∧
      instant.nanosecond = nanos + if second = 60 then 1000000000 else 0) ↔
    second = instant.second + instant.nanosecond / 1000000000 ∧
      nanos = instant.nanosecond % 1000000000 := by
  have := instant.second_le
  have := instant.nanosecond_lt
  have := instant.leap_only_at_end
  by_cases leap : second = 60
  · rw [if_pos leap]
    omega
  · rw [if_neg leap]
    omega

theorem stamp_names {fraction : List Char} (decimal : ∀ c ∈ fraction, c.isDigit)
    (positive : 0 ≤ instant.minute.date.year)
    (nanos : fractionNanos fraction = instant.nanosecond % 1000000000) :
    (instant.stamp fraction).Exists ∧ (instant.stamp fraction).Names instant := by
  have same : (instant.minute.date.year.toNat : Int) = instant.minute.date.year :=
    Int.toNat_of_nonneg positive
  have inside : instant.minute.date.day ≤
      monthLength instant.minute.date.year.toNat instant.minute.date.month := by
    rw [same]
    exact instant.minute.date.day_le
  obtain ⟨last, hs, hn⟩ := (leap_iff (fractionNanos_lt decimal)).mpr ⟨rfl, nanos⟩
  exact ⟨⟨⟨instant.minute.date.day_pos, inside⟩, Nat.le_of_lt_succ instant.minute.hour_lt,
    Nat.le_of_lt_succ instant.minute.minute_lt, last⟩, same.symm, rfl, rfl, rfl, rfl, hs, hn⟩

theorem stamp_of_names {stamp : Stamp} (decimal : ∀ c ∈ stamp.fraction, c.isDigit)
    (exist : stamp.Exists) (names : stamp.Names instant) :
    stamp = instant.stamp stamp.fraction ∧
      fractionNanos stamp.fraction = instant.nanosecond % 1000000000 := by
  obtain ⟨hy, hm, hd, hh, hmin, hs, hn⟩ := names
  obtain ⟨seconds, nanos⟩ := (leap_iff (fractionNanos_lt decimal)).mp ⟨exist.2.2.2, hs, hn⟩
  refine ⟨?_, nanos⟩
  rw [Instant.stamp, ← seconds, hy, hm, hd, hh, hmin, Int.toNat_natCast]

theorem text_writes {fraction : List Char} (positive : 0 ≤ instant.minute.date.year)
    (four : instant.minute.date.year ≤ 9999)
    (written : WritesFraction fraction (fractionText (instant.nanosecond % 1000000000))) :
    (instant.stamp fraction).Writes 'T' ['+', '0', '0', ':', '0', '0'] instant.text := by
  have := instant.second_le
  have := instant.nanosecond_lt
  have := instant.minute.hour_lt
  have := instant.minute.minute_lt
  have := instant.minute.date.month_bounds
  have := instant.minute.date.day_le_31
  have hd : WritesTriple 4 '-' instant.minute.date.year.toNat instant.minute.date.month
      instant.minute.date.day instant.minute.date.text := by
    rw [Date.text, yearText, if_pos ⟨positive, four⟩]
    exact writesTriple_padded (by decide) (by omega) (by omega) (by omega)
  have ht : WritesTriple 2 ':' instant.minute.hour instant.minute.minute
      (instant.second + instant.nanosecond / 1000000000)
      (clockText instant.minute.hour instant.minute.minute
        (instant.second + instant.nanosecond / 1000000000)) := by
    rw [clockText]
    exact writesTriple_padded (by decide) (by omega) (by omega) (by omega)
  rw [Instant.text, List.append_assoc, List.append_assoc, List.cons_append]
  exact .parts hd ht written

/-- The time stamp of an instant is the one text that renders it. -/
theorem renders_iff {text : List Char} (positive : 0 ≤ instant.minute.date.year)
    (four : instant.minute.date.year ≤ 9999) :
    instant.Renders text ↔ text = instant.text := by
  obtain ⟨digits, written, short, nanos⟩ :=
    fractionText_shortest (Nat.mod_lt instant.nanosecond (by decide : 1000000000 > 0))
  constructor
  · rintro ⟨stamp, writes, exist, names, short'⟩
    obtain ⟨same, nanos'⟩ := stamp_of_names short'.decimal exist names
    rw [short'.unique short (nanos'.trans nanos.symm)] at same
    exact Stamp.Writes.unique (same ▸ writes) (text_writes positive four written)
  · rintro rfl
    obtain ⟨exist, names⟩ := stamp_names short.decimal positive nanos
    exact ⟨instant.stamp digits, text_writes positive four written, exist, names, short⟩

end Instant

end CronTimes
