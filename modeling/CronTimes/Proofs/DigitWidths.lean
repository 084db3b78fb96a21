import CronTimes.Proofs.Spelling

namespace CronTimes

/-- A number in a given count of digits. -/
def IsDigits (width value : Nat) (text : List Char) : Prop :=
  text.length = width ∧ IsNumeral text value

/-- A number in digits, with zeros in front where it has fewer digits than a width asks for. A longer
text has no more digits than the number needs. -/
def IsFilled (width value : Nat) (text : List Char) : Prop :=
  IsNumeral text value ∧ width ≤ text.length ∧
    (width < text.length → 10 ^ (text.length - 1) ≤ value)

section Digits

variable {text other : List Char} {c d : Char} {width value first second : Nat}

theorem isDigit_value (h : c.isDigit) : c.toNat - '0'.toNat < 10 ∧ '0'.toNat ≤ c.toNat := by
  rw [Char.isDigit_iff_toNat] at h
  simp only [Char.reduceToNat] at h ⊢
  omega

theorem digit_eq (hc : c.isDigit) (hd : d.isDigit)
    (same : c.toNat - '0'.toNat = d.toNat - '0'.toNat) : c = d := by
  have := (isDigit_value hc).2
  have := (isDigit_value hd).2
  exact Char.toNat_inj.mp (by omega)

/-- What stands in front of a text moves up by one place for each of its digits. -/
theorem ofDigitChars_eq (text : List Char) (first : Nat) :
    Nat.ofDigitChars 10 text first = first * 10 ^ text.length + Nat.ofDigitChars 10 text 0 := by
  induction text generalizing first with
  | nil => simp
  | cons c text ih =>
    rw [Nat.ofDigitChars_cons, Nat.ofDigitChars_cons, ih, ih (10 * 0 + _), List.length_cons,
      Nat.pow_succ]
    ring

theorem ofDigitChars_lt (digits : ∀ c ∈ text, c.isDigit) :
    Nat.ofDigitChars 10 text 0 < 10 ^ text.length := by
  induction text with
  | nil => simp
  | cons c text ih =>
    obtain ⟨hc, others⟩ := List.forall_mem_cons.mp digits
    have small := (isDigit_value hc).1
    have rest := ih others
    rw [Nat.ofDigitChars_cons, ofDigitChars_eq, List.length_cons, Nat.pow_succ, Nat.mul_zero,
      Nat.zero_add]
    have : (c.toNat - '0'.toNat) * 10 ^ text.length ≤ 9 * 10 ^ text.length :=
      Nat.mul_le_mul_right _ (by omega)
    omega

/-- Digit strings of one length are told apart by their values, whatever stands in front of them. -/
theorem digits_eq_of_value (digits : ∀ c ∈ text, c.isDigit) (digits' : ∀ c ∈ other, c.isDigit)
    (lengths : text.length = other.length)
    (same : Nat.ofDigitChars 10 text first = Nat.ofDigitChars 10 other second) :
    first = second ∧ text = other := by
  induction text generalizing other first second with
  | nil =>
    cases List.length_eq_zero_iff.mp lengths.symm
    exact ⟨same, rfl⟩
  | cons c text ih =>
    cases other with
    | nil => simp at lengths
    | cons d other =>
      obtain ⟨hc, others⟩ := List.forall_mem_cons.mp digits
      obtain ⟨hd, others'⟩ := List.forall_mem_cons.mp digits'
      rw [Nat.ofDigitChars_cons, Nat.ofDigitChars_cons] at same
      obtain ⟨fronts, rfl⟩ := ih others others' (by simpa using lengths) same
      have := (isDigit_value hc).1
      have := (isDigit_value hd).1
      rw [digit_eq hc hd (by omega)]
      exact ⟨by omega, rfl⟩

theorem IsNumeral.eq_of_length (h : IsNumeral text value) (h' : IsNumeral other value)
    (lengths : text.length = other.length) : text = other :=
  (digits_eq_of_value h.2.1 h'.2.1 lengths (h.2.2.trans h'.2.2.symm)).2

theorem IsNumeral.lt (h : IsNumeral text value) : value < 10 ^ text.length :=
  h.2.2 ▸ ofDigitChars_lt h.2.1

theorem IsDigits.unique (h : IsDigits width value text) (h' : IsDigits width value other) :
    text = other :=
  h.2.eq_of_length h'.2 (h.1.trans h'.1.symm)

theorem isNumeral_padded : IsNumeral (padded width value) value :=
  number?_eq_some_iff_isNumeral.mp number?_padded

theorem length_padded :
    (padded width value).length = max width (Nat.toDigits 10 value).length := by
  rw [padded, List.length_leftpad]

theorem isDigits_padded (positive : 0 < width) (small : value < 10 ^ width) :
    IsDigits width value (padded width value) := by
  refine ⟨?_, isNumeral_padded⟩
  have short := (Nat.length_toDigits_le_iff (by decide) positive).mpr small
  rw [length_padded]
  omega

theorem isFilled_padded (positive : 0 < width) : IsFilled width value (padded width value) := by
  refine ⟨isNumeral_padded, ?_, ?_⟩
  · rw [length_padded]
    omega
  · rw [length_padded]
    intro longer
    have many : ¬ (Nat.toDigits 10 value).length ≤ (Nat.toDigits 10 value).length - 1 := by omega
    rw [Nat.length_toDigits_le_iff (by decide) (by omega)] at many
    rw [Nat.max_eq_right (by omega)]
    omega

/-- There is one way to fill up a number to a width. -/
theorem isFilled_iff (positive : 0 < width) :
    IsFilled width value text ↔ text = padded width value := by
  constructor
  · intro h
    obtain ⟨numeral', wide', tight'⟩ : IsFilled width value (padded width value) :=
      isFilled_padded positive
    obtain ⟨numeral, wide, tight⟩ := h
    -- A longer one of two texts would have more digits than the number needs.
    have not_longer {short long : List Char} (small : IsNumeral short value)
        (wide : width ≤ short.length) (tight : width < long.length → 10 ^ (long.length - 1) ≤ value) :
        long.length ≤ short.length := by
      by_contra longer
      have enough := tight (by omega)
      have := Nat.pow_lt_pow_iff_right (by decide) |>.mp (Nat.lt_of_le_of_lt enough small.lt)
      omega
    exact numeral.eq_of_length numeral'
      (Nat.le_antisymm (not_longer numeral' wide' tight) (not_longer numeral wide tight'))
  · rintro rfl
    exact isFilled_padded positive

end Digits

end CronTimes
