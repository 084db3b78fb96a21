namespace CronTimes

/-- The value of a text that consists of ASCII digits only, at least one. Leading zeros count for
nothing. -/
def number? (text : List Char) : Option Nat :=
  if text ≠ [] ∧ text.all Char.isDigit then some (Nat.ofDigitChars 10 text 0) else none

/-- A digit string whose value lies in `[least, greatest]`. -/
def boundedNumber? (least greatest : Nat) (text : List Char) : Option Nat :=
  (number? text).filter fun value => least ≤ value && value ≤ greatest

/-- Decimal digits, filled up with zeros on the left; a number that needs more digits is written
in full. -/
def padded (width value : Nat) : List Char :=
  List.leftpad width '0' (Nat.toDigits 10 value)

theorem number?_eq_some_iff {text : List Char} {value : Nat} :
    number? text = some value ↔
      text ≠ [] ∧ (∀ c ∈ text, c.isDigit) ∧ Nat.ofDigitChars 10 text 0 = value := by
  simp [number?, and_assoc]

theorem boundedNumber?_eq_some_iff {least greatest : Nat} {text : List Char} {value : Nat} :
    boundedNumber? least greatest text = some value ↔
      number? text = some value ∧ least ≤ value ∧ value ≤ greatest := by
  simp [boundedNumber?, Option.filter_eq_some_iff]

/-- Padding never changes the value that is read back. -/
theorem number?_padded {width value : Nat} : number? (padded width value) = some value := by
  rw [number?_eq_some_iff]
  refine ⟨?_, ?_, ?_⟩
  · simp [padded, List.leftpad, Nat.toDigits_ne_nil]
  · intro c hc
    rcases List.mem_append.mp hc with zero | digit
    · rw [List.eq_of_mem_replicate zero]
      rfl
    · exact Nat.isDigit_of_mem_toDigits (by decide) (by decide) digit
  · rw [padded, List.leftpad, Nat.ofDigitChars_append, Nat.ofDigitChars_replicate_zero,
      Nat.mul_zero, Nat.ofDigitChars_ten_toDigits]

end CronTimes
