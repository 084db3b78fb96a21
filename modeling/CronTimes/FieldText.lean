import CronTimes.CronError
import CronTimes.FieldSet
import CronTimes.Progression

namespace CronTimes

/-- One item of a list: the values `first`, `first + step`, … that do not exceed `last`. -/
structure FieldItem where
  first : Nat
  last : Nat
  step : Nat
deriving DecidableEq, Repr

/-- A range of values; its ends may coincide but not cross. -/
def CronField.range? (field : CronField) (first last : List Char) : Option (Nat × Nat) := do
  let first ← field.value? first
  let last ← field.value? last
  if first ≤ last then some (first, last) else none

/-- The item before a step: everything, a range, or a value from which the steps go on to the
greatest one. -/
def CronField.stepBase? (field : CronField) (text : List Char) : Option (Nat × Nat) :=
  if text = ['*'] then some (field.least, field.greatest)
  else
    match cut? '-' text with
    | some (first, last) => field.range? first last
    | none => (field.value? text).map fun first => (first, field.greatest)

/-- Reads `*`, `v` or `a-b`, each with or without a step. Days of the week take no step. -/
def CronField.item? (field : CronField) (text : List Char) : Option FieldItem :=
  if text = ['*'] then some ⟨field.least, field.greatest, 1⟩
  else
    match cut? '/' text with
    | some (base, step) =>
      if field = .dayOfWeek then none
      else do
        let step ← boundedNumber? 1 field.greatestStep step
        let (first, last) ← field.stepBase? base
        some ⟨first, last, step⟩
    | none =>
      match cut? '-' text with
      | some (first, last) => (field.range? first last).map fun ends => ⟨ends.1, ends.2, 1⟩
      | none => (field.value? text).map fun value => ⟨value, value, 1⟩

def FieldItem.values? (item : FieldItem) : Option (List Nat) :=
  (Progression.start? item.first item.last item.step).map Progression.values

/-- Reads items separated by commas; the field allows the values of all of them. -/
def CronField.set? (field : CronField) (text : List Char) : Option FieldSet := do
  let items ← (text.splitOn ',').mapM field.item?
  let values ← items.mapM FieldItem.values?
  some (FieldSet.ofList values.flatten)

/-- A field is refused as a whole, whichever item is at fault. -/
def CronField.parse (field : CronField) (text : String) : Except CronError FieldSet :=
  match field.set? text.toList with
  | some set => .ok set
  | none => .error (.field field text)

end CronTimes
