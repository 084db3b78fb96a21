namespace CronTimes

/-- The largest number a progression can reach. -/
def progressionCeiling : Nat := 65535

/-- An ascending arithmetic progression that is read off one number at a time. -/
structure Progression where
  upcoming : Option Nat
  last : Nat
  step : Nat
deriving DecidableEq, Repr

def Progression.start? (first last step : Nat) : Option Progression :=
  if first ≤ last ∧ 0 < step then some ⟨some first, last, step⟩ else none

/-- The next number, if there is one, and what remains after it. Nothing lies past the ceiling. -/
def Progression.pull (p : Progression) : Option Nat × Progression :=
  match p.upcoming with
  | none => (none, p)
  | some value =>
    if value ≤ p.last then
      let following := value + p.step
      let upcoming := if following ≤ progressionCeiling then some following else none
      (some value, { p with upcoming })
    else (none, p)

/-- At most `count` numbers and what remains after them. -/
def Progression.take : Nat → Progression → List Nat × Progression
  | 0, p => ([], p)
  | count + 1, p =>
    match p.pull with
    | (none, rest) => ([], rest)
    | (some value, rest) =>
      let (values, rest) := rest.take count
      (value :: values, rest)

/-- All numbers of the progression. None exceeds `last`, so there are at most `last + 1`. -/
def Progression.values (p : Progression) : List Nat :=
  (p.take (p.last + 1)).1

end CronTimes
