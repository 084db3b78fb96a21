import CronTimes.Schedule

namespace CronTimes

/-- What reading an expression gives. -/
abbrev Reading := Except CronError Schedule

/-- Schedules rank before errors, and each kind is ranked within itself. -/
def Reading.compare : Reading → Reading → Ordering
  | .ok first, .ok second => Ord.compare first second
  | .ok _, .error _ => .lt
  | .error _, .ok _ => .gt
  | .error first, .error second => Ord.compare first second

def Reading.same : Reading → Reading → Bool
  | .ok first, .ok second => first = second
  | .error first, .error second => first = second
  | _, _ => false

/-- Texts by rank of their readings, each with its place. Equal readings keep their order. -/
def rankTexts (texts : List String) : List (Nat × Reading) :=
  (texts.zipIdx.map fun (text, place) => (place, Schedule.parse text)).mergeSort
    fun first second => (Reading.compare first.2 second.2).isLE

/-- For each neighbouring pair whether the readings are equal. -/
def sameNeighbours : List (Nat × Reading) → List Bool
  | first :: second :: rest => first.2.same second.2 :: sameNeighbours (second :: rest)
  | _ => []

end CronTimes
