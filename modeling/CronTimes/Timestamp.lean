import CronTimes.CronError
import CronTimes.Instant

namespace CronTimes

/-- A year takes four digits at least. Outside 0 to 9999 it carries a sign. -/
def yearText (year : Int) : List Char :=
  if 0 ≤ year ∧ year ≤ 9999 then padded 4 year.toNat
  else (if year < 0 then '-' else '+') :: padded 4 year.natAbs

def Date.text (date : Date) : List Char :=
  yearText date.year ++ '-' :: padded 2 date.month ++ '-' :: padded 2 date.day

def clockText (hour minute second : Nat) : List Char :=
  padded 2 hour ++ ':' :: padded 2 minute ++ ':' :: padded 2 second

/-- The fraction of a second with 3, 6 or 9 digits, as few as hold it. A zero fraction has none. -/
def fractionText (nanosecond : Nat) : List Char :=
  if nanosecond = 0 then []
  else if nanosecond % 1000000 = 0 then '.' :: padded 3 (nanosecond / 1000000)
  else if nanosecond % 1000 = 0 then '.' :: padded 6 (nanosecond / 1000)
  else '.' :: padded 9 nanosecond

/-- The time stamp of an instant. A leap second is second 60, with a fraction of its own. -/
def Instant.text (instant : Instant) : List Char :=
  instant.minute.date.text ++ 'T' ::
    clockText instant.minute.hour instant.minute.minute
      (instant.second + instant.nanosecond / 1000000000) ++
    fractionText (instant.nanosecond % 1000000000) ++ ['+', '0', '0', ':', '0', '0']

def Instant.timestamp (instant : Instant) : String :=
  String.ofList instant.text

/-- A minute as the search log writes it. -/
def Minute.logText (minute : Minute) : String :=
  String.ofList (minute.date.text ++ ' ' :: clockText minute.hour minute.minute 0)

/-- A number of exactly `width` digits and the text after it. -/
def readNumber? (width : Nat) (text : List Char) : Option (Nat × List Char) :=
  if (text.take width).length = width then
    (number? (text.take width)).map fun value => (value, text.drop width)
  else none

/-- The text after one of the given marks. -/
def readMark? (marks : List Char) : List Char → Option (List Char)
  | [] => none
  | c :: rest => if c ∈ marks then some rest else none

/-- Three numbers with a mark between them, and the text after them. All but the first have two
digits. -/
def readTriple? (width : Nat) (mark : Char) (text : List Char) :
    Option ((Nat × Nat × Nat) × List Char) := do
  let (first, text) ← readNumber? width text
  let text ← readMark? [mark] text
  let (second, text) ← readNumber? 2 text
  let text ← readMark? [mark] text
  let (third, text) ← readNumber? 2 text
  some ((first, second, third), text)

/-- Nanoseconds and the text after them. A fraction has at least one digit; those after the ninth
are read but do not count. -/
def readFraction? (text : List Char) : Option (Nat × List Char) :=
  match text with
  | '.' :: rest =>
    let digits := rest.takeWhile Char.isDigit
    if digits = [] then none
    else
      some (Nat.ofDigitChars 10 ((digits ++ List.replicate 9 '0').take 9) 0,
        rest.dropWhile Char.isDigit)
  | _ => some (0, text)

/-- The sign of an offset and the text after it. -/
def readSign? : List Char → Option (Int × List Char)
  | [] => none
  | c :: rest =>
    if c = '+' then some (1, rest)
    else if c ∈ ['-', '\u2212'] then some (-1, rest)
    else none

/-- By how many seconds a clock is ahead of UTC, as the end of a time stamp gives it. -/
def zoneOffset? (text : List Char) : Option Int :=
  if text = ['Z'] ∨ text = ['z'] then some 0
  else do
    let (sign, text) ← readSign? text
    let (hours, text) ← readNumber? 2 text
    let text ← readMark? [':'] text
    let (minutes, text) ← readNumber? 2 text
    if text = [] ∧ hours ≤ 23 ∧ minutes ≤ 59 then some (sign * ((hours * 60 + minutes) * 60))
    else none

/-- The instant at a second of a minute. Second 60 is a leap second, which any minute may have. -/
def Instant.ofClock? (minute : Minute) (second nanosecond : Nat) : Option Instant :=
  if second = 60 then of? minute 59 (nanosecond + 1000000000)
  else of? minute second nanosecond

/-- Reads a time stamp: its instant by its own clock, and by how many seconds that clock is ahead of
UTC. -/
def Instant.ofText? (text : List Char) : Option (Instant × Int) := do
  let ((year, month, day), text) ← readTriple? 4 '-' text
  let text ← readMark? ['T', 't', ' '] text
  let ((hour, minute, second), text) ← readTriple? 2 ':' text
  let (nanosecond, text) ← readFraction? text
  let offset ← zoneOffset? text
  let minute ← Minute.ofCivil? year month day hour minute
  let instant ← ofClock? minute second nanosecond
  some (instant, offset)

/-- The instant of a time stamp in UTC, by a given reader of time stamps. Another offset is refused
like a text that is no time stamp. -/
def Instant.inUtc (read : String → Option (Instant × Int)) (text : String) :
    Except CronError Instant :=
  match read text with
  | some (instant, offset) => if offset = 0 then .ok instant else .error (.instant text)
  | none => .error (.instant text)

def Instant.parse (text : String) : Except CronError Instant :=
  inUtc (fun text => ofText? text.toList) text

end CronTimes
