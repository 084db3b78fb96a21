import CronTimes.Schedule

namespace CronTimes

/-- A JSON value. A decimal stands for `mantissa / 10 ^ places`. -/
inductive JsonValue
  | null
  | boolean (value : Bool)
  | integer (value : Int)
  | decimal (mantissa : Int) (places : Nat)
  | text (value : String)
  | sequence (items : List JsonValue)
  | map (members : List (String × JsonValue))
deriving Inhabited

/-- Decimals without trailing zeros, but with one digit after the point at least. -/
def decimalText (mantissa : Int) (places : Nat) : String :=
  let digits := padded (places + 1) mantissa.natAbs
  let whole := digits.take (digits.length - places)
  let fraction := ((digits.drop (digits.length - places)).reverse.dropWhile (· == '0')).reverse
  (if mantissa < 0 then "-" else "") ++ String.ofList whole ++ "." ++
    String.ofList (if fraction = [] then ['0'] else fraction)

/-- What a value is, as error texts call it. -/
def JsonValue.kind : JsonValue → String
  | .null => "null"
  | .boolean value => "boolean `" ++ (if value then "true" else "false") ++ "`"
  | .integer value => "integer `" ++ toString value ++ "`"
  | .decimal mantissa places => "floating point `" ++ decimalText mantissa places ++ "`"
  | .text _ => "string"
  | .sequence _ => "sequence"
  | .map _ => "map"

/-- Why a JSON value is no schedule. -/
inductive JsonError
  | notText (value : JsonValue)
  | schedule (error : CronError)

def JsonError.message : JsonError → String
  | .notText value => "invalid type: " ++ value.kind ++ ", expected a string"
  | .schedule error => error.message

/-- A schedule is the text of its expression. -/
def Schedule.ofJson : JsonValue → Except JsonError Schedule
  | .text text =>
    match Schedule.parse text with
    | .ok schedule => .ok schedule
    | .error error => .error (.schedule error)
  | value => .error (.notText value)

/-- A character within a JSON text. The quotation mark, the backslash and control characters are
escaped. -/
def escaped (c : Char) : List Char :=
  if c = '"' then ['\\', '"']
  else if c = '\\' then ['\\', '\\']
  else if c.toNat = 0x8 then ['\\', 'b']
  else if c.toNat = 0x9 then ['\\', 't']
  else if c.toNat = 0xA then ['\\', 'n']
  else if c.toNat = 0xC then ['\\', 'f']
  else if c.toNat = 0xD then ['\\', 'r']
  else if c.toNat < 0x20 then
    ['\\', 'u', '0', '0', Nat.digitChar (c.toNat / 16), Nat.digitChar (c.toNat % 16)]
  else [c]

def quoted (text : String) : String :=
  String.ofList ('"' :: text.toList.flatMap escaped ++ ['"'])

/-- The JSON text of a schedule. -/
def Schedule.json (schedule : Schedule) : String :=
  quoted (toString schedule)

end CronTimes
