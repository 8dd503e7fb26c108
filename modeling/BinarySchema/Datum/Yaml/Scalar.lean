import BinarySchema.Datum.Yaml.Plain
import BinarySchema.Number.Quantity

/-!
# Values of plain scalars

What a plain scalar stands for, once its meaning is known. Numbers may have underscores between
their digits; an integer is binary after `0b`, hexadecimal after `0x` and octal after any other
leading zero, and colons separate the places of a number in base sixty. The places of a double are
doubles themselves and are added up one after the other, so each step rounds.
-/

namespace BinarySchema.Datum.Yaml

/-- Why a plain scalar has no value although its form is right. -/
inductive ScalarFault where
  | numeral (base : Nat) (fault : Number.NumeralFault)
  | calendar (fault : CalendarFault)
  /-- The scale of a place in base sixty is too large for a double. -/
  | beyondDoubles
  /-- A mark of YAML stands where a value should. -/
  | mark
  deriving DecidableEq, Repr

namespace ScalarFault

def message : ScalarFault → String
  | .numeral _ (.tooLong digits) => Number.tooLongToRead digits
  | .numeral base .malformed => s!"invalid literal for int() with base {base}: ''"
  | .calendar fault => fault.message
  | .beyondDoubles => "int too large to convert to float"
  | .mark => "a mark is no value"

def isAboutNumbers : ScalarFault → Bool
  | .numeral .. | .calendar _ => true
  | .beyondDoubles | .mark => false

end ScalarFault

/-! ### Integers -/

def ungrouped (chars : List Char) : List Char :=
  chars.filter (· != '_')

def isNegative (chars : List Char) : Bool :=
  chars.head? = some '-'

def integer (base : Nat) (digits : List Char) : Except ScalarFault Int :=
  (Number.readInteger base digits).mapError (.numeral base)

/-- The places of a number in base sixty as one number. -/
def sixties (places : List (List Char)) : Except ScalarFault Int := do
  let values ← places.mapM (integer 10)
  return values.foldl (fun n place => n * 60 + place) 0

def intValue (chars : List Char) : Except ScalarFault Int := do
  let digits := unsigned (ungrouped chars)
  let magnitude ← match digits with
    | '0' :: 'b' :: rest => integer 2 rest
    | '0' :: 'x' :: rest => integer 16 rest
    | '0' :: _ => integer 8 digits
    | _ => sixties (Text.splitOn ':' digits)
  return if isNegative chars then -magnitude else magnitude

/-! ### Doubles -/

def exponentValue : List Char → Int
  | _ :: sign :: digits =>
    if sign = '-' then -(Time.number digits : Int) else Time.number digits
  | _ => 0

/-- The double nearest to a decimal number with or without a fraction and an exponent. -/
def decimalDouble (chars : List Char) : Number.Double :=
  let whole := chars.takeWhile Char.isDigit
  let rest := (chars.dropWhile Char.isDigit).drop 1
  let fraction := rest.takeWhile Char.isDigit
  let exponent := exponentValue (rest.dropWhile Char.isDigit)
  .ofDecimal false (Time.number (whole ++ fraction)) (exponent - fraction.length)

/-- Adds places in base sixty, the last of which comes first and has the given scale. -/
def addPlaces (scale : Nat) (sum : Number.Double) :
    List (List Char) → Except ScalarFault Number.Double
  | [] => .ok sum
  | place :: places =>
    match Number.Double.ofInt? scale with
    | none => .error .beyondDoubles
    | some factor => addPlaces (scale * 60) (sum.add ((decimalDouble place).mul factor)) places

def doubleValue (chars : List Char) : Except ScalarFault Number.Double := do
  let body := (unsigned (ungrouped chars)).map Char.toLower
  let magnitude ←
    if body = ".inf".toList then pure (.infinity false)
    else if body = ".nan".toList then pure .nan
    else match Text.splitOn ':' body with
      | [decimal] => pure (decimalDouble decimal)
      | places => addPlaces 1 (.zero false) places.reverse
  return if isNegative chars then magnitude.neg else magnitude

/-! ### Times -/

/-- The date or time of its form, if it exists. The offset is checked before all else of a time. -/
def timeValue (time : Time) : Except CalendarFault Datum :=
  match time.clock with
  | none => (Date.ofNumbers time.year time.month time.day).map .date
  | some clock => do
    if let some minutes := clock.offset then
      if 1440 ≤ minutes.natAbs then throw (.offset minutes)
    let date ← Date.ofNumbers time.year time.month time.day
    let value ← DateTime.ofNumbers date clock.hour clock.minute clock.second
      (Time.microseconds clock) clock.offset
    return .time value

def plainValue (text : String) : Except ScalarFault Datum :=
  match meaning text with
  | .null => .ok .null
  | .bool b => .ok (.bool b)
  | .int => (intValue text.toList).map .int
  | .double => (doubleValue text.toList).map .double
  | .time =>
    match Time.ofChars? text.toList with
    | some form => (timeValue form).mapError .calendar
    | none => .ok (.text text)
  | .text => .ok (.text text)
  | .mark => .error .mark

end BinarySchema.Datum.Yaml
