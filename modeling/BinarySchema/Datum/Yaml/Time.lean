import BinarySchema.Calendar

/-!
# Times in YAML

A plain scalar can be a date, or a date and a time of day. What has the form of one need not exist:
the form is read first, and its numbers are checked when its value is asked for.
-/

namespace BinarySchema.Datum.Yaml

/-- The form of a time of day. The offset is in minutes. -/
structure Clock where
  hour : Nat
  minute : Nat
  second : Nat
  fraction : List Char := []
  offset : Option Int := none
  deriving DecidableEq, Repr

structure Time where
  year : Nat
  month : Nat
  day : Nat
  clock : Option Clock := none
  deriving DecidableEq, Repr

namespace Time

/-! ### Forms -/

def number (digits : List Char) : Nat :=
  digits.foldl (fun n c => n * 10 + (c.toNat - '0'.toNat)) 0

/-- Takes a number of between `least` and `most` digits off the head. -/
def takeNumber (least most : Nat) (chars : List Char) : Option (Nat × List Char) :=
  let digits := (chars.take most).takeWhile Char.isDigit
  if digits.length < least then none else some (number digits, chars.drop digits.length)

def takeChar (expected : Char) : List Char → Option (List Char)
  | [] => none
  | c :: rest => if c = expected then some rest else none

def isSpaceOrTab (c : Char) : Bool := c = ' ' || c = '\t'

def offsetMinutes? (chars : List Char) : Option Nat := do
  let (hours, rest) ← takeNumber 1 2 chars
  if rest.isEmpty then return hours * 60
  let (minutes, rest) ← takeNumber 2 2 (← takeChar ':' rest)
  if rest.isEmpty then return hours * 60 + minutes else none

/-- What may follow a time of day: its offset, behind spaces or not. -/
def offset? (chars : List Char) : Option (Option Int) :=
  if chars.isEmpty then some none
  else match chars.dropWhile isSpaceOrTab with
    | ['Z'] => some (some 0)
    | '+' :: rest => (offsetMinutes? rest).map fun minutes => some (minutes : Int)
    | '-' :: rest => (offsetMinutes? rest).map fun minutes => some (-(minutes : Int))
    | _ => none

def takeDaySeparator : List Char → Option (List Char)
  | 'T' :: rest => some rest
  | 't' :: rest => some rest
  | c :: rest => if isSpaceOrTab c then some (rest.dropWhile isSpaceOrTab) else none
  | [] => none

def clock? (chars : List Char) : Option Clock := do
  let (hour, rest) ← takeNumber 1 2 chars
  let (minute, rest) ← takeNumber 2 2 (← takeChar ':' rest)
  let (second, rest) ← takeNumber 2 2 (← takeChar ':' rest)
  match rest with
  | '.' :: rest =>
    let offset ← offset? (rest.dropWhile Char.isDigit)
    return { hour, minute, second, fraction := rest.takeWhile Char.isDigit, offset }
  | _ => return { hour, minute, second, offset := ← offset? rest }

/-- Reads the form of a date, whose numbers have all their digits, or of a time, on whose date month
and day may have one digit. -/
def ofChars? (chars : List Char) : Option Time := do
  let (year, rest) ← takeNumber 4 4 chars
  let (month, rest) ← takeNumber 1 2 (← takeChar '-' rest)
  let (day, rest) ← takeNumber 1 2 (← takeChar '-' rest)
  if rest.isEmpty then if chars.length = 10 then return { year, month, day } else none
  return { year, month, day, clock := some (← clock? (← takeDaySeparator rest)) }

/-- Microseconds are the first six digits behind the point. -/
def microseconds (clock : Clock) : Nat :=
  let digits := clock.fraction.take 6
  number (digits ++ List.replicate (6 - digits.length) '0')

end Time

end BinarySchema.Datum.Yaml
