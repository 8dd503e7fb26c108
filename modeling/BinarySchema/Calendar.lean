/-!
# Calendar

Dates in the Gregorian calendar, and times of day on them to the microsecond. A time may know by how
many minutes its clock is ahead of universal time; then it is a point in time, and two such times are
the same when their points are.

Time that is counted in seconds begins with 1970 and has no leap seconds.
-/

namespace BinarySchema

structure Date where
  year : Int
  month : Nat
  day : Nat
  deriving DecidableEq, Repr

/-- What a clock shows, in microseconds since its 1970 began. -/
structure DateTime where
  clock : Int
  /-- The minutes by which the clock is ahead of universal time. -/
  offset : Option Int := none
  deriving DecidableEq, Repr

/-! ### Counting days -/

/-- The date a number of days after the first of January 1970. Years are counted from March, so a
leap day is the last day of its year; eras of 400 years all have the same number of days. -/
def Date.ofDays (days : Int) : Date :=
  let shifted := days + 719468
  let era := shifted.fdiv 146097
  let dayOfEra := (shifted - era * 146097).toNat
  let yearOfEra := (dayOfEra - dayOfEra / 1460 + dayOfEra / 36524 - dayOfEra / 146096) / 365
  let dayOfYear := dayOfEra - (365 * yearOfEra + yearOfEra / 4 - yearOfEra / 100)
  let marchMonth := (5 * dayOfYear + 2) / 153
  let day := dayOfYear - (153 * marchMonth + 2) / 5 + 1
  let month := if marchMonth < 10 then marchMonth + 3 else marchMonth - 9
  let year : Int := yearOfEra + era * 400
  ⟨if month ≤ 2 then year + 1 else year, month, day⟩

/-- The number of days from the first of January 1970. -/
def Date.toDays (date : Date) : Int :=
  let year := if date.month ≤ 2 then date.year - 1 else date.year
  let era := year.fdiv 400
  let yearOfEra := year - era * 400
  let marchMonth : Int := if date.month ≤ 2 then date.month + 9 else date.month - 3
  let dayOfYear := (153 * marchMonth + 2) / 5 + date.day - 1
  era * 146097 + yearOfEra * 365 + yearOfEra / 4 - yearOfEra / 100 + dayOfYear - 719468

namespace DateTime

def perMinute : Int := 60000000

def perDay : Int := 86400000000

/-- The time on a universal clock a number of seconds after 1970 began. -/
def ofSeconds (seconds : Int) : DateTime :=
  { clock := seconds * 1000000, offset := some 0 }

/-- The microseconds since 1970 began, of a clock that shows universal time or is ahead of it. -/
def instant (time : DateTime) : Int :=
  time.clock - time.offset.getD 0 * perMinute

def seconds (time : DateTime) : Int :=
  time.instant.fdiv 1000000

@[simp] theorem seconds_ofSeconds (n : Int) : (ofSeconds n).seconds = n := by
  simp [seconds, instant, ofSeconds]

def date (time : DateTime) : Date :=
  .ofDays (time.clock.fdiv perDay)

/-- The microseconds since midnight. -/
def timeOfDay (time : DateTime) : Nat :=
  (time.clock.fmod perDay).toNat

def hour (time : DateTime) : Nat := time.timeOfDay / 3600000000

def minute (time : DateTime) : Nat := time.timeOfDay / 60000000 % 60

def second (time : DateTime) : Nat := time.timeOfDay / 1000000 % 60

def microsecond (time : DateTime) : Nat := time.timeOfDay % 1000000

/-- Whether two times are the same. One that knows its offset is never one that does not. -/
def same (left right : DateTime) : Bool :=
  left.offset.isSome = right.offset.isSome && left.instant = right.instant

end DateTime

/-! ### Dates and times that exist -/

/-- Why there is no such date or time. -/
inductive CalendarFault where
  | year (year : Nat)
  | month
  | day
  | hour
  | minute
  | second
  /-- The clock is a whole day or more away from universal time. -/
  | offset (minutes : Int)
  deriving DecidableEq, Repr

def isLeapYear (year : Nat) : Bool :=
  year % 4 = 0 && (year % 100 ≠ 0 || year % 400 = 0)

def daysInMonth (year month : Nat) : Nat :=
  if month = 2 then if isLeapYear year then 29 else 28
  else if month = 4 ∨ month = 6 ∨ month = 9 ∨ month = 11 then 30
  else 31

/-- The date of its numbers, if it exists. Years have at most four digits and there is no year zero. -/
def Date.ofNumbers (year month day : Nat) : Except CalendarFault Date := do
  if year < 1 ∨ 9999 < year then throw (.year year)
  if month < 1 ∨ 12 < month then throw .month
  if day < 1 ∨ daysInMonth year month < day then throw .day
  return ⟨year, month, day⟩

def DateTime.ofNumbers (date : Date) (hour minute second microsecond : Nat) (offset : Option Int) :
    Except CalendarFault DateTime := do
  if 23 < hour then throw .hour
  if 59 < minute then throw .minute
  if 59 < second then throw .second
  let seconds := date.toDays * 86400 + hour * 3600 + minute * 60 + second
  return { clock := seconds * 1000000 + microsecond, offset }

/-! ### Text -/

/-- A natural number with at least `width` digits. -/
def padded (width n : Nat) : String :=
  let digits := Nat.toDigits 10 n
  String.ofList (List.replicate (width - digits.length) '0' ++ digits)

/-- Year, month and day. -/
def Date.text (date : Date) : String :=
  s!"{padded 4 date.year.toNat}-{padded 2 date.month}-{padded 2 date.day}"

/-- A span of whole minutes, written as days and seconds of the next day. -/
def spanLiteral (minutes : Int) : String :=
  let days := minutes.fdiv 1440
  let seconds := (minutes - days * 1440) * 60
  let parts := (if days = 0 then [] else [s!"days={days}"])
    ++ (if seconds = 0 then [] else [s!"seconds={seconds}"])
  let shown := if parts.isEmpty then "0" else ", ".intercalate parts
  s!"datetime.timedelta({shown})"

def Date.literal (date : Date) : String :=
  s!"datetime.date({date.year}, {date.month}, {date.day})"

namespace DateTime

/-- How far a clock is ahead, in hours and minutes. -/
def offsetText (minutes : Int) : String :=
  let sign := if minutes < 0 then "-" else "+"
  s!"{sign}{padded 2 (minutes.natAbs / 60)}:{padded 2 (minutes.natAbs % 60)}"

/-- Date and time of day with a separator between them. Microseconds are written if there are any,
and the offset if it is known. -/
def text (separator : Char) (time : DateTime) : String :=
  let fraction := if time.microsecond = 0 then "" else "." ++ padded 6 time.microsecond
  let offset := (time.offset.map offsetText).getD ""
  s!"{time.date.text}{separator}{padded 2 time.hour}:{padded 2 time.minute}:{padded 2 time.second}{fraction}{offset}"

def offsetLiteral (minutes : Int) : String :=
  if minutes = 0 then "datetime.timezone.utc" else s!"datetime.timezone({spanLiteral minutes})"

/-- The literal form: all numbers, though not the last ones if they are zero. -/
def literal (time : DateTime) : String :=
  let date := time.date
  let small :=
    if time.microsecond ≠ 0 then [(time.second : Int), time.microsecond]
    else if time.second ≠ 0 then [(time.second : Int)] else []
  let all := [date.year, (date.month : Int), date.day, time.hour, time.minute] ++ small
  let numbers := ", ".intercalate (all.map toString)
  let zone := (time.offset.map fun minutes => ", tzinfo=" ++ offsetLiteral minutes).getD ""
  s!"datetime.datetime({numbers}{zone})"

end DateTime

def CalendarFault.message : CalendarFault → String
  | .year n => s!"year {n} is out of range"
  | .month => "month must be in 1..12"
  | .day => "day is out of range for month"
  | .hour => "hour must be in 0..23"
  | .minute => "minute must be in 0..59"
  | .second => "second must be in 0..59"
  | .offset minutes =>
    s!"offset must be a timedelta strictly between -timedelta(hours=24) and timedelta(hours=24), not {spanLiteral minutes}."

end BinarySchema
