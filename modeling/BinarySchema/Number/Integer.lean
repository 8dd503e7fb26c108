import BinarySchema.Text.Blank
import BinarySchema.Text.DecimalDigit
import BinarySchema.Text.Quoted

/-!
# Integers as text

Integers are unbounded, but their decimal numerals are not: beyond 4300 digits neither direction
between a number and its decimal text is available. Hexadecimal, octal and binary numerals have no
such limit.

The reader accepts blank space around a numeral, one sign, a base mark (`0x`, `0o`, `0b`), and
single underscores between digits or after the mark. Digits of all scripts count.
-/

namespace BinarySchema.Number

/-- The most digits that a decimal numeral may have. -/
def digitLimit : Nat := 4300

/-- Whether the decimal numeral of an integer stays within the limit. -/
def hasNumeral (n : Int) : Bool :=
  n.natAbs < Nat.pow 10 digitLimit

def decimal (n : Int) : String :=
  match n with
  | .ofNat n => Nat.repr n
  | .negSucc n => "-" ++ Nat.repr (n + 1)

/-- Why a text is no integer. -/
inductive NumeralFault where
  | malformed
  | tooLong (digits : Nat)
  deriving DecidableEq, Repr

def digitValue? (base : Nat) (c : Char) : Option Nat :=
  (Text.hexValue? c).filter (· < base)

def digitsValue (base : Nat) (value : Nat) : List Nat → Nat
  | [] => value
  | d :: rest => digitsValue base (value * base + d) rest

/-- Reads digits with single underscores between them, up to the first other character. The flag
says whether an underscore may stand here. -/
def readDigits (base : Nat) (underscore : Bool) :
    List Char → Option (List Nat × List Char)
  | [] => if underscore then some ([], []) else none
  | c :: rest =>
    match digitValue? base c with
    | some d => (readDigits base true rest).map fun (digits, rest) => (d :: digits, rest)
    | none =>
      if c = '_' then if underscore then readDigits base false rest else none
      else if underscore then some ([], c :: rest) else none

/-- The blank characters of ASCII that may surround a numeral. -/
def isAsciiSpace (c : Char) : Bool :=
  c = ' ' || ('\t' ≤ c && c ≤ '\r')

/-- Brings blank space and digits beyond ASCII to their ASCII counterparts. -/
def toAscii (c : Char) : Char :=
  if c.toNat < 0x7f then c
  else if Text.isBlank c then ' '
  else match Text.decimalDigit? c with
    | some d => Nat.digitChar d
    | none => '?'

/-- The base that a mark after a leading zero announces. -/
def markedBase? (c : Char) : Option Nat :=
  match c.toLower with
  | 'x' => some 16
  | 'o' => some 8
  | 'b' => some 2
  | _ => none

/-- Splits an unsigned numeral into its base, whether it is marked, and its digits. `base` is the
expected base; 0 takes the base from the mark, or ten without one. -/
def splitMark (base : Nat) : List Char → Nat × Bool × List Char
  | '0' :: c :: rest =>
    match markedBase? c with
    | some marked =>
      if base = 0 ∨ base = marked then (marked, true, rest)
      else (if base = 0 then 10 else base, false, '0' :: c :: rest)
    | none => (if base = 0 then 10 else base, false, '0' :: c :: rest)
  | chars => (if base = 0 then 10 else base, false, chars)

/-- Reads an integer in a base from 2 to 16, or in the base of its mark when `base` is 0, where a
decimal numeral other than zero then has no leading zero. -/
def readInteger (base : Nat) (text : List Char) : Except NumeralFault Int :=
  let trimmed := (text.map toAscii).dropWhile isAsciiSpace
  let (negative, unsigned) : Bool × List Char :=
    match trimmed with
    | '-' :: rest => (true, rest)
    | '+' :: rest => (false, rest)
    | chars => (false, chars)
  let (actual, marked, body) := splitMark base unsigned
  match readDigits actual marked body with
  | none => .error .malformed
  | some (digits, rest) =>
    if digits.isEmpty then .error .malformed
    else if actual = 10 && digitLimit < digits.length then .error (.tooLong digits.length)
    else
      let value := digitsValue actual 0 digits
      if !rest.all isAsciiSpace then .error .malformed
      else if base = 0 && !marked && digits.head? = some 0 && value != 0 then .error .malformed
      else .ok (if negative then -value else value)

/-- Reads the numeral of a source text: hexadecimal after `0x`, decimal otherwise. -/
def readNumeral (text : List Char) : Except NumeralFault Int :=
  match text with
  | '0' :: c :: rest =>
    if c = 'x' ∨ c = 'X' then readInteger 16 rest else readInteger 10 text
  | _ => readInteger 10 text

def tooLongToRead (digits : Nat) : String :=
  s!"Exceeds the limit ({digitLimit} digits) for integer string conversion: value has {digits} digits; use sys.set_int_max_str_digits() to increase the limit"

def tooLongToWrite : String :=
  s!"Exceeds the limit ({digitLimit} digits) for integer string conversion; use sys.set_int_max_str_digits() to increase the limit"

/-- How a text that is no integer is refused. At most 200 characters of its quoted form are shown. -/
def refusal (text : String) (fault : NumeralFault) : String :=
  match fault with
  | .tooLong digits => tooLongToRead digits
  | .malformed =>
    let chars := text.toList
    let (base, body) : Nat × List Char := match chars with
      | '0' :: c :: rest => if c = 'x' ∨ c = 'X' then (16, rest) else (10, chars)
      | _ => (10, chars)
    let shown := String.ofList ((Text.quoteChars body).take 200)
    s!"invalid literal for int() with base {base}: {shown}"

end BinarySchema.Number
