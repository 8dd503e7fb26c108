import BinarySchema.Datum
import BinarySchema.Datum.Yaml.Time
import BinarySchema.Text.Split

/-!
# Plain YAML scalars

A scalar without quotes may mean something other than its text: a boolean, a null, a number, a time
or a mark of YAML itself. The grammars here say which; a text that any of them takes must be quoted
to be read back as text.
-/

namespace BinarySchema.Datum.Yaml

inductive Meaning where
  | text
  | null
  | bool (value : Bool)
  | int
  | double
  | time
  | mark
  deriving DecidableEq, Repr

def trueWords : List String := ["yes", "Yes", "YES", "true", "True", "TRUE", "on", "On", "ON"]

def falseWords : List String := ["no", "No", "NO", "false", "False", "FALSE", "off", "Off", "OFF"]

def nullWords : List String := ["", "~", "null", "Null", "NULL"]

def marks : List String := ["<<", "=", "!", "&", "*"]

/-- Whether a character ends a line. -/
def isBreak (c : Char) : Bool :=
  c = '\n' || c = '\u0085' || c = '\u2028' || c = '\u2029'

def isDigitOrLine (c : Char) : Bool := c.isDigit || c = '_'

def isDigits (first : Char → Bool) : List Char → Bool
  | [] => false
  | c :: rest => first c && rest.all isDigitOrLine

def unsigned : List Char → List Char
  | '+' :: rest => rest
  | '-' :: rest => rest
  | chars => chars

/-- A part of a number in base sixty: one digit, or two below sixty. -/
def isSixtieth : List Char → Bool
  | [d] => d.isDigit
  | [t, d] => '0' ≤ t && t ≤ '5' && d.isDigit
  | _ => false

/-- A whole part and at least one sixtieth, with colons between them. -/
def isSexagesimal (first : Char → Bool) (chars : List Char) : Bool :=
  match Text.splitOn ':' chars with
  | whole :: part :: parts => isDigits first whole && (part :: parts).all isSixtieth
  | _ => false

def isInt (chars : List Char) : Bool :=
  let nonzero (c : Char) : Bool := '1' ≤ c && c ≤ '9'
  let body := unsigned chars
  match body with
  | ['0'] => true
  | '0' :: 'b' :: rest => !rest.isEmpty && rest.all fun c => c = '0' || c = '1' || c = '_'
  | '0' :: 'x' :: rest => !rest.isEmpty && rest.all fun c => Text.isHexDigit c || c = '_'
  | '0' :: rest => rest.all fun c => ('0' ≤ c && c ≤ '7') || c = '_'
  | _ => isDigits nonzero body || isSexagesimal nonzero body

/-- Digits and underscores, then perhaps an exponent with a sign. -/
def isFraction (chars : List Char) : Bool :=
  match chars.dropWhile isDigitOrLine with
  | [] => true
  | e :: sign :: d :: rest =>
    (e = 'e' || e = 'E') && (sign = '+' || sign = '-') && (d :: rest).all Char.isDigit
  | _ => false

def isDouble (chars : List Char) : Bool :=
  let body := unsigned chars
  let whole := body.takeWhile (· != '.')
  match body.dropWhile (· != '.') with
  | [] => false
  | _ :: part =>
    if whole.isEmpty then
      ["inf", "Inf", "INF"].contains (String.ofList part) ||
        (body.length = chars.length &&
          (["nan", "NaN", "NAN"].contains (String.ofList part) ||
            (part.head?.any Char.isDigit && isFraction part)))
    else
      (isDigits Char.isDigit whole && isFraction part) ||
        (isSexagesimal Char.isDigit whole && part.all isDigitOrLine)

/-- What a plain scalar means. -/
def meaning (text : String) : Meaning :=
  let chars := text.toList
  if trueWords.contains text then .bool true
  else if falseWords.contains text then .bool false
  else if nullWords.contains text then .null
  else if marks.contains text then .mark
  else if isDouble chars then .double
  else if isInt chars then .int
  else if (Time.ofChars? chars).isSome then .time
  else .text

end BinarySchema.Datum.Yaml
