import BinarySchema.Datum.Form

/-!
# JSON

Data as JSON text in pure ASCII. With an indentation every item stands on a line of its own, without
one all stand on one line. Doubles that JSON has no numeral for are written as words. Bytes,
addresses, dates, times and scopes have no form in JSON; as keys, text and what has a word or a
numeral do.
-/

namespace BinarySchema.Datum.Json

def unicodeEscape (unit : Nat) : List Char :=
  '\\' :: 'u' :: Text.hexDigits 4 unit

/-- One character of a string. Characters beyond the first plane take two escapes. -/
def escapeChar (c : Char) : List Char :=
  match c with
  | '"' => ['\\', '"']
  | '\\' => ['\\', '\\']
  | '\n' => ['\\', 'n']
  | '\r' => ['\\', 'r']
  | '\t' => ['\\', 't']
  | '\x08' => ['\\', 'b']
  | '\x0c' => ['\\', 'f']
  | _ =>
    if ' ' ≤ c ∧ c ≤ '~' then [c]
    else if c.toNat < 0x10000 then unicodeEscape c.toNat
    else
      let offset := c.toNat - 0x10000
      unicodeEscape (0xd800 + offset / 0x400) ++ unicodeEscape (0xdc00 + offset % 0x400)

def string (text : String) : String :=
  String.ofList ('"' :: text.toList.flatMap escapeChar ++ ['"'])

def double (x : Number.Double) : String :=
  match x.view with
  | .nan => "NaN"
  | .infinite negative => if negative then "-Infinity" else "Infinity"
  | .finite .. => x.text

def escapeCode (code : Nat) : List Char :=
  if code.isValidChar then escapeChar (Char.ofNat code) else unicodeEscape code

/-- A string of code points that may be surrogates. -/
def codes (points : List Nat) : String :=
  String.ofList ('"' :: points.flatMap escapeCode ++ ['"'])

/-- A key, which JSON needs as a string. -/
def key : Datum → String
  | .text s => string s
  | .codes points => codes points
  | .null => string "null"
  | .bool b => string (if b then "true" else "false")
  | .int n => string (Number.decimal n)
  | .double x => string (double x)
  | datum => string datum.literal

def lineBreak (indent : Option Nat) (depth : Nat) : String :=
  match indent with
  | none => ""
  | some width => String.ofList ('\n' :: List.replicate (width * depth) ' ')

/-- Items between brackets. -/
def enclose (opening closing : String) (indent : Option Nat) (depth : Nat) (items : List String) :
    String :=
  if items.isEmpty then opening ++ closing
  else
    let separator := if indent.isSome then "," ++ lineBreak indent (depth + 1) else ", "
    opening ++ lineBreak indent (depth + 1) ++ separator.intercalate items ++
      lineBreak indent depth ++ closing

mutual

def write (indent : Option Nat) (depth : Nat) : Datum → String
  | .null => "null"
  | .bool b => if b then "true" else "false"
  | .int n => Number.decimal n
  | .double x => double x
  | .text s => string s
  | .codes points => codes points
  | .list items => enclose "[" "]" indent depth (writeItems indent (depth + 1) items)
  | .map entries => enclose "\x7b" "\x7d" indent depth (writeEntries indent (depth + 1) entries)
  | datum => string datum.literal
termination_by structural d => d

def writeItems (indent : Option Nat) (depth : Nat) : List Datum → List String
  | [] => []
  | item :: rest => write indent depth item :: writeItems indent depth rest
termination_by structural items => items

def writeEntries (indent : Option Nat) (depth : Nat) : List (Datum × Datum) → List String
  | [] => []
  | (k, value) :: rest =>
    (key k ++ ": " ++ write indent depth value) :: writeEntries indent depth rest
termination_by structural entries => entries

end

/-- The values and keys without parts that JSON has a form for. -/
def hasForm : Datum → Bool
  | .null | .bool _ | .int _ | .double _ | .text _ | .codes _ => true
  | _ => false

end Json

def json (datum : Datum) (indent : Option Nat) : Except FormFault String :=
  match datum.formFault? Json.hasForm with
  | none => .ok (Json.write indent 0 datum)
  | some fault => .error fault

end BinarySchema.Datum
