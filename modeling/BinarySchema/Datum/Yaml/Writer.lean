import BinarySchema.Datum.Form
import BinarySchema.Datum.Yaml.Style
import BinarySchema.Text.Base64

/-!
# Writing YAML

A map as a block of lines, one for each key, and a list as one of lines that begin with a dash. A map
inside follows its key or dash, indented by two spaces, and so does a list inside a list; a list that
is the value of a key on the line before stands below the key without more indentation. Long texts
are folded at spaces once a line is longer than 80 characters, and folded lines are indented by two
spaces more than the key. Bytes stand in base64 on lines of their own.

The pen knows what the layout depends on: the column, whether the last thing written was blank, and
whether the line so far holds nothing but indentation and the marks that count as such.
-/

namespace BinarySchema.Datum.Yaml

/-- What has been written and how the line stands. The text is kept in pieces, the last one
first. -/
structure Pen where
  pieces : List String := []
  column : Nat := 0
  blank : Bool := true
  indenting : Bool := true

def lineWidth : Nat := 80

namespace Pen

def text (pen : Pen) : String :=
  String.join pen.pieces.reverse

/-- Writes on the same line. -/
def put (pen : Pen) (text : List Char) : Pen :=
  { pen with pieces := String.ofList text :: pen.pieces, column := pen.column + text.length }

def breakLine (pen : Pen) (mark : Char := '\n') : Pen :=
  { pieces := String.singleton mark :: pen.pieces, column := 0, blank := true, indenting := true }

/-- Goes to a column of a line that holds nothing yet. -/
def indentTo (pen : Pen) (indent : Nat) : Pen :=
  let pen :=
    if !pen.indenting || indent < pen.column || (pen.column = indent && !pen.blank) then
      pen.breakLine
    else pen
  if pen.column < indent then
    { pen.put (List.replicate (indent - pen.column) ' ') with blank := true }
  else pen

def mark (pen : Pen) (text : String) (spaced : Bool) (indenting : Bool := false) : Pen :=
  let lead := if pen.blank || !spaced then [] else [' ']
  { pen.put (lead ++ text.toList) with blank := false, indenting := pen.indenting && indenting }

/-- Goes to a new line inside a folded scalar. -/
def fold (pen : Pen) (indent : Nat) : Pen :=
  { pen.indentTo indent with blank := false, indenting := false }

/-! ### Scalars

Each loop goes through the characters of a text and keeps those not yet written in reverse. -/

/-- Writes a plain scalar. A single space beyond the width becomes a line break. -/
def plainLoop (indent : Nat) (folding : Bool) (pen : Pen) (held : List Char) (inSpaces : Bool) :
    List Char → Pen
  | [] => pen.put held.reverse
  | c :: rest =>
    if inSpaces then
      if c = ' ' then plainLoop indent folding pen (c :: held) true rest
      else if held.length = 1 && lineWidth < pen.column && folding then
        plainLoop indent folding (pen.fold indent) [c] false rest
      else plainLoop indent folding (pen.put held.reverse) [c] false rest
    else if c = ' ' then plainLoop indent folding (pen.put held.reverse) [c] true rest
    else plainLoop indent folding pen (c :: held) false rest

def plain (pen : Pen) (indent : Nat) (folding : Bool) (text : List Char) : Pen :=
  if text.isEmpty then pen
  else
    let pen := if pen.blank then pen else pen.put [' ']
    plainLoop indent folding { pen with blank := false, indenting := false } [] false text

/-- What the characters held back by a single-quoted scalar are. -/
inductive Held where
  | words
  | spaces
  | breaks
  deriving DecidableEq

def Held.of (c : Char) : Held :=
  if c = ' ' then .spaces else if isBreak c then .breaks else .words

/-- Writes line breaks that were held back: one more than there are when the first is a line feed,
since a single one would be folded away. -/
def putBreaks (pen : Pen) (indent : Nat) (held : List Char) : Pen :=
  let extra := if held.head? = some '\n' then pen.breakLine else pen
  (held.foldl (fun pen c => pen.breakLine c) extra).indentTo indent

/-- Writes what a single-quoted scalar held back before `next`, or before the end. `inside` says that
it does not stand at the beginning of the text. -/
def flushSingle (pen : Pen) (indent : Nat) (folding inside : Bool) (kind : Held)
    (held : List Char) (next : Option Char) : Pen :=
  match kind with
  | .words => pen.put held
  | .breaks => pen.putBreaks indent held
  | .spaces =>
    if held.length = 1 && lineWidth < pen.column && folding && inside && next.isSome then
      pen.indentTo indent
    else pen.put held

def singleLoop (indent : Nat) (folding : Bool) (pen : Pen) (kind : Held) (held : List Char)
    (inside : Bool) : List Char → Pen
  | [] => pen.flushSingle indent folding inside kind held.reverse none
  | c :: rest =>
    let kept := if Held.of c = kind && c != '\'' then (pen, c :: held, inside)
      else
        let pen := pen.flushSingle indent folding inside kind held.reverse (some c)
        if c = '\'' then (pen.put ['\'', '\''], [], true)
        else (pen, [c], inside || !held.isEmpty)
    singleLoop indent folding kept.1 (Held.of c) kept.2.1 kept.2.2 rest

def single (pen : Pen) (indent : Nat) (folding : Bool) (text : List Char) : Pen :=
  (singleLoop indent folding (pen.mark "'" true) .words [] false text).mark "'" false

/-- The escape of a character in a double-quoted scalar. -/
def escape (c : Char) : List Char :=
  let letter? := [('\x00', '0'), ('\x07', 'a'), ('\x08', 'b'), ('\t', 't'), ('\n', 'n'),
    ('\x0b', 'v'), ('\x0c', 'f'), ('\r', 'r'), ('\x1b', 'e'), ('"', '"'), ('\\', '\\'),
    ('\x85', 'N'), ('\xa0', '_'), ('\u2028', 'L'), ('\u2029', 'P')].lookup c
  match letter? with
  | some letter => ['\\', letter]
  | none =>
    if c.toNat < 0x100 then '\\' :: 'x' :: Text.upperHexDigits 2 c.toNat
    else if c.toNat < 0x10000 then '\\' :: 'u' :: Text.upperHexDigits 4 c.toNat
    else '\\' :: 'U' :: Text.upperHexDigits 8 c.toNat

def needsEscape (c : Char) : Bool :=
  c = '"' || c = '\\' || c = '\u2028' || c = '\u2029' || c = '\ufeff' ||
    !((' ' ≤ c && c ≤ '~') || ('\xa0' ≤ c && c.toNat ≤ 0xfffd))

/-- Writes a double-quoted scalar. It may be folded at a space or behind an escape; a backslash ends
the line, and another one keeps a space at the beginning of the next. `index` counts the characters
passed and `count` all of them. -/
def doubleLoop (indent : Nat) (folding : Bool) (count : Nat) (pen : Pen) (held : List Char)
    (index : Nat) : List Char → Pen
  | [] => pen.put held.reverse
  | c :: rest =>
    let escaped := needsEscape c
    let pen := if escaped then (pen.put held.reverse).put (escape c) else pen
    let held := if escaped then [] else held
    let reached := if escaped then pen.column - 1 else pen.column + held.length
    let folds := folding && 0 < index && index + 1 < count && (c = ' ' || held.isEmpty) &&
      lineWidth < reached
    let next := if escaped then rest.head? else some c
    let pen :=
      if folds then
        let pen := (pen.put (held.reverse ++ ['\\'])).fold indent
        if next = some ' ' then pen.put ['\\'] else pen
      else pen
    let held := if folds then [] else held
    doubleLoop indent folding count pen (if escaped then held else c :: held) (index + 1) rest

def double (pen : Pen) (indent : Nat) (folding : Bool) (text : List Char) : Pen :=
  (doubleLoop indent folding text.length (pen.mark "\"" true) [] 0 text).mark "\"" false

/-- Writes a text in its style; a key on the line of its value is not folded. -/
def scalar (pen : Pen) (indent : Nat) (simpleKey : Bool) (text : String) : Pen :=
  match styleOf text simpleKey with
  | .plain => pen.plain indent (!simpleKey) text.toList
  | .single => pen.single indent (!simpleKey) text.toList
  | .double => pen.double indent (!simpleKey) text.toList

/-- Writes bytes behind their tag. -/
def binary (pen : Pen) (indent : Nat) (content : List UInt8) : Pen :=
  let tagged := pen.mark "!!binary" true
  match Text.base64Lines content with
  | [] => tagged.double indent true []
  | lines =>
    lines.foldl (fun pen line => (pen.indentTo indent).put line.toList |>.breakLine)
      (tagged.mark "|" true).breakLine

/-! ### Values without parts -/

/-- A double in a form that reads back as one: an exponent needs a point before it. -/
def doubleText (x : Number.Double) : String :=
  match x.view with
  | .nan => ".nan"
  | .infinite negative => if negative then "-.inf" else ".inf"
  | .finite .. =>
    let chars := x.text.toList
    if chars.contains '.' then x.text
    else
      let mantissa := chars.takeWhile (· != 'e')
      let power := chars.dropWhile (· != 'e')
      String.ofList (mantissa ++ (if power.isEmpty then [] else ['.', '0']) ++ power)

/-- Writes a value without parts whose lines stand at `indent`. -/
def leaf (pen : Pen) (indent : Nat) (simpleKey : Bool) : Datum → Pen
  | .null => word "null"
  | .bool b => word (if b then "true" else "false")
  | .int n => word (Number.decimal n)
  | .double x => word (doubleText x)
  | .date d => word d.text
  | .time t => word (t.text ' ')
  | .bytes content => pen.binary indent content
  | datum => pen.scalar indent simpleKey datum.plainText
where
  word (text : String) : Pen := pen.plain indent (!simpleKey) text.toList

end Pen

/-- Whether a key can stand on the line of its value. Its length counts with the tag that its type
has. -/
def isSimple : Datum → Bool
  | .text s => isSimpleKey s
  | .bytes _ => false
  | .int n => (Number.decimal n).length + 5 < 128
  | _ => true

/-! ### Lists and maps -/

mutual

/-- Writes a value. The keys or dashes around it stand at `indent`, and `follows` says that it is on
the line of its key. -/
def writeValue (indent : Nat) (follows : Bool) (pen : Pen) : Datum → Pen
  | .list [] => pen.mark "[]" true
  | .list (item :: items) =>
    writeItems (if follows then indent else indent + 2) pen (item :: items)
  | .map [] => pen.mark "\x7b\x7d" true
  | .map (entry :: entries) => writeEntries (indent + 2) pen (entry :: entries)
  | datum => pen.leaf (indent + 2) false datum
termination_by structural d => d

/-- Writes the items of a list whose dashes stand at `indent`. -/
def writeItems (indent : Nat) (pen : Pen) : List Datum → Pen
  | [] => pen
  | item :: rest =>
    let pen := (pen.indentTo indent).mark "-" true true
    writeItems indent (writeValue indent false pen item) rest
termination_by structural items => items

/-- Writes the entries of a map whose keys stand at `indent`. -/
def writeEntries (indent : Nat) (pen : Pen) : List (Datum × Datum) → Pen
  | [] => pen
  | (key, value) :: rest =>
    let simple := isSimple key
    let pen := pen.indentTo indent
    let pen :=
      if simple then (pen.leaf (indent + 2) true key).mark ":" false
      else
        let pen := (pen.mark "?" true true).leaf (indent + 2) false key
        (pen.indentTo indent).mark ":" true true
    writeEntries indent (writeValue indent simple pen value) rest
termination_by structural entries => entries

end

def write (datum : Datum) : String :=
  let pen := match datum with
    | .list (item :: items) => writeItems 0 {} (item :: items)
    | .map (entry :: entries) => writeEntries 0 {} (entry :: entries)
    | datum => writeValue 0 false {} datum
  (pen.indentTo 0).text

/-- The values and keys without parts that YAML has a form for. -/
def hasForm : Datum → Bool
  | .address _ | .scope _ | .list _ | .map _ => false
  | _ => true

end Yaml

def yaml (datum : Datum) : Except FormFault String :=
  match datum.formFault? Yaml.hasForm with
  | none => .ok (Yaml.write datum)
  | some fault => .error fault

end BinarySchema.Datum
