import BinarySchema.Datum.Yaml.Scalar
import BinarySchema.Text.Hex

/-!
# Marks of a YAML text

A YAML text is split into scalars and the marks of its structure, each with its column. A plain
scalar ends with its line, at a comment, and before a colon that separates a key from its value;
inside brackets also at commas, brackets and question marks. A quoted scalar ends at its quote.
-/

namespace BinarySchema.Datum.Yaml

/-- Why a text has no data. -/
inductive Fault where
  /-- A character that no YAML text may hold. -/
  | character
  /-- Characters that begin nothing, or a scalar that does not end. -/
  | token
  /-- Marks that do not fit together. -/
  | layout
  /-- More than one document. -/
  | documents
  /-- An escape of a code beyond all characters. -/
  | code (code : Nat)
  /-- A list or map as a key. -/
  | key
  | scalar (fault : ScalarFault)
  deriving DecidableEq, Repr

inductive Mark where
  | plain (text : String)
  | quoted (value : Datum)
  | dash
  | colon
  | comma
  | openList
  | closeList
  | openMap
  | closeMap
  | documentStart
  | documentEnd
  deriving Repr

/-! ### Characters -/

/-- Whether a YAML text may hold a character. -/
def isAllowed (c : Char) : Bool :=
  c = '\t' || c = '\n' || c = '\r' || (' ' ≤ c && c ≤ '~') || c = '\u0085' ||
    ('\u00a0' ≤ c && c ≤ '\ufffd') || 0x10000 ≤ c.toNat

def isLineEnd (c : Char) : Bool :=
  c = '\r' || isBreak c

def isBlankOrEnd : List Char → Bool
  | [] => true
  | c :: _ => c = ' ' || c = '\t' || isLineEnd c

def isFlowMark (c : Char) : Bool :=
  c = ',' || c = '[' || c = ']' || c = '{' || c = '}'

/-! ### Scalars -/

/-- Whether a plain scalar ends in front of the text `c :: rest`. -/
def endsPlain (inFlow : Bool) (c : Char) (rest : List Char) : Bool :=
  c = '\t' || isLineEnd c || (c = ' ' && rest.head? = some '#') ||
    (inFlow && (isFlowMark c || c = '?')) ||
    (c = ':' && (isBlankOrEnd rest || (inFlow && rest.head?.any isFlowMark)))

/-- A plain scalar with the spaces behind it, split from the rest. -/
def splitPlain (inFlow : Bool) : List Char → List Char × List Char
  | [] => ([], [])
  | c :: rest =>
    if endsPlain inFlow c rest then ([], c :: rest)
    else
      let (body, left) := splitPlain inFlow rest
      (c :: body, left)

/-- A scalar behind its single quote, on one line; a quote inside is written twice. -/
def splitSingle : List Char → Except Fault (List Char × List Char)
  | [] => .error .token
  | ['\''] => .ok ([], [])
  | '\'' :: c :: rest =>
    if c = '\'' then (splitSingle rest).map fun (body, left) => (c :: body, left)
    else .ok ([], c :: rest)
  | c :: rest =>
    if isLineEnd c then .error .token
    else (splitSingle rest).map fun (body, left) => (c :: body, left)

def escapedChar? (c : Char) : Option Char :=
  match c with
  | '0' => some '\x00'
  | 'a' => some '\x07'
  | 'b' => some '\x08'
  | 't' | '\t' => some '\t'
  | 'n' => some '\n'
  | 'v' => some '\x0b'
  | 'f' => some '\x0c'
  | 'r' => some '\r'
  | 'e' => some '\x1b'
  | ' ' | '"' | '\\' | '/' => some c
  | 'N' => some '\u0085'
  | '_' => some '\u00a0'
  | 'L' => some '\u2028'
  | 'P' => some '\u2029'
  | _ => none

/-- The code of hexadecimal digits. Surrogates are codes too. -/
def codeOf (digits : List Char) : Except Fault Nat :=
  match digits.mapM Text.hexValue? with
  | none => .error .token
  | some values =>
    let code := values.foldl (fun n d => n * 16 + d) 0
    if code < 0x110000 then .ok code else .error (.code code)

/-- The codes of a scalar behind its double quote, on one line, with its escapes resolved. -/
def splitDouble : List Char → Except Fault (List Nat × List Char)
  | [] => .error .token
  | '"' :: rest => .ok ([], rest)
  | '\\' :: 'x' :: a :: b :: rest => do before (← codeOf [a, b]) (← splitDouble rest)
  | '\\' :: 'u' :: a :: b :: c :: d :: rest => do
    before (← codeOf [a, b, c, d]) (← splitDouble rest)
  | '\\' :: 'U' :: a :: b :: c :: d :: e :: f :: g :: h :: rest => do
    before (← codeOf [a, b, c, d, e, f, g, h]) (← splitDouble rest)
  | '\\' :: c :: rest =>
    match escapedChar? c with
    | some c => do before c.toNat (← splitDouble rest)
    | none => .error .token
  | c :: rest => if isLineEnd c then .error .token else do before c.toNat (← splitDouble rest)
where
  before (code : Nat) (after : List Nat × List Char) : Except Fault (List Nat × List Char) :=
    .ok (code :: after.1, after.2)

/-! ### Marks -/

/-- A plain scalar that begins with the text `c :: rest`. -/
def plainAt (inFlow : Bool) (c : Char) (rest : List Char) : Mark × List Char :=
  let (body, left) := splitPlain inFlow rest
  let trimmed := ((c :: body).reverse.dropWhile (· = ' ')).reverse
  (.plain (String.ofList trimmed), left)

/-- What the text `c :: rest` begins with, outside blanks and comments, and what follows it. -/
def markAt (inFlow : Bool) (c : Char) (rest : List Char) : Except Fault (Mark × List Char) :=
  let plain := plainAt inFlow c rest
  match c with
  | '[' => .ok (.openList, rest)
  | ']' => .ok (.closeList, rest)
  | '{' => .ok (.openMap, rest)
  | '}' => .ok (.closeMap, rest)
  | ',' => .ok (.comma, rest)
  | '\'' => (splitSingle rest).map fun (body, left) => (.quoted (.text (String.ofList body)), left)
  | '"' => (splitDouble rest).map fun (points, left) => (.quoted (.ofCodes points), left)
  | '-' => .ok (if isBlankOrEnd rest then (.dash, rest) else plain)
  | ':' => .ok (if inFlow || isBlankOrEnd rest then (.colon, rest) else plain)
  | '?' => if inFlow || isBlankOrEnd rest then .error .token else .ok plain
  | '\t' | '#' | '&' | '*' | '!' | '|' | '>' | '%' | '@' | '\x60' => .error .token
  | _ => .ok plain

/-- The mark between documents that a line begins with, and what follows it. -/
def documentMark? : List Char → Option (Mark × List Char)
  | '-' :: '-' :: '-' :: rest => if isBlankOrEnd rest then some (.documentStart, rest) else none
  | '.' :: '.' :: '.' :: rest => if isBlankOrEnd rest then some (.documentEnd, rest) else none
  | _ => none

def depthAfter (depth : Nat) : Mark → Nat
  | .openList | .openMap => depth + 1
  | .closeList | .closeMap => depth - 1
  | _ => depth

/-- The marks of a text, each with its column. Each step takes at least one character, so the number
of characters bounds the steps. -/
def marksFrom : (steps depth column : Nat) → List Char → Except Fault (List (Nat × Mark))
  | _, _, _, [] => .ok []
  | 0, _, _, _ :: _ => .ok []
  | steps + 1, depth, column, c :: rest =>
    if isLineEnd c then marksFrom steps depth 0 rest
    else if c = ' ' then marksFrom steps depth (column + 1) rest
    else if c = '#' then marksFrom steps depth column (rest.dropWhile (!isLineEnd ·))
    else do
      let (mark, left) ← match if column = 0 then documentMark? (c :: rest) else none with
        | some found => pure found
        | none => markAt (0 < depth) c rest
      let width := rest.length + 1 - left.length
      let more ← marksFrom steps (depthAfter depth mark) (column + width) left
      return (column, mark) :: more

/-- The marks of a text. A byte order mark in front of it is passed over. -/
def marksOf (text : String) : Except Fault (List (Nat × Mark)) := do
  let chars := match text.toList with
    | '\ufeff' :: rest => rest
    | chars => chars
  if !chars.all isAllowed then throw .character
  marksFrom chars.length 0 0 chars

end BinarySchema.Datum.Yaml
