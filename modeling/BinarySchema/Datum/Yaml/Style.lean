import BinarySchema.Datum.Yaml.Plain

/-!
# Scalar styles

How a text may be written as a YAML scalar: plain, between single quotes, or between double quotes.
The plainest allowed style is taken. Plain scalars hold no line breaks, nothing that YAML would take
for its own marks, and no blank at their ends; single quotes allow all that but not characters that
need escapes, and blanks only away from line breaks.
-/

namespace BinarySchema.Datum.Yaml

inductive Style where
  | plain
  | single
  | double
  deriving DecidableEq, Repr

/-- A character that ends a word for the reading of marks. -/
def isSeparator (c : Char) : Bool :=
  c = '\x00' || c = ' ' || c = '\t' || c = '\r' || isBreak c

/-- Whether a character can stand in a scalar without an escape. -/
def isOpen (c : Char) : Bool :=
  c = '\n' || (' ' ≤ c && c ≤ '~') ||
    ((c = '\x85' || '\xa0' ≤ c) && c.toNat ≠ 0xfeff && c.toNat ≠ 0xfffe && c.toNat ≠ 0xffff &&
      c.toNat ≠ 0x10ffff)

/-- Whether a mark stands in a text where a plain scalar cannot have it. `before` is the character in
front of the text. -/
def hasInnerMark (before : Char) : List Char → Bool
  | [] => false
  | c :: rest =>
    (c = ':' && rest.head?.all isSeparator) || (c = '#' && isSeparator before) ||
      hasInnerMark c rest

/-- The characters that no plain scalar begins with. -/
def leadingMarks : List Char :=
  ['#', ',', '[', ']', '{', '}', '&', '*', '!', '|', '>', '\'', '"', '%', '@', '\x60']

/-- Whether the beginning of a text would be taken for a mark. -/
def hasLeadingMark (chars : List Char) : Bool :=
  match chars with
  | [] => false
  | c :: rest =>
    leadingMarks.contains c ||
      ((c = '?' || c = ':' || c = '-') && rest.head?.all isSeparator) ||
      ['-', '-', '-'].isPrefixOf chars || ['.', '.', '.'].isPrefixOf chars

/-- Whether two neighbouring characters are of the given classes. -/
def hasPair (first second : Char → Bool) : List Char → Bool
  | c :: d :: rest => (first c && second d) || hasPair first second (d :: rest)
  | _ => false

def isSpace (c : Char) : Bool := c = ' '

def hasBreak (chars : List Char) : Bool := chars.any isBreak

def allowsPlain (chars : List Char) : Bool :=
  let edge (c : Char) : Bool := isSpace c || isBreak c
  !(chars.head?.any edge || chars.getLast?.any edge || hasBreak chars ||
    !chars.all isOpen || hasLeadingMark chars ||
    hasInnerMark (chars.head?.getD ' ') (chars.drop 1))

def allowsSingle (chars : List Char) : Bool :=
  !(hasPair isBreak isSpace chars || hasPair isSpace isBreak chars || !chars.all isOpen)

/-- The style of a text. `simpleKey` says that it is a key on the line of its value. -/
def styleOf (text : String) (simpleKey : Bool) : Style :=
  let chars := text.toList
  if meaning text = .text && allowsPlain chars then .plain
  else if allowsSingle chars && !(simpleKey && hasBreak chars) then .single
  else .double

/-- Whether a text can be a key on the line of its value: not empty, on one line and not long. -/
def isSimpleKey (text : String) : Bool :=
  text ≠ "" && text.length + 5 < 128 && !hasBreak text.toList

end BinarySchema.Datum.Yaml
