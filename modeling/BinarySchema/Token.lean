import BinarySchema.Text.Quoted

/-!
# Tokens

The words of schema source. A token keeps its text exactly as it stands in the source, so a
comment still has its marks, together with the line and column of its first character, counted
from one.
-/

namespace BinarySchema

/-- A place in a source text. -/
structure Position where
  line : Nat
  column : Nat
  deriving DecidableEq, Repr, Inhabited

namespace Position

def first : Position := ⟨1, 1⟩

/-- The place after one more character. -/
def advance (position : Position) (c : Char) : Position :=
  if c = '\n' then ⟨position.line + 1, 1⟩ else ⟨position.line, position.column + 1⟩

def after (position : Position) (chars : List Char) : Position :=
  chars.foldl advance position

@[simp] theorem after_nil (position : Position) : position.after [] = position := rfl

@[simp] theorem after_append (position : Position) (left right : List Char) :
    position.after (left ++ right) = (position.after left).after right := by
  simp [after]

end Position

inductive TokenKind where
  | word
  | number
  | string
  | punctuation
  | operator
  | comment
  | endOfInput
  deriving DecidableEq, Repr

namespace TokenKind

def name : TokenKind → String
  | .word => "word"
  | .number => "number"
  | .string => "string"
  | .punctuation => "punctuation"
  | .operator => "operator"
  | .comment => "comment"
  | .endOfInput => "end"

end TokenKind

structure Token where
  kind : TokenKind
  text : String
  pos : Position
  deriving DecidableEq, Repr

namespace Token

def isPunctuation (token : Token) (text : String) : Bool :=
  token.kind = .punctuation && token.text = text

def isOperator (token : Token) (text : String) : Bool :=
  token.kind = .operator && token.text = text

def isWord (token : Token) (text : String) : Bool :=
  token.kind = .word && token.text = text

/-- The text between a comment's marks, without blank space at its ends. -/
def commentText (token : Token) : String :=
  match token.text.toList with
  | '/' :: '/' :: body => String.ofList (Text.strip body)
  | chars => String.ofList (Text.strip ((chars.drop 2).dropLast.dropLast))

/-- How messages mention a token. -/
def describe (token : Token) : String :=
  if token.kind = .endOfInput then "end of input" else s!"[{token.text}]"

/-- The printed form: place, kind and quoted text. -/
def print (token : Token) : String :=
  s!"{token.pos.line}:{token.pos.column} {token.kind.name.toUpper} {Text.quoted token.text}"

end Token

end BinarySchema
