import BinarySchema.Token

/-!
# Expressions

Array lengths and block conditions. A schema keeps an expression as the flat list of its terms;
it is given a structure, and a value, only while decoding, when the fields that it names are known.
-/

namespace BinarySchema

/-- What a term is. A probe asks for the state of the input: `@eof`, `@pos` or `@size`. A constant
is a dotted word. -/
inductive TermKind where
  | number (value : Int)
  | operator
  | probe
  | name
  | constant
  deriving DecidableEq, Repr

namespace TermKind

def title : TermKind → String
  | .number _ => "number"
  | .operator => "operator"
  | .probe => "macro"
  | .name => "name"
  | .constant => "constant"

end TermKind

structure Term where
  kind : TermKind
  text : String
  pos : Position
  deriving DecidableEq, Repr

structure Expression where
  terms : List Term
  pos : Position
  deriving DecidableEq, Repr

namespace Expression

/-- The terms with one space between them. -/
def text (expression : Expression) : String :=
  " ".intercalate (expression.terms.map Term.text)

end Expression

def probes : List String := ["@eof", "@pos", "@size"]

end BinarySchema
