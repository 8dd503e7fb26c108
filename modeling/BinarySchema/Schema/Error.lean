import BinarySchema.Definition.Table
import BinarySchema.FileSystem
import BinarySchema.Number.Integer
import BinarySchema.Token.Cursor

/-!
# Compile errors

Everything that can be wrong with the source of a schema, and how it is said.
-/

namespace BinarySchema

inductive CompileError where
  /-- The source cannot be split into tokens. -/
  | lexical (error : LexicalError)
  /-- One thing was expected and another token stands there. -/
  | unexpected (expected : String) (found : Token)
  | alreadyDeclared (name : Token)
  /-- A second schema block in the outermost source. -/
  | secondRoot (keyword : Token)
  | unknownType (name : String) (pos : Position)
  | missingInclude (path : String) (pos : Position)
  | circularInclude (name path : String) (pos : Position)
  | unreadableInclude (path : String) (reason : String) (pos : Position)
  /-- The file of an include cannot even be looked for. -/
  | inaccessible (error : FileError)
  /-- A decimal numeral with more digits than can be read. -/
  | numberTooLong (digits : Nat)
  | nulInPath
  /-- Tokens were read beyond the fault that ended them. -/
  | spent
  deriving DecidableEq, Repr

namespace CompileError

def ofCursor : CursorError → CompileError
  | .lexical error => .lexical error
  | .spent => .spent

/-- Where the error stands; errors that are not about a place have none. -/
def pos? : CompileError → Option Position
  | .lexical error => some error.pos
  | .unexpected _ found => some found.pos
  | .alreadyDeclared name => some name.pos
  | .secondRoot keyword => some keyword.pos
  | .unknownType _ pos => some pos
  | .missingInclude _ pos => some pos
  | .circularInclude _ _ pos => some pos
  | .unreadableInclude _ _ pos => some pos
  | .inaccessible _ => none
  | .numberTooLong _ => none
  | .nulInPath => none
  | .spent => none

/-- Whether the error is a finding about the source or its files, and not a limit of numbers or a name
that no file can have. -/
def isAboutSource : CompileError → Bool
  | .numberTooLong _ | .nulInPath | .spent => false
  | _ => true

/-- What was expected and what was found, for the errors of grammar. -/
def expectation? : CompileError → Option (String × String)
  | .unexpected expected found => some (expected, found.describe)
  | .alreadyDeclared name => some ("unique type name", name.describe)
  | .secondRoot keyword => some ("a single schema block", keyword.describe)
  | _ => none

/-- What is wrong, without the place. -/
def reason : CompileError → String
  | .lexical error => error.message
  | .unexpected expected found => s!"expected {expected}, got {found.describe}"
  | .alreadyDeclared name => s!"type [{name.text}] is already declared"
  | .secondRoot _ => "schema block declared twice"
  | .unknownType name _ => s!"the type [{name}] does not exist"
  | .missingInclude path _ => s!"couldn't locate include file: {path}"
  | .circularInclude name _ _ => s!"circular include: {name}"
  | .unreadableInclude path reason _ => s!"couldn't read include file {path}: {reason}"
  | .inaccessible error => error.message
  | .numberTooLong digits => Number.tooLongToRead digits
  | .nulInPath => "embedded null byte"
  | .spent => ""

def message (error : CompileError) : String :=
  match error, error.pos? with
  | .lexical inner, _ => inner.message
  | _, some pos => s!"({pos.line}:{pos.column}) {error.reason}"
  | _, none => error.reason

end CompileError

end BinarySchema
