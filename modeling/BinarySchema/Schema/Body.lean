import BinarySchema.Schema.Reader

/-!
# Bodies

The bodies of structs and of the schema block: field declarations and nested control blocks between
braces. A declaration may give one type to several names; the comment directly behind its semicolon
documents all of them. Other comments are passed over.
-/

namespace BinarySchema.Reader

/-- A field's type: a primitive keyword first, then a name of the type table. -/
def typeRef (types : TypeTable) (token : Token) : Reader TypeRef :=
  match Primitive.ofWord? token.text with
  | some primitive => return .primitive primitive
  | none =>
    match types.kindOf? token.text with
    | some kind => return .named kind token.text
    | none => throw (.unknownType token.text token.pos)

/-- The further names of a declaration, through the colon. -/
def moreNames : (steps : Nat) → Reader (List Token)
  | 0 => unexpectedEnd "[,] or [:]"
  | steps + 1 => do
    let token ← next
    if token.isPunctuation ":" then return []
    if !token.isPunctuation "," then unexpected "[,] or [:]" token
    let name ← expectName "field name"
    return name :: (← moreNames steps)

/-- The length in brackets, if there is one, and the semicolon that ends a declaration. -/
def lengthAndEnd : Reader (Option Expression) := do
  let token ← next
  if token.isPunctuation "[" then
    let length ← expression "]"
    let _ ← expectPunctuation ";"
    return some length
  if token.isPunctuation ";" then return none
  unexpected "[;]" token

/-- A declaration whose first name is already read. -/
def fieldDeclaration (types : TypeTable) (first : Token) : Reader (List Field) := do
  if !isPlainName first then unexpected "field name" first
  let more ← moreNames ((← remaining) + 1)
  let typeToken ← next
  if typeToken.kind ≠ .word then unexpected "type identifier" typeToken
  let type ← typeRef types typeToken
  let length ← lengthAndEnd
  let comment ← documentation
  return (first :: more).map fun name => { name := name.text, type, pos := name.pos, length, comment }

/-- The line of a control block whose keyword is already read. -/
def blockHead (control : Control) (keyword : Token) : Reader BlockHead := do
  let _ ← expectPunctuation "("
  return ⟨control, ← expression ")", keyword.pos⟩

/-- The nodes of a body whose opening brace is read, through the closing one. -/
def nodes (types : TypeTable) : (steps : Nat) → Reader (List Node)
  | 0 => unexpectedEnd "identifier or [\x7d]"
  | steps + 1 => do
    let token ← next
    if token.isPunctuation "\x7d" then return []
    if token.kind ≠ .word then unexpected "identifier or [\x7d]" token
    match Control.ofWord? token.text with
    | some control =>
      let head ← blockHead control token
      let _ ← expectPunctuation "\x7b"
      let inner ← nodes types steps
      return .block head inner :: (← nodes types steps)
    | none =>
      let fields ← fieldDeclaration types token
      return fields.map .field ++ (← nodes types steps)

def body (types : TypeTable) : Reader (List Node) := do
  let _ ← expectPunctuation "\x7b"
  nodes types ((← remaining) + 1)

end BinarySchema.Reader
