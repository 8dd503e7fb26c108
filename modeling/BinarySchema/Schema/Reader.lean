import BinarySchema.Schema.Error

/-!
# Reading schema source

The small steps from which the grammar is built: the next token, an expected mark, a name, a number,
an expression in brackets. Each step reads from a cursor and either goes on behind what it read or
ends the compilation with its error.
-/

namespace BinarySchema

/-- A step of reading source tokens. -/
abbrev Reader := StateT Cursor (Except CompileError)

namespace Reader

def ofStep (step : Cursor → Except CursorError Token × Cursor) : Reader Token := fun cursor =>
  match step cursor with
  | (.ok token, rest) => .ok (token, rest)
  | (.error error, _) => .error (.ofCursor error)

def next : Reader Token := ofStep Cursor.next

def nextRaw : Reader Token := ofStep Cursor.nextRaw

def peek : Reader Token := ofStep Cursor.peek

def peekRaw : Reader Token := ofStep Cursor.peekRaw

/-- The number of tokens before the end. It bounds the steps of every loop over them. -/
def remaining : Reader Nat := fun cursor => .ok (cursor.tokens.length, cursor)

def unexpected {α : Type} (expected : String) (found : Token) : Reader α :=
  throw (.unexpected expected found)

/-- The end of the source where more was expected. Loops that count their steps by the remaining
tokens use it for the count that never runs out. -/
def unexpectedEnd {α : Type} (expected : String) : Reader α := do
  unexpected expected { (← peek) with kind := .endOfInput }

def expectPunctuation (text : String) : Reader Token := do
  let token ← next
  if token.isPunctuation text then return token
  unexpected s!"[{text}]" token

/-- Whether a token is a word without `@` and points. -/
def isPlainName (token : Token) : Bool :=
  token.kind = .word && Lexeme.isIdentifier token.text.toList

def expectName (what : String) : Reader Token := do
  let token ← next
  if isPlainName token then return token
  unexpected what token

def numberValue (token : Token) : Reader Nat :=
  match Number.readNumeral token.text.toList with
  | .ok value => return value.toNat
  | .error (.tooLong digits) => throw (.numberTooLong digits)
  | .error .malformed => unexpected "numerical value" token

def expectNumber : Reader Nat := do
  let token ← next
  if token.kind = .number then numberValue token
  else unexpected "numerical value" token

/-- The documentation of a declaration: the text of the comment that is the very next token. -/
def documentation : Reader (Option String) := do
  let token ← peekRaw
  if token.kind = .comment then
    let comment ← nextRaw
    return some comment.commentText
  return none

/-! ### Expressions -/

def term (closer : String) (token : Token) : Reader Term :=
  match token.kind with
  | .number => return ⟨.number (← numberValue token), token.text, token.pos⟩
  | .operator => return ⟨.operator, token.text, token.pos⟩
  | .word =>
    if token.text.startsWith "@" then
      if probes.contains token.text then return ⟨.probe, token.text, token.pos⟩
      else unexpected "[@eof, @pos, @size]" token
    else if token.text.toList.contains '.' then return ⟨.constant, token.text, token.pos⟩
    else return ⟨.name, token.text, token.pos⟩
  | _ => unexpected s!"expression or [{closer}]" token

/-- The terms up to the closing mark. -/
def terms (closer : String) : (steps : Nat) → Reader (List Term)
  | 0 => unexpectedEnd s!"expression or [{closer}]"
  | steps + 1 => do
    let token ← next
    if token.isPunctuation closer then return []
    let head ← term closer token
    return head :: (← terms closer steps)

/-- An expression through its closing mark. -/
def expression (closer : String) : Reader Expression := do
  let start ← peek
  let read ← terms closer ((← remaining) + 1)
  if read.isEmpty then unexpected "expression" start
  return ⟨read, start.pos⟩

end Reader

end BinarySchema
