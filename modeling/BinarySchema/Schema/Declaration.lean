import BinarySchema.Schema.Body

/-!
# Declarations

The definitions of structs, enums and bitfields behind their keywords. A declared name is new and is
no primitive's keyword.
-/

namespace BinarySchema.Reader

def freshName (types : TypeTable) : Reader Token := do
  let token ← expectName "type name"
  if types.declares token.text || (Primitive.ofWord? token.text).isSome then
    throw (.alreadyDeclared token)
  return token

def baseType : Reader Primitive := do
  let token ← next
  match token.kind, Primitive.ofWord? token.text with
  | .word, some primitive => return primitive
  | _, _ => unexpected "primitive base type" token

/-- A step on a type table, which is not frozen while its schema is read. -/
def changeTypes (change : Except TableError TypeTable) (otherwise : TypeTable) : TypeTable :=
  change.toOption.getD otherwise

/-- A struct's definition and the table with it. While its body is read, the struct's own name is
reserved. -/
def structDeclaration (types : TypeTable) : Reader TypeTable := do
  let name ← freshName types
  let reserved := changeTypes (types.reserve name.text .struct) types
  let members ← body reserved
  return changeTypes (reserved.define (.struct ⟨name.text, members, name.pos⟩)) reserved

/-! ### Enums -/

def enumValue : Reader Int := do
  let token ← peek
  if token.isOperator "-" then
    let _ ← next
    return -(← expectNumber)
  return (← expectNumber)

/-- The members of an enum through the closing brace. A member without a value has the one after
the member before it; `value` is the next such value. -/
def enumMembers : (steps : Nat) → (value : Int) → Token → Reader (List EnumMember)
  | 0, _, _ => unexpectedEnd "enum member name"
  | steps + 1, value, token => do
    if token.isPunctuation "\x7d" then return []
    if !isPlainName token then unexpected "enum member name" token
    let mark ← next
    let (own, mark) ←
      if mark.isOperator "=" then pure (← enumValue, ← next) else pure (value, mark)
    let rest ←
      if mark.isPunctuation "," then enumMembers steps (own + 1) (← next)
      else if mark.isPunctuation "\x7d" then pure []
      else unexpected "[,] or [\x7d]" mark
    return ⟨token.text, own⟩ :: rest

def enumDeclaration (types : TypeTable) : Reader TypeTable := do
  let name ← freshName types
  let _ ← expectPunctuation ":"
  let base ← baseType
  let _ ← expectPunctuation "\x7b"
  let members ← enumMembers ((← remaining) + 1) 0 (← next)
  return changeTypes (types.define (.enum ⟨name.text, base, members, name.pos⟩)) types

/-! ### Bitfields -/

/-- The members of a bitfield through the closing brace. -/
def bitfieldMembers : (steps : Nat) → Reader (List BitfieldMember)
  | 0 => unexpectedEnd "bitfield member name"
  | steps + 1 => do
    let token ← next
    if token.isPunctuation "\x7d" then return []
    if !isPlainName token then unexpected "bitfield member name" token
    let _ ← expectPunctuation ":"
    let width ← expectNumber
    let _ ← expectPunctuation ";"
    let comment ← documentation
    return ⟨token.text, width, comment⟩ :: (← bitfieldMembers steps)

def bitfieldDeclaration (types : TypeTable) : Reader TypeTable := do
  let name ← freshName types
  let _ ← expectPunctuation ":"
  let base ← baseType
  let _ ← expectPunctuation "\x7b"
  let members ← bitfieldMembers ((← remaining) + 1)
  return changeTypes (types.define (.bitfield ⟨name.text, base, members, name.pos⟩)) types

end BinarySchema.Reader
