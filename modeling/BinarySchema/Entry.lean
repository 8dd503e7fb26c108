import BinarySchema.Definition

/-!
# Entries

A decoded field: its name and type, where its bytes stand in the input, and the value they have.
Values can hold entries themselves, so their type is a parameter here.
-/

namespace BinarySchema

/-- One decoded field. `raw` is the integer behind the value of an enum, a bitfield or a time. -/
structure Entry (α : Type) where
  kind : FieldKind
  name : String
  offset : Int
  size : Int
  typeName : String
  value : α
  comment : Option String := none
  raw : Option Int := none
  deriving Repr

namespace Entry

def rename {α : Type} (entry : Entry α) (name : String) : Entry α :=
  { entry with name }

end Entry

end BinarySchema
