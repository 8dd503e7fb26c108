import BinarySchema.Definition

/-!
# Type tables

The definitions of a schema by name, in the order of their first definition. A name can be reserved
before it is defined, so that a struct may mention itself. A frozen table changes no more.
-/

namespace BinarySchema

structure TypeTable where
  definitions : List Definition := []
  reserved : List (String × FieldKind) := []
  frozen : Bool := false
  deriving Repr

inductive TableError where
  | readOnly
  deriving DecidableEq, Repr

def TableError.message : TableError → String
  | .readOnly => "type table is read-only after compilation"

namespace TypeTable

def empty : TypeTable := {}

def find? (table : TypeTable) (name : String) : Option Definition :=
  table.definitions.find? (·.name = name)

def names (table : TypeTable) : List String :=
  table.definitions.map Definition.name

def size (table : TypeTable) : Nat :=
  table.definitions.length

def contains (table : TypeTable) (name : String) : Bool :=
  (table.find? name).isSome

def reservedKind? (table : TypeTable) (name : String) : Option FieldKind :=
  (table.reserved.find? (·.1 = name)).map Prod.snd

def kindOf? (table : TypeTable) (name : String) : Option FieldKind :=
  match table.find? name with
  | some definition => some definition.kind
  | none => table.reservedKind? name

def declares (table : TypeTable) (name : String) : Bool :=
  table.contains name || (table.reservedKind? name).isSome

/-- Promises a definition. -/
def reserve (table : TypeTable) (name : String) (kind : FieldKind) : Except TableError TypeTable :=
  if table.frozen then .error .readOnly
  else .ok { table with reserved := (name, kind) :: table.reserved.filter (·.1 ≠ name) }

/-- Puts a definition in the place of the one with the same name, or at the end. -/
def insert (definition : Definition) : List Definition → List Definition
  | [] => [definition]
  | head :: rest =>
    if head.name = definition.name then definition :: rest else head :: insert definition rest

def define (table : TypeTable) (definition : Definition) : Except TableError TypeTable :=
  if table.frozen then .error .readOnly
  else .ok { table with
    definitions := insert definition table.definitions
    reserved := table.reserved.filter (·.1 ≠ definition.name) }

/-- Ends all changes. Names that were only reserved are forgotten. -/
def freeze (table : TypeTable) : TypeTable :=
  { table with reserved := [], frozen := true }

end TypeTable

end BinarySchema
