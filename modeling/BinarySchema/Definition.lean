import BinarySchema.Expression
import BinarySchema.Primitive

/-!
# Definitions

What a schema declares: structs, enums and bitfields, and the bodies of fields and control blocks
that structs and the schema block hold. A body refers to a declared type by its name and kind.
-/

namespace BinarySchema

/-- The kinds of decoded fields. A field's type is of every kind but `array`. -/
inductive FieldKind where
  | primitive
  | struct
  | enum
  | bitfield
  | array
  deriving DecidableEq, Repr

def FieldKind.name : FieldKind → String
  | .primitive => "primitive"
  | .struct => "struct"
  | .enum => "enum"
  | .bitfield => "bitfield"
  | .array => "array"

def FieldKind.ofName? : String → Option FieldKind
  | "primitive" => some .primitive
  | "struct" => some .struct
  | "enum" => some .enum
  | "bitfield" => some .bitfield
  | "array" => some .array
  | _ => none

/-- A field's type: a primitive, or a declared type with the kind it was declared as. -/
inductive TypeRef where
  | primitive (primitive : Primitive)
  | named (kind : FieldKind) (name : String)
  deriving DecidableEq, Repr

namespace TypeRef

def kind : TypeRef → FieldKind
  | .primitive _ => .primitive
  | .named kind _ => kind

def name : TypeRef → String
  | .primitive p => p.keyword
  | .named _ name => name

end TypeRef

structure Field where
  name : String
  type : TypeRef
  pos : Position
  length : Option Expression := none
  comment : Option String := none
  deriving DecidableEq, Repr

namespace Field

def kind (field : Field) : FieldKind :=
  if field.length.isSome then .array else field.type.kind

def typeName (field : Field) : String :=
  if field.length.isSome then field.type.name ++ "[]" else field.type.name

end Field

/-- What a control block does with its condition: it is entered once or again and again, when the
condition holds or, if negated, when it does not. -/
structure Control where
  repeats : Bool
  negated : Bool
  deriving DecidableEq, Repr

namespace Control

def keyword : Control → String
  | ⟨false, false⟩ => "if"
  | ⟨false, true⟩ => "unless"
  | ⟨true, false⟩ => "while"
  | ⟨true, true⟩ => "until"

def all : List Control := [⟨false, false⟩, ⟨false, true⟩, ⟨true, false⟩, ⟨true, true⟩]

def ofWord? (word : String) : Option Control :=
  all.find? (·.keyword = word)

end Control

/-- The line of a control block without its body. -/
structure BlockHead where
  control : Control
  condition : Expression
  pos : Position
  deriving DecidableEq, Repr

def BlockHead.label (head : BlockHead) : String :=
  s!"{head.control.keyword}@{head.pos.line}:{head.pos.column}"

/-- A member of a body. -/
inductive Node where
  | field (field : Field)
  | block (head : BlockHead) (body : List Node)
  deriving Repr

structure StructDef where
  name : String
  body : List Node
  pos : Position
  deriving Repr

structure EnumMember where
  name : String
  value : Int
  deriving DecidableEq, Repr

structure EnumDef where
  name : String
  base : Primitive
  members : List EnumMember
  pos : Position
  deriving DecidableEq, Repr

namespace EnumDef

def memberFor? (enum : EnumDef) (value : Int) : Option EnumMember :=
  enum.members.find? (·.value = value)

def valueOf? (enum : EnumDef) (name : String) : Option Int :=
  (enum.members.find? (·.name = name)).map EnumMember.value

end EnumDef

structure BitfieldMember where
  name : String
  width : Nat
  comment : Option String := none
  deriving DecidableEq, Repr

structure BitfieldDef where
  name : String
  base : Primitive
  members : List BitfieldMember
  pos : Position
  deriving DecidableEq, Repr

inductive Definition where
  | struct (definition : StructDef)
  | enum (definition : EnumDef)
  | bitfield (definition : BitfieldDef)
  deriving Repr

namespace Definition

def name : Definition → String
  | .struct d => d.name
  | .enum d => d.name
  | .bitfield d => d.name

def kind : Definition → FieldKind
  | .struct _ => .struct
  | .enum _ => .enum
  | .bitfield _ => .bitfield

def pos : Definition → Position
  | .struct d => d.pos
  | .enum d => d.pos
  | .bitfield d => d.pos

end Definition

end BinarySchema
