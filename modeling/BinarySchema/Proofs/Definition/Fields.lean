import BinarySchema.Definition.Table

/-!
# The fields of bodies and definitions

Every field declaration of a body in the order of the source, however deep it stands in control
blocks, and the heads of these blocks. Statements about all declarations of a schema go through the list
of fields, and those about all primitives that a schema reads also through the bases of its enums and
bitfields.
-/

namespace BinarySchema

mutual

def Node.fields : Node → List Field
  | .field declared => [declared]
  | .block _ body => bodyFields body
termination_by structural node => node

def bodyFields : List Node → List Field
  | [] => []
  | node :: rest => node.fields ++ bodyFields rest
termination_by structural body => body

end

@[simp] theorem Node.fields_field (declared : Field) : (Node.field declared).fields = [declared] :=
  rfl

@[simp] theorem Node.fields_block (head : BlockHead) (body : List Node) :
    (Node.block head body).fields = bodyFields body := rfl

@[simp] theorem bodyFields_nil : bodyFields [] = [] := rfl

@[simp] theorem bodyFields_cons (node : Node) (rest : List Node) :
    bodyFields (node :: rest) = node.fields ++ bodyFields rest := rfl

theorem bodyFields_append (left right : List Node) :
    bodyFields (left ++ right) = bodyFields left ++ bodyFields right := by
  induction left with
  | nil => rfl
  | cons node rest ih => simp [ih]

theorem bodyFields_map_field (declared : List Field) :
    bodyFields (declared.map Node.field) = declared := by
  induction declared with
  | nil => rfl
  | cons field rest ih => simp [ih]

mutual

def Node.heads : Node → List BlockHead
  | .field _ => []
  | .block head body => head :: bodyHeads body
termination_by structural node => node

def bodyHeads : List Node → List BlockHead
  | [] => []
  | node :: rest => node.heads ++ bodyHeads rest
termination_by structural body => body

end

@[simp] theorem Node.heads_field (declared : Field) : (Node.field declared).heads = [] := rfl

@[simp] theorem Node.heads_block (head : BlockHead) (body : List Node) :
    (Node.block head body).heads = head :: bodyHeads body := rfl

@[simp] theorem bodyHeads_nil : bodyHeads [] = [] := rfl

@[simp] theorem bodyHeads_cons (node : Node) (rest : List Node) :
    bodyHeads (node :: rest) = node.heads ++ bodyHeads rest := rfl

theorem bodyHeads_append (left right : List Node) :
    bodyHeads (left ++ right) = bodyHeads left ++ bodyHeads right := by
  induction left with
  | nil => rfl
  | cons node rest ih => simp [ih]

theorem bodyHeads_map_field (declared : List Field) : bodyHeads (declared.map Node.field) = [] := by
  induction declared with
  | nil => rfl
  | cons field rest ih => simp [ih]

/-- The field declarations of a definition. -/
def Definition.fields : Definition → List Field
  | .struct definition => bodyFields definition.body
  | .enum _ | .bitfield _ => []

/-- The heads of the control blocks of a definition. -/
def Definition.heads : Definition → List BlockHead
  | .struct definition => bodyHeads definition.body
  | .enum _ | .bitfield _ => []

/-- The primitive whose bytes a definition gives another reading. -/
def Definition.base? : Definition → Option Primitive
  | .struct _ => none
  | .enum definition => some definition.base
  | .bitfield definition => some definition.base

end BinarySchema
