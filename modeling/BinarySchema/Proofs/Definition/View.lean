import BinarySchema.Definition

/-!
# Views of definitions

Definitions carry the places of their parts in the source and the comments that document them, and
neither is looked at when input is decoded. A view rewrites both everywhere in a definition and leaves
the rest alone, so that two schemas can be compared up to their places, or up to their comments.
-/

namespace BinarySchema

/-- How to rewrite places and comments. -/
structure View where
  place : Position → Position
  comment : Option String → Option String

namespace View

/-- The view without places: all of them are the first one. -/
def unplaced : View := ⟨fun _ => .first, id⟩

/-- The view without comments. -/
def undocumented : View := ⟨id, fun _ => none⟩

end View

variable (v : View)

def Term.view (term : Term) : Term := { term with pos := v.place term.pos }

def Expression.view (expression : Expression) : Expression :=
  ⟨expression.terms.map (Term.view v), v.place expression.pos⟩

def Field.view (field : Field) : Field :=
  { field with
    pos := v.place field.pos
    length := field.length.map (Expression.view v)
    comment := v.comment field.comment }

def BlockHead.view (head : BlockHead) : BlockHead :=
  ⟨head.control, head.condition.view v, v.place head.pos⟩

mutual

def Node.view : Node → Node
  | .field declared => .field (declared.view v)
  | .block head body => .block (head.view v) (bodyView body)
termination_by structural node => node

def bodyView : List Node → List Node
  | [] => []
  | node :: rest => Node.view node :: bodyView rest
termination_by structural body => body

end

def BitfieldMember.view (member : BitfieldMember) : BitfieldMember :=
  { member with comment := v.comment member.comment }

def Definition.view : Definition → Definition
  | .struct d => .struct ⟨d.name, bodyView v d.body, v.place d.pos⟩
  | .enum d => .enum { d with pos := v.place d.pos }
  | .bitfield d => .bitfield ⟨d.name, d.base, d.members.map (BitfieldMember.view v), v.place d.pos⟩

variable {v}

theorem Expression.view_undocumented : Expression.view .undocumented = id := by
  have hterm : Term.view .undocumented = id := rfl
  funext expression
  rw [view, hterm, List.map_id]
  rfl

@[simp] theorem Definition.name_view (definition : Definition) :
    (definition.view v).name = definition.name := by
  cases definition <;> rfl

@[simp] theorem Definition.kind_view (definition : Definition) :
    (definition.view v).kind = definition.kind := by
  cases definition <;> rfl

theorem bodyView_eq_map (body : List Node) : bodyView v body = body.map (Node.view v) := by
  induction body with
  | nil => rfl
  | cons node rest ih => rw [bodyView, ih, List.map_cons]

theorem bodyView_append (left right : List Node) :
    bodyView v (left ++ right) = bodyView v left ++ bodyView v right := by
  rw [bodyView_eq_map, bodyView_eq_map, bodyView_eq_map, List.map_append]

theorem bodyView_map_field (fields : List Field) :
    bodyView v (fields.map Node.field) = (fields.map (Field.view v)).map Node.field := by
  rw [bodyView_eq_map, List.map_map, List.map_map]
  rfl

end BinarySchema
