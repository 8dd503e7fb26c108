import BinarySchema.Result

/-!
# Plain results

A result tree as plain data: a scope becomes a map from names to values, an address and a time
become text. The verbose form gives each field's type, offset and size beside its value, and its
comment unless that is empty.
-/

namespace BinarySchema

def visibleComment (comment : Option String) : Option String :=
  comment.filter (· ≠ "")

/-- The verbose form of a field around the plain form of its value. -/
def Entry.detail {α : Type} (entry : Entry α) (value : Datum) : Datum :=
  let shown := [
    (.text "type", .text entry.typeName), (.text "offset", .int entry.offset),
    (.text "size", .int entry.size), (.text "value", value)]
  match visibleComment entry.comment with
  | some comment => .map (shown ++ [(.text "comment", .text comment)])
  | none => .map shown

mutual

def Datum.plain (verbose : Bool) : Datum → Datum
  | .address n => .text (Text.address n)
  | .time t => .text (t.text 'T')
  | .scope entries => .map (Datum.plainEntries verbose entries)
  | datum => datum
termination_by structural datum => datum

def Datum.plainEntries (verbose : Bool) : List (Entry Datum) → List (Datum × Datum)
  | [] => []
  | entry :: rest => Datum.plainEntry verbose entry :: Datum.plainEntries verbose rest
termination_by structural entries => entries

def Datum.plainEntry (verbose : Bool) : Entry Datum → Datum × Datum
  | ⟨kind, name, offset, size, typeName, value, comment, raw⟩ =>
    let plain := Datum.plain verbose value
    let entry : Entry Unit := ⟨kind, name, offset, size, typeName, (), comment, raw⟩
    (.text name, if verbose then entry.detail plain else plain)
termination_by structural entry => entry

end

theorem Datum.plainEntries_cons (verbose : Bool) (field : Entry Datum) (rest : List (Entry Datum)) :
    Datum.plainEntries verbose (field :: rest)
      = (.text field.name, if verbose then field.detail (field.value.plain true)
          else field.value.plain false) :: Datum.plainEntries verbose rest := by
  cases field
  cases verbose <;> rfl

theorem Datum.plainEntries_eq_map (verbose : Bool) (fields : List (Entry Datum)) :
    Datum.plainEntries verbose fields
      = fields.map fun field => (.text field.name, if verbose then field.detail (field.value.plain true)
          else field.value.plain false) := by
  induction fields with
  | nil => rfl
  | cons field rest ih => rw [plainEntries_cons, ih, List.map_cons]

/-- The plain form of a scope. -/
def Scope.plain (scope : Scope) (verbose : Bool) : Datum :=
  .map (Datum.plainEntries verbose scope)

end BinarySchema
