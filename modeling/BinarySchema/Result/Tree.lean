import BinarySchema.Result.Plain

/-!
# Result trees as text

One line for each field with its name, type, offset and size, and its value unless the fields inside
it follow, indented by two more spaces.
-/

namespace BinarySchema

def Entry.header {α : Type} (entry : Entry α) : String :=
  s!"{entry.name} <{entry.typeName}> @{entry.offset} +{entry.size}"

def commentSuffix (comment : Option String) : String :=
  match visibleComment comment with
  | some comment => "  // " ++ comment
  | none => ""

mutual

def Datum.treeLines (depth : Nat) : Datum → List String
  | .scope entries => Datum.treeEntries depth entries
  | _ => []
termination_by structural value => value

def Datum.treeEntries (depth : Nat) : List (Entry Datum) → List String
  | [] => []
  | entry :: rest => Datum.treeEntry depth entry ++ Datum.treeEntries depth rest
termination_by structural entries => entries

def Datum.treeEntry (depth : Nat) : Entry Datum → List String
  | ⟨kind, name, offset, size, typeName, value, comment, raw⟩ =>
    let entry : Entry Unit := ⟨kind, name, offset, size, typeName, (), comment, raw⟩
    let shown := if value.isScope then "" else ": " ++ (value.plain false).literal
    (String.ofList (List.replicate (2 * depth) ' ') ++ entry.header ++ shown ++
      commentSuffix comment) :: Datum.treeLines (depth + 1) value
termination_by structural entry => entry

end

/-- The tree of a scope, its outermost lines indented by `2 * depth` spaces. -/
def Scope.tree (scope : Scope) (depth : Nat) : String :=
  "\n".intercalate (Datum.treeEntries depth scope)

def Scope.tree? (scope : Scope) (depth : Nat) : Option String :=
  if (scope.plain true).hasNumerals then some (scope.tree depth) else none

end BinarySchema
