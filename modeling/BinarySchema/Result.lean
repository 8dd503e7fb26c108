import BinarySchema.Datum

/-!
# Result trees

What decoding produces: a scope of named results in the order of decoding. The value of a struct,
bitfield or array result is again a scope. Names are unique within a scope; a name is looked up in
the innermost scope first and then in the scopes around it.
-/

namespace BinarySchema

abbrev Result := Entry Datum

abbrev Scope := List Result

def Datum.isScope : Datum → Bool
  | .scope _ => true
  | _ => false

/-- A name that is already taken in a scope, and where the field that wants it stands. -/
structure DuplicateName where
  name : String
  offset : Int
  deriving DecidableEq, Repr

namespace Scope

def names (scope : Scope) : List String :=
  scope.map Entry.name

def get? (scope : Scope) (name : String) : Option Result :=
  scope.find? (·.name = name)

def contains (scope : Scope) (name : String) : Bool :=
  scope.any (·.name = name)

/-- The scope with one more result at its end. -/
def add (scope : Scope) (result : Result) : Except DuplicateName Scope :=
  if contains scope result.name then .error ⟨result.name, result.offset⟩
  else .ok (scope ++ [result])

def addAll (scope : Scope) (results : List Result) : Except DuplicateName Scope :=
  results.foldlM add scope

theorem contains_iff {scope : Scope} {name : String} :
    contains scope name = true ↔ name ∈ names scope := by
  simp [contains, names]

theorem add_eq_error_iff {scope : Scope} {result : Result} {duplicate : DuplicateName} :
    scope.add result = .error duplicate ↔
      result.name ∈ names scope ∧ duplicate = ⟨result.name, result.offset⟩ := by
  unfold add
  rw [← contains_iff]
  split
  · rename_i h
    simp [h, eq_comm]
  · rename_i h
    simp [h]

/-- Looks a name up in a chain of scopes, the innermost first. -/
def resolve? (chain : List Scope) (name : String) : Option Result :=
  chain.findSome? (get? · name)

@[simp] theorem resolve?_cons (scope : Scope) (around : List Scope) (name : String) :
    resolve? (scope :: around) name = (get? scope name).or (resolve? around name) := by
  unfold resolve?
  rw [List.findSome?_cons]
  cases get? scope name <;> rfl

def print (scope : Scope) : String :=
  Datum.scopeLiteral scope

def totalSize (scope : Scope) : Int :=
  (scope.map Entry.size).foldr (· + ·) 0

end Scope

end BinarySchema
