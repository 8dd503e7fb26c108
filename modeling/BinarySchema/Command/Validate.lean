import BinarySchema.Command
import BinarySchema.Validation.Report

/-!
# The validate command

Compiles the schema in a file, runs the test vectors of another one with it, and prints a report.
The status is zero exactly when the schema can be used and every vector passed.
-/

namespace BinarySchema.Command

/-- What the arguments ask for. Without a value, the schema names no file. -/
structure ValidateRequest where
  schema : Option String
  vectors : Option String := none
  verbose : Bool := false
  json : Bool := false
  deriving Repr

namespace ValidateRequest

def flags : List Flag := [.help, ⟨["-v", "--verbose"], none⟩, ⟨["--json"], none⟩]

def form : String := "validate [-v] [--json] SCHEMA [VECTORS]"

def ofArguments (arguments : List String) : Except Refusal ValidateRequest := do
  let parsed ← parse flags [.required, .optional] arguments
  return {
    schema := parsed.value? 0
    vectors := (parsed.value? 1).filter (· ≠ "")
    verbose := parsed.has "--verbose"
    json := parsed.has "--json" }

/-- The map of the vector file; an empty one without a file. -/
def readVectors (request : ValidateRequest) (machine : Machine) : Except VectorFileError Datum :=
  match request.vectors with
  | some path => TestVector.load machine path
  | none => .ok (.map [])

def status (validation : Validation) : Nat :=
  if validation.allPassed then 0 else 1

def print (request : ValidateRequest) (schema : String) (validation : Validation) : Output :=
  if request.json then
    match validation.toDatum.json (some 2) with
    | .ok text => { status := status validation, stdout := text ++ "\n" }
    | .error fault => .broken (.json fault)
  else
    let head := s!"Validating: {schema}\n" ++ Validation.rule '=' ++ "\n"
    match Validation.written (validation.lines request.verbose) with
    | (text, true) => { status := status validation, stdout := head ++ text }
    | (text, false) => .broken .numeralTooLong (head ++ text)

def run (request : ValidateRequest) (machine : Machine) : Output :=
  match request.readVectors machine with
  | .error error =>
    match error, error.isFinding with
    | .file (.yaml fault), false => .broken (.yaml fault)
    | _, _ => .refusal s!"Error loading vectors: {error.message}"
  | .ok vectors =>
    match request.schema with
    | none => .broken .noFile
    | some schema =>
      match Validation.ofFile machine schema vectors with
      | .error fault => .broken (.vectors fault)
      | .ok validation => request.print schema validation

end ValidateRequest

def validate (machine : Machine) (arguments : List String) : Output :=
  match ValidateRequest.ofArguments arguments with
  | .ok request => request.run machine
  | .error refusal => .ofRefusal ValidateRequest.form refusal

end BinarySchema.Command
