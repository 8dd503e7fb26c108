import BinarySchema.Datum.Yaml.File
import BinarySchema.TestVector

/-!
# Vector files

A vector file holds a map with options and a list of test vectors. Its shape is checked when it is
read: each vector is a map with a payload and with something that is expected of it.
-/

namespace BinarySchema

inductive VectorFault where
  | notMap
  | noPayload (name : Option Datum)
  | noExpectation (name : Option Datum)
  deriving Repr

inductive VectorFileError where
  | file (error : YamlFileError)
  | notMap (path : String)
  | notList (path : String)
  | vector (index : Nat) (fault : VectorFault)
  deriving Repr

namespace VectorFileError

/-- A vector's index and name, if the name has a text. -/
def label? (index : Nat) (name : Option Datum) : Option String :=
  let name := name.getD (.text "?")
  if name.hasNumerals then some s!"Test vector {index} ({name.plainText})" else none

def message : VectorFileError → String
  | .file error => error.message
  | .notMap path => s!"{path}: vectors file must contain a mapping"
  | .notList path => s!"{path}: 'test_vectors' must be an array"
  | .vector index .notMap => s!"Test vector {index}: must be an object"
  | .vector index (.noPayload name) =>
    match label? index name with
    | some label => label ++ ": missing 'payload'"
    | none => Number.tooLongToWrite
  | .vector index (.noExpectation name) =>
    match label? index name with
    | some label => label ++ ": needs 'expected' or 'error'"
    | none => Number.tooLongToWrite

/-- Whether the error is a finding about a file or the vectors in it. -/
def isFinding : VectorFileError → Bool
  | .file error => error.isFinding
  | _ => true

end VectorFileError

namespace TestVector

def checkShape (datum : Datum) : Except VectorFault Unit :=
  match datum with
  | .map _ =>
    if (datum.get? "payload").isNone then .error (.noPayload (datum.get? "name"))
    else if (datum.get? "expected").isNone && (datum.get? "error").isNone then
      .error (.noExpectation (datum.get? "name"))
    else .ok ()
  | _ => .error .notMap

/-- Checks the shapes of vectors, the first of which has the given index. -/
def checkShapes (index : Nat) : List Datum → Except VectorFileError Unit
  | [] => .ok ()
  | datum :: rest => do
    (checkShape datum).mapError (.vector index)
    checkShapes (index + 1) rest

/-- The data of a vector file, once their shape is checked. No data at all are an empty map. -/
def checkFile (path : String) (datum : Datum) : Except VectorFileError Datum := do
  let datum := if datum.isEmpty then .map [] else datum
  match datum with
  | .map _ =>
    match (datum.get? "test_vectors").getD (.list []) with
    | .list vectors => checkShapes 0 vectors
    | _ => throw (.notList path)
    return datum
  | _ => throw (.notMap path)

def load (machine : Machine) (path : String) : Except VectorFileError Datum := do
  let datum ← (machine.readYaml path).mapError .file
  checkFile path datum

end TestVector

end BinarySchema
