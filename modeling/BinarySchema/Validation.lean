import BinarySchema.TestVector.File

/-!
# Validations

A schema is validated with the test vectors of a file. Without a schema that compiles, options that
are valid and a schema block that vectors can run with, no vector runs at all; else each runs by
itself. The options of the file are the options of every vector, before its own.
-/

namespace BinarySchema

/-- Why no vector can run. -/
inductive SchemaProblem where
  | schema (error : SchemaFileError)
  | options (error : OptionsError)
  | noRoot
  deriving Repr

def SchemaProblem.message : SchemaProblem → String
  | .schema error => error.message
  | .options error => error.message
  | .noRoot => "Schema has no schema block; test vectors cannot run"

/-- What the validation of a schema gave. -/
inductive Validation where
  | unusable (problem : SchemaProblem)
  | run (outcomes : List TestVector.Outcome)
  deriving Repr

namespace Validation

def outcomes : Validation → List TestVector.Outcome
  | .unusable _ => []
  | .run outcomes => outcomes

def isUsable : Validation → Bool
  | .unusable _ => false
  | .run _ => true

def failures (validation : Validation) : List TestVector.Outcome :=
  validation.outcomes.filter (!·.passed)

def passedCount (validation : Validation) : Nat :=
  validation.outcomes.length - validation.failures.length

def allPassed (validation : Validation) : Bool :=
  validation.isUsable && validation.failures.isEmpty

/-- The vectors in data. Text and maps count as the list of their characters and keys. -/
def vectors : Datum → Except TestVector.Breakdown (List Datum)
  | .list items => .ok items
  | .text s => .ok (s.toList.map fun c => .text (String.singleton c))
  | .codes points => .ok (points.map fun point => .ofCodes [point])
  | .map entries => .ok (entries.map Prod.fst)
  | .bytes content => .ok (content.map fun byte => .int byte.toNat)
  | _ => .error .notList

def vector : Datum → Except TestVector.Breakdown TestVector
  | .map entries => .ok (.ofMap (.map entries))
  | _ => .error .notMap

def sharedOptions (codecs : Text.Codecs) (given : Option Datum) :
    Except TestVector.Breakdown (Except OptionsError Options) :=
  let datum := given.getD .null
  if datum.isEmpty then .ok (.ok {})
  else match Options.ofDatum codecs datum with
    | .ok options => .ok (.ok options)
    | .error error => if error.isAboutContent then .ok (.error error) else .error (.options error)

def runAll (codecs : Text.Codecs) (schema : Schema) (options : Options) (given : List Datum) :
    Except TestVector.Breakdown (List TestVector.Outcome) :=
  given.mapM fun datum => do (← vector datum).run codecs schema options

/-- Validates the schema in a file with the map of a vector file. -/
def ofFile (machine : Machine) (schemaName : String) (file : Datum) :
    Except TestVector.Breakdown Validation :=
  match Schema.compileFile machine.files schemaName with
  | .error error => .ok (.unusable (.schema error))
  | .ok schema => do
    let file := if file.isEmpty then .map [] else file
    let .map _ := file | throw .notMap
    match ← sharedOptions machine.codecs (file.get? "options") with
    | .error error => return .unusable (.options error)
    | .ok options =>
      let given := (file.get? "test_vectors").getD (.list [])
      if !given.isEmpty && schema.root.isNone then return .unusable .noRoot
      return .run (← runAll machine.codecs schema options (← vectors given))

end Validation

end BinarySchema
