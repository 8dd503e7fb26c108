import BinarySchema.Datum.Json
import BinarySchema.Validation

/-!
# Validation reports

A validation as data, and as text to be read. The text gives one line for each vector; more is said
about those that failed, and about all of them in a verbose report.
-/

namespace BinarySchema

namespace TestVector.Outcome

def toDatum (outcome : Outcome) : Datum :=
  .map [
    (.text "name", outcome.name),
    (.text "passed", .bool outcome.passed),
    (.text "description", outcome.description),
    (.text "payload", .text (Payload.hex outcome.payload)),
    (.text "actual", .map outcome.decoded),
    (.text "errors", .list (outcome.findings.map fun finding => .text finding.message)),
    (.text "warnings", .list (outcome.warnings.map fun warning => .text warning.message))]

/-- A line about a value; none if it has integers without numerals. -/
def lineAbout (value : Datum) (line : String → String) : Option String :=
  if value.hasNumerals then some (line value.plainText) else none

/-- The line that says whether the vector passed. -/
def verdict (outcome : Outcome) : Option String :=
  lineAbout outcome.name fun name =>
    if outcome.passed then s!"✓ {name}: PASS" else s!"✗ {name}: FAIL"

/-- What else there is to say about a vector, and an empty line. -/
def details (outcome : Outcome) : List (Option String) :=
  let payload := Payload.hex outcome.payload
  (if outcome.description.isEmpty then []
    else [lineAbout outcome.description ("    Description: " ++ ·)])
    ++ (if payload.isEmpty then [] else [some ("    Payload: " ++ payload)])
    ++ outcome.findings.map (fun finding => some ("    ERROR: " ++ finding.message))
    ++ outcome.warnings.map (fun warning => some ("    WARNING: " ++ warning.message))
    ++ (if outcome.passed then [lineAbout (.map outcome.decoded) ("    Decoded: " ++ ·)] else [])
    ++ [some ""]

def lines (verbose : Bool) (outcome : Outcome) : List (Option String) :=
  outcome.verdict :: if outcome.passed && !verbose then [] else outcome.details

end TestVector.Outcome

namespace Validation

def schemaErrors : Validation → List String
  | .unusable problem => [problem.message]
  | .run _ => []

def toDatum (validation : Validation) : Datum :=
  .map [
    (.text "schema_valid", .bool validation.isUsable),
    (.text "schema_errors", .list (validation.schemaErrors.map .text)),
    (.text "test_results", .list (validation.outcomes.map (·.toDatum))),
    (.text "tests_passed", .int validation.passedCount),
    (.text "all_passed", .bool validation.allPassed)]

/-- A line across the report. -/
def rule (c : Char) : String := String.ofList (List.replicate 50 c)

/-- The lines of the report on a schema that vectors were run with. -/
def runLines (validation : Validation) (verbose : Bool) : List (Option String) :=
  let total := validation.outcomes.length
  let summary :=
    if validation.allPassed then s!"PASSED: All {total} tests passed"
    else s!"FAILED: {validation.failures.length} of {total} tests failed"
  if total = 0 then [some "", some "No test vectors found."]
  else
    [some "", some s!"Test Vectors: {validation.passedCount}/{total} passed", some (rule '-')]
      ++ validation.outcomes.flatMap (·.lines verbose) ++ [some (rule '-'), some summary]

/-- The lines of the report, each unless it is about integers without numerals. -/
def lines (validation : Validation) (verbose : Bool) : List (Option String) :=
  if validation.isUsable then some "Schema: VALID" :: validation.runLines verbose
  else some "Schema: INVALID" :: validation.schemaErrors.map fun error => some ("  - " ++ error)

/-- Lines up to the first that cannot be written, and whether these are all. -/
def written : List (Option String) → String × Bool
  | [] => ("", true)
  | none :: _ => ("", false)
  | some line :: rest =>
    let (text, complete) := written rest
    (line ++ "\n" ++ text, complete)

def text? (validation : Validation) (verbose : Bool) : Option String :=
  match written (validation.lines verbose) with
  | (text, true) => some text
  | (_, false) => none

end Validation

end BinarySchema
