import BinarySchema.Command.Arguments
import BinarySchema.Datum.Json
import BinarySchema.Options.File
import BinarySchema.Validation

/-!
# Commands

A command is a function from its arguments and the files it can read to what it prints. Errors that
a command is meant to report are part of its output; on all others it breaks down and keeps what it
has printed so far.
-/

namespace BinarySchema

/-- A fault that a command does not report. -/
inductive Breakdown where
  | lexical (error : LexicalError)
  | file (error : TextFileError)
  | schema (error : SchemaFileError)
  | yaml (fault : Datum.Yaml.Fault)
  | options (error : OptionsError)
  | decode (failure : Failure)
  | vectors (fault : TestVector.Breakdown)
  /-- A report is about a value that JSON has no form for. -/
  | json (fault : Datum.FormFault)
  /-- An argument names no file. -/
  | noFile
  | numeralTooLong
  deriving Repr

def Breakdown.message : Breakdown → String
  | .lexical error => error.message
  | .file error => error.message
  | .schema error => error.message
  | .yaml fault => YamlFileError.message (.yaml fault)
  | .options error => error.message
  | .decode failure => failure.message
  | .vectors fault => fault.message
  | .json .numeralTooLong => Number.tooLongToWrite
  | .json .noForm => "a value has no JSON form"
  | .noFile => "an argument names no file"
  | .numeralTooLong => Number.tooLongToWrite

/-- What a command prints, the status that it ends with, and the fault if it breaks down. -/
structure Output where
  status : Nat := 0
  stdout : String := ""
  stderr : String := ""
  breakdown : Option Breakdown := none
  deriving Repr

namespace Output

/-- An error that is reported. -/
def refusal (message : String) : Output :=
  { status := 1, stderr := message ++ "\n" }

/-- A fault that is not reported, after something was printed. -/
def broken (fault : Breakdown) (stdout : String := "") : Output :=
  { status := 1, stdout, breakdown := some fault }

/-- The output when arguments are refused, with the form that they should have. -/
def ofRefusal (form : String) : Command.Refusal → Output
  | .help => { stdout := s!"usage: {form}\n" }
  | .usage => { status := 2, stderr := s!"usage: {form}\n" }

end Output

end BinarySchema
