import BinarySchema.Command
import BinarySchema.Datum.Json
import BinarySchema.Result.Tree

/-!
# The decode command

Decodes a file, or a payload given in hexadecimal, with the schema in a file and prints the result.
Options come from a file first; flags override them.
-/

namespace BinarySchema.Command

/-- How a result is printed. -/
inductive Format where
  | json
  | yaml
  | tree
  deriving DecidableEq, Repr

/-- What the arguments ask for. Without a value, schema and input name no file. -/
structure DecodeRequest where
  schema : Option String
  input : Option String
  hex : Bool := false
  format : Format := .json
  verbose : Bool := false
  optionsFile : Option String := none
  overrides : List (Datum × Datum) := []
  deriving Repr

namespace DecodeRequest

def readLimit? (text : String) : Option Int :=
  (Number.readInteger 10 text.toList).toOption

def flags : List Flag := [
  .help, ⟨["--hex"], none⟩, .choice "--format" ["json", "yaml", "tree"],
  ⟨["-v", "--verbose"], none⟩, .free "--options", .choice "--endian" ["little", "big"],
  ⟨["--strict-enums"], none⟩, ⟨["--max-iterations"], some fun text => (readLimit? text).isSome⟩,
  .free "--encoding"]

def form : String :=
  "decode [--hex] [--format json|yaml|tree] [-v] [--options FILE] [--endian little|big] " ++
    "[--strict-enums] [--max-iterations N] [--encoding LABEL] SCHEMA INPUT"

/-- The value of a flag, unless it is empty. -/
def nonempty? (parsed : Parsed) (flag : String) : Option String :=
  (parsed.get? flag).filter (· ≠ "")

/-- The limit that a flag sets. Given without a value, it sets none that is valid. -/
def limit? (parsed : Parsed) : Option Datum :=
  if parsed.has "--max-iterations" then
    some ((((parsed.get? "--max-iterations").bind readLimit?).map .int).getD (.list []))
  else none

/-- The options that flags override. -/
def overridesOf (parsed : Parsed) : List (Datum × Datum) :=
  let entry (name : String) (value : Option Datum) : List (Datum × Datum) :=
    (value.map fun value => (.text name, value)).toList
  entry "endian" ((nonempty? parsed "--endian").map .text)
    ++ entry "strict_enums" (if parsed.has "--strict-enums" then some (.bool true) else none)
    ++ entry "max_loop_iterations" (limit? parsed)
    ++ entry "text_encoding" ((nonempty? parsed "--encoding").map .text)

def ofArguments (arguments : List String) : Except Refusal DecodeRequest := do
  let parsed ← parse flags [.required, .required] arguments
  return {
    schema := parsed.value? 0
    input := parsed.value? 1
    hex := parsed.has "--hex"
    format := match parsed.get? "--format" with
      | some "yaml" => .yaml
      | some "tree" => .tree
      | _ => .json
    verbose := parsed.has "--verbose"
    optionsFile := nonempty? parsed "--options"
    overrides := overridesOf parsed }

def options (request : DecodeRequest) (machine : Machine) : Except OptionsFileError Options := do
  let options ← match request.optionsFile with
    | some name => Options.load machine name
    | none => pure {}
  (options.merged machine.codecs (.map request.overrides)).mapError .options

def optionsFault (error : OptionsFileError) : Output :=
  match error, error.isFinding with
  | .file (.yaml fault), false => .broken (.yaml fault)
  | .options error, false => .broken (.options error)
  | _, _ => .refusal s!"Error loading options: {error.message}"

inductive InputError where
  | payload (error : PayloadError)
  | file (error : FileError)
  | noFile
  | decode (failure : Failure)
  deriving Repr

namespace InputError

/-- The error as a fault that is not reported, if it is one. -/
def breakdown? : InputError → Option Breakdown
  | .payload _ | .file _ => none
  | .noFile => some .noFile
  | .decode failure => if failure.isReportable then none else some (.decode failure)

def message : InputError → String
  | .payload error => error.message
  | .file error => error.message
  | .noFile => Breakdown.noFile.message
  | .decode failure => failure.message

end InputError

/-- The bytes of the input. A payload without a value is empty. -/
def bytes (request : DecodeRequest) (fs : FileSystem) : Except InputError (List UInt8) :=
  match request.input with
  | none => if request.hex then .ok [] else .error .noFile
  | some input =>
    if request.hex then (Payload.ofText input).mapError .payload
    else (fs.read input).mapError .file

def decode (request : DecodeRequest) (fs : FileSystem) (schema : Schema) (options : Options) :
    Except InputError Decoded := do
  (schema.decodeBytes options (← request.bytes fs)).mapError .decode

/-- The result as it is printed, if all of it can be written. -/
def print? (request : DecodeRequest) (yaml : YamlLibrary) (decoded : Decoded) : Option String :=
  let plain := decoded.fields.plain request.verbose
  match request.format with
  | .json => ((plain.json (some 2)).toOption).map (· ++ "\n")
  | .yaml => (yaml.write plain).toOption
  | .tree => (decoded.fields.tree? 0).map fun tree =>
      tree ++ s!"\n\nBytes consumed: {decoded.consumed}\n"

def warning (unlisted : UnlistedValue) : String := s!"Warning: {unlisted.message}\n"

/-- Decodes the input with a schema and prints the result. -/
def runWith (request : DecodeRequest) (machine : Machine) (options : Options) (schema : Schema) :
    Output :=
  match request.decode machine.files schema options with
  | .error error =>
    let input := request.input.getD "[]"
    (error.breakdown?.map (Output.broken ·)).getD
      (.refusal s!"Error decoding {input}: {error.message}")
  | .ok decoded =>
    match request.print? machine.yaml decoded with
    | some stdout => { stdout, stderr := String.join (decoded.warnings.map warning) }
    | none => .broken .numeralTooLong

def run (request : DecodeRequest) (machine : Machine) : Output :=
  match request.options machine, request.schema with
  | .error error, _ => optionsFault error
  | .ok _, none => .broken .noFile
  | .ok options, some name =>
    match Schema.compileFile machine.files name with
    | .error error =>
      if error.isFinding then .refusal s!"Error compiling schema: {error.message}"
      else .broken (.schema error)
    | .ok schema => request.runWith machine options schema

end DecodeRequest

def decode (machine : Machine) (arguments : List String) : Output :=
  match DecodeRequest.ofArguments arguments with
  | .ok request => request.run machine
  | .error refusal => .ofRefusal DecodeRequest.form refusal

end BinarySchema.Command
