import BinarySchema.Datum.Yaml.File
import BinarySchema.Options

/-!
# Option files

Options read from the map in a YAML file. A file that holds nothing gives the defaults.
-/

namespace BinarySchema

inductive OptionsFileError where
  | file (error : YamlFileError)
  | notMap (name : String)
  | options (error : OptionsError)
  deriving Repr

namespace OptionsFileError

def message : OptionsFileError → String
  | .file error => error.message
  | .notMap name => s!"Options file {name} must contain a mapping"
  | .options error => error.message

/-- Whether the error is a finding about a file or the options in it. -/
def isFinding : OptionsFileError → Bool
  | .file error => error.isFinding
  | .notMap _ => true
  | .options error => error.isAboutContent

end OptionsFileError

def Options.load (machine : Machine) (name : String) : Except OptionsFileError Options := do
  let datum ← (machine.readYaml name).mapError .file
  if datum.isEmpty then return {}
  match datum with
  | .map entries => (Options.ofEntries machine.codecs entries).mapError .options
  | _ => throw (.notMap name)

end BinarySchema
