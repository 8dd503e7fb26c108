import BinarySchema.Machine

/-!
# YAML files

The data in a file. A file without content holds null.
-/

namespace BinarySchema

/-- Why the data of a file cannot be had. -/
inductive YamlFileError where
  | file (error : TextFileError)
  | yaml (fault : Datum.Yaml.Fault)
  deriving DecidableEq, Repr

namespace YamlFileError

def message : YamlFileError → String
  | .file error => error.message
  | .yaml (.code _) => "chr() arg not in range(0x110000)"
  | .yaml (.scalar fault) => fault.message
  | .yaml _ => "malformed YAML"

/-- Whether the error is a finding about a file or a value in it, and not about its grammar. A code
is looked at only if it has at most 31 bits. -/
def isFinding : YamlFileError → Bool
  | .file _ => true
  | .yaml (.code code) => code < Nat.pow 2 31
  | .yaml (.scalar fault) => fault.isAboutNumbers
  | .yaml _ => false

end YamlFileError

def Machine.readYaml (machine : Machine) (name : String) : Except YamlFileError Datum := do
  let text ← (machine.files.readText name true).mapError .file
  (machine.yaml.read text).mapError .yaml

end BinarySchema
