import BinarySchema.Datum.Yaml.Reader
import BinarySchema.Datum.Yaml.Writer
import BinarySchema.Machine

/-!
# A library for YAML

The reader for the forms that option and vector files have, and the writer in block style. A machine is
given files, and has this library and the listed codecs.
-/

namespace BinarySchema

def YamlLibrary.block : YamlLibrary where
  read := Datum.ofYaml
  write := Datum.yaml

def Machine.ofFiles (files : FileSystem) : Machine where
  files
  codecs := .listed
  yaml := .block

end BinarySchema
