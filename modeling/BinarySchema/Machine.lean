import BinarySchema.Datum.Form
import BinarySchema.Datum.Yaml.Mark
import BinarySchema.FileSystem
import BinarySchema.Text.Encoding

/-!
# Machines

What a program finds where it runs: files, codecs for text, and a library that reads and writes YAML.
-/

namespace BinarySchema

/-- What programs use of a library for YAML. -/
structure YamlLibrary where
  read : String → Except Datum.Yaml.Fault Datum
  write : Datum → Except Datum.FormFault String

structure Machine where
  files : FileSystem
  codecs : Text.Codecs
  yaml : YamlLibrary

end BinarySchema
