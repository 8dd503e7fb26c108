import BinarySchema.Command.Validate
import BinarySchema.Proofs.Validation.Survival

/-!
# Verdicts of validations

A vector passes for one reason only: decoding fails with what its error says, or gives what it expects.
An expected error comes first, so a vector that also expects fields cannot pass by them. The flag of an
outcome and its findings are kept apart by every step of a run, and agree at its end; so do the count in a
report and the status that the command ends with.
-/

namespace BinarySchema

namespace TestVector

variable {codecs : Text.Codecs} {schema : Schema} {options : Options} {vector : TestVector}
  {outcome : Outcome}

end TestVector

namespace Validation

variable (validation : Validation)

end Validation

namespace Command

end Command

/-- The files of a schema of one byte, and of the vectors. -/
def FileSystem.vectors : FileSystem where
  files :=
    let text := "test_vectors: [" ++
      "\x7bpayload: '05', expected: \x7bn: 5\x7d\x7d, \x7bpayload: '06', expected: \x7bn: 5\x7d\x7d, " ++
      "\x7bpayload: '', error: too short\x7d, \x7bpayload: '', error: too long\x7d]"
    FileSystem.level.files ++ [(["vectors"], text.toList.map fun c => UInt8.ofNat c.toNat)]

def Command.ValidateRequest.level : ValidateRequest where
  schema := some "level"
  vectors := some "vectors"

end BinarySchema
