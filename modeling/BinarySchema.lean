import BinarySchema.Main
import BinarySchema.Proofs.Command.Decode
import BinarySchema.Proofs.Datum.Differences
import BinarySchema.Proofs.Datum.Expectations
import BinarySchema.Proofs.Datum.JsonReader
import BinarySchema.Proofs.Datum.JsonRoundTrip
import BinarySchema.Proofs.Datum.Reflexive
import BinarySchema.Proofs.Datum.Writable
import BinarySchema.Proofs.Decode.Accumulation
import BinarySchema.Proofs.Decode.Bitfields
import BinarySchema.Proofs.Decode.Chunks
import BinarySchema.Proofs.Decode.Coercions
import BinarySchema.Proofs.Decode.Enums
import BinarySchema.Proofs.Decode.Exact
import BinarySchema.Proofs.Decode.Exhaustion
import BinarySchema.Proofs.Decode.Faults
import BinarySchema.Proofs.Decode.Inlining
import BinarySchema.Proofs.Decode.Layout
import BinarySchema.Proofs.Decode.Limits
import BinarySchema.Proofs.Decode.Locality
import BinarySchema.Proofs.Decode.LoopCaps
import BinarySchema.Proofs.Decode.Lossless
import BinarySchema.Proofs.Decode.Names
import BinarySchema.Proofs.Decode.Origins
import BinarySchema.Proofs.Decode.Places
import BinarySchema.Proofs.Decode.Progress
import BinarySchema.Proofs.Decode.Sequence
import BinarySchema.Proofs.Decode.Static
import BinarySchema.Proofs.Decode.Strictness
import BinarySchema.Proofs.Decode.Suffixes
import BinarySchema.Proofs.Decode.Termination
import BinarySchema.Proofs.Decode.Tiling
import BinarySchema.Proofs.Decode.Values
import BinarySchema.Proofs.Definition.Actions
import BinarySchema.Proofs.Definition.View
import BinarySchema.Proofs.Expression.Climbing
import BinarySchema.Proofs.Expression.Constants
import BinarySchema.Proofs.Expression.Operands
import BinarySchema.Proofs.FileSystem.Paths
import BinarySchema.Proofs.Number.Hexadecimal
import BinarySchema.Proofs.Number.Packing
import BinarySchema.Proofs.Result.Leaves
import BinarySchema.Proofs.Result.Lines
import BinarySchema.Proofs.Schema.Comments
import BinarySchema.Proofs.Schema.Cycles
import BinarySchema.Proofs.Schema.Declarations
import BinarySchema.Proofs.Schema.Documentation
import BinarySchema.Proofs.Schema.Enumerations
import BinarySchema.Proofs.Schema.Errors
import BinarySchema.Proofs.Schema.Exchange
import BinarySchema.Proofs.Schema.Extent
import BinarySchema.Proofs.Schema.Flatten
import BinarySchema.Proofs.Schema.Grammar
import BinarySchema.Proofs.Schema.Identifiers
import BinarySchema.Proofs.Schema.Limits
import BinarySchema.Proofs.Schema.Print
import BinarySchema.Proofs.Schema.Quiet
import BinarySchema.Proofs.Schema.Reads
import BinarySchema.Proofs.Schema.References
import BinarySchema.Proofs.Schema.RoundTrip
import BinarySchema.Proofs.Schema.Rows
import BinarySchema.Proofs.Schema.Run
import BinarySchema.Proofs.Schema.Sharing
import BinarySchema.Proofs.Schema.Shorthand
import BinarySchema.Proofs.Schema.Takes
import BinarySchema.Proofs.Schema.Terms
import BinarySchema.Proofs.Schema.Truncation
import BinarySchema.Proofs.Source.Accesses
import BinarySchema.Proofs.TestVector.Outcome
import BinarySchema.Proofs.TestVector.Recorded
import BinarySchema.Proofs.Token.Blanking
import BinarySchema.Proofs.Token.Composition
import BinarySchema.Proofs.Token.Cursor
import BinarySchema.Proofs.Token.Layout
import BinarySchema.Proofs.Token.Lexemes
import BinarySchema.Proofs.Token.Lines
import BinarySchema.Proofs.Token.Lookahead
import BinarySchema.Proofs.Token.Outline
import BinarySchema.Proofs.Token.Places
import BinarySchema.Proofs.Token.Prefix
import BinarySchema.Proofs.Token.Stepping
import BinarySchema.Proofs.Validation.Survival
import BinarySchema.Proofs.Validation.Verdicts
