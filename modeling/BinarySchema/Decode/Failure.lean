import BinarySchema.Expression.Evaluate
import BinarySchema.Text.Encoding

/-!
# Decode failures

Why a decode ends without a result. Most failures are about a field or a control block and say at
which position of the input it stood.
-/

namespace BinarySchema

/-- A value of an enum's base that no member has. -/
structure UnlistedValue where
  field : String
  value : Int
  enum : String
  deriving DecidableEq, Repr

def UnlistedValue.message (unlisted : UnlistedValue) : String :=
  s!"{unlisted.field}: value {unlisted.value} is not a member of enum {unlisted.enum}"

inductive DecodeFault where
  | noRoot
  | shortRead (needed position available : Nat)
  | unterminated (position : Nat)
  | duplicateName (name : String)
  | loopLimit (limit : Nat)
  | noProgress
  | undeclared (name : String) (expected : FieldKind)
  | notSingle (kind : FieldKind)
  | unlisted (value : UnlistedValue)
  | noInteger (value : Datum)
  deriving Repr

structure DecodeError where
  fault : DecodeFault
  field : Option String
  offset : Option Int
  deriving Repr

/-- Why a decode failed. -/
inductive Failure where
  | decode (error : DecodeError)
  | eval (error : EvalError) (field : String) (offset : Nat)
  /-- The text encoding of the options gives no text. -/
  | codec (fault : Text.CodecFault)
  /-- A number in a message has more digits than a numeral may have. -/
  | numeralTooLong
  /-- A bitfield member is wider than any integer can be. -/
  | widthTooLarge
  /-- The mask of a bitfield member does not fit into memory. -/
  | noMemory
  /-- A struct contains itself without end. -/
  | endless
  deriving Repr

namespace DecodeFault

def definitionTitle : FieldKind → String
  | .struct => "StructDef"
  | .enum => "EnumDef"
  | .bitfield => "BitfieldDef"
  | kind => kind.name

def reason : DecodeFault → String
  | .noRoot => "Schema has no schema block to decode with"
  | .shortRead needed position available =>
    s!"Buffer too short: need {needed} bytes at pos {position}, {available} available"
  | .unterminated position => s!"Unterminated string starting at pos {position}"
  | .duplicateName name => s!"duplicate field name '{name}'"
  | .loopLimit limit => s!"Loop exceeded {limit} iterations"
  | .noProgress => "Loop made no progress"
  | .undeclared name expected => s!"Type {name} is not a declared {definitionTitle expected}"
  | .notSingle kind => s!"Cannot decode a {kind.name} as a single value"
  | .unlisted value => value.message
  | .noInteger value => s!"Value {value.literal} cannot be used as an integer"

end DecodeFault

/-- A message with the field that it is about. -/
def withField (message : String) (field : Option String) (offset : Option Int) : String :=
  match field with
  | none => message
  | some name =>
    let place := match offset with
      | some n => toString n
      | none => "None"
    s!"{message} [field {name} @ {place}]"

namespace DecodeError

def reason (error : DecodeError) : String := error.fault.reason

def message (error : DecodeError) : String :=
  withField error.reason error.field error.offset

/-- The refusal of a name that is taken. -/
def ofDuplicate (duplicate : DuplicateName) : DecodeError :=
  ⟨.duplicateName duplicate.name, some duplicate.name, some duplicate.offset⟩

end DecodeError

namespace Failure

/-- A read of more bytes than there are. -/
def shortRead (needed position available : Nat) (field : String) : Failure :=
  if Number.hasNumeral needed then
    .decode ⟨.shortRead needed position available, some field, some position⟩
  else .numeralTooLong

def ofDuplicate (duplicate : DuplicateName) : Failure :=
  .decode (.ofDuplicate duplicate)

/-- Whether the failure is a finding about schema and input, and not about codecs or limits of
numbers. -/
def isSchemaError : Failure → Bool
  | .decode _ | .eval .. => true
  | .codec _ | .numeralTooLong | .widthTooLarge | .noMemory | .endless => false

/-- Whether the failure can be told to whoever asked for the decode. The others mean that the schema
cannot be decoded with at all. -/
def isReportable : Failure → Bool
  | .decode _ | .eval .. | .codec (.notReplaced _) | .numeralTooLong => true
  | .codec (.notText _) | .widthTooLarge | .noMemory | .endless => false

def message : Failure → String
  | .decode error => error.message
  | .eval error field offset => withField error.message (some field) (some offset)
  | .codec fault => fault.message
  | .numeralTooLong => Number.tooLongToWrite
  | .widthTooLarge => "too many digits in integer"
  | .noMemory => "out of memory"
  | .endless => "maximum recursion depth exceeded"

end Failure

end BinarySchema
