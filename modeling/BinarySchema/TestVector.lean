import BinarySchema.Datum.Match
import BinarySchema.Decode
import BinarySchema.Options
import BinarySchema.Payload
import BinarySchema.Result.Plain
import BinarySchema.Text.Contains

/-!
# Test vectors

A test vector is a payload with what decoding it must give: fields with their values, or an error
whose message contains a text. It may override options. Running one yields an outcome: what was
decoded, everything found wrong, and whether the vector passed.

A run can also break down, on vectors that are put together wrongly and on numbers without numerals.
-/

namespace BinarySchema

structure TestVector where
  name : Datum := .text "unnamed"
  description : Datum := .text ""
  payload : Option Datum := none
  options : Option Datum := none
  expected : Option Datum := none
  /-- What the message of an error must contain, if the vector expects one. -/
  error : Option Datum := none
  deriving Repr

namespace TestVector

/-- The parts of a vector that is written as a map. -/
def ofMap (datum : Datum) : TestVector :=
  { name := (datum.get? "name").getD (.text "unnamed")
    description := (datum.get? "description").getD (.text "")
    payload := datum.get? "payload"
    options := datum.get? "options"
    expected := datum.get? "expected"
    error := (datum.get? "error").bind fun error =>
      match error with
      | .null => none
      | _ => some error }

/-- Something that a vector got wrong. -/
inductive Finding where
  | badPayload (error : PayloadError)
  | badOptions (error : OptionsError)
  | decodeFailed (failure : Failure)
  | noError (expected : Datum)
  | missingField (name : Datum)
  | mismatch (name : Datum) (difference : Mismatch)
  deriving Repr

namespace Finding

def hasNumerals : Finding → Bool
  | .noError expected => expected.hasNumerals
  | .missingField name => name.hasNumerals
  | .mismatch name difference => name.hasNumerals && difference.hasNumerals
  | _ => true

def message : Finding → String
  | .badPayload error => error.message
  | .badOptions error => error.message
  | .decodeFailed failure => "Decode failed: " ++ failure.message
  | .noError expected => s!"Expected error containing '{expected.plainText}', decode succeeded"
  | .missingField name => s!"Missing field in output: '{name.plainText}'"
  | .mismatch name difference => s!"{name.plainText}: {difference.message}"

end Finding

/-- Whether a vector passed, and what it got wrong. A vector has not passed until that is said. -/
structure Judgement where
  passed : Bool := false
  findings : List Finding := []
  deriving Repr

/-- What a run of a vector gave. -/
structure Outcome extends Judgement where
  name : Datum
  description : Datum
  payload : List UInt8 := []
  decoded : List (Datum × Datum) := []
  warnings : List UnlistedValue := []
  deriving Repr

/-- Why a run has no outcome. -/
inductive Breakdown where
  /-- A vector, or the expectation of one, is no map. -/
  | notMap
  /-- The vectors are no list. -/
  | notList
  /-- A vector lacks its payload or its expectation. -/
  | missing (part : String)
  | payload (error : PayloadError)
  | options (error : OptionsError)
  | decode (failure : Failure)
  | range (fault : Number.RangeFault)
  | numeralTooLong
  deriving Repr

def Breakdown.message : Breakdown → String
  | .notMap => "a test vector or its expectation is no mapping"
  | .notList => "the test vectors are no array"
  | .missing part => s!"a test vector has no '{part}'"
  | .payload error => error.message
  | .options error => error.message
  | .decode failure => failure.message
  | .range .beyondDoubles => "an integer is too large to be compared with a float"
  | .numeralTooLong => Number.tooLongToWrite

/-- A finding that can be written. -/
def report (finding : Finding) : Except Breakdown Finding :=
  if finding.hasNumerals then .ok finding else .error .numeralTooLong

/-- The finding about one expected field, if it is not decoded as expected. -/
def compareField (decoded : List (Datum × Datum)) (name expected : Datum) :
    Except Breakdown (Option Finding) :=
  match Datum.lookup? decoded name with
  | none => .ok (some (.missingField name))
  | some actual => do
    let difference? ← (Datum.mismatch? Datum.defaultTolerance expected actual).mapError .range
    return difference?.map (.mismatch name)

/-- The findings about expected fields. -/
def compare (decoded : List (Datum × Datum)) :
    (expected : List (Datum × Datum)) → Except Breakdown (List Finding)
  | [] => .ok []
  | (name, expected) :: rest => do
    match ← compareField decoded name expected with
    | none => compare decoded rest
    | some finding => return (← report finding) :: (← compare decoded rest)

/-- Judges a decode that succeeded. Where an error is expected, the fields are not looked at. -/
def check (vector : TestVector) (decoded : List (Datum × Datum)) : Except Breakdown Judgement :=
  match vector.error, vector.expected with
  | some error, _ => do return { findings := [← report (.noError error)] }
  | none, some (.map expected) => do
    let findings ← compare decoded expected
    return { passed := findings.isEmpty, findings }
  | none, some _ => .error .notMap
  | none, none => .error (.missing "expected")

/-- Whether the message of a failure contains the text of a value. -/
def mentions (error : Datum) (failure : Failure) : Bool :=
  match error with
  | .codes _ => false
  | _ => Text.contains error.plainText.toList failure.message.toList

/-- Judges a decode that failed: the vector may expect the failure. -/
def checkFailure (vector : TestVector) (failure : Failure) : Except Breakdown Judgement :=
  match vector.error with
  | none => .ok { findings := [.decodeFailed failure] }
  | some error =>
    if !error.hasNumerals then .error .numeralTooLong
    else if mentions error failure then .ok { passed := true }
    else .ok { findings := [.decodeFailed failure] }

/-- The payload of a vector and the options that it is decoded with. -/
def prepare (codecs : Text.Codecs) (vector : TestVector) (options : Options) :
    Except Breakdown (Except Finding (List UInt8 × Options)) := do
  let some payload := vector.payload | throw (.missing "payload")
  match Payload.ofDatum payload with
  | .error error =>
    if error.isAboutContent then return .error (.badPayload error) else throw (.payload error)
  | .ok bytes =>
    let some overrides := vector.options | return .ok (bytes, options)
    match options.merged codecs overrides with
    | .ok options => return .ok (bytes, options)
    | .error error =>
      if error.isAboutContent then return .error (.badOptions error) else throw (.options error)

/-- Decodes the payload of a vector and compares the result with what it expects. -/
def run (codecs : Text.Codecs) (schema : Schema) (options : Options) (vector : TestVector) :
    Except Breakdown Outcome := do
  let outcome : Outcome := { name := vector.name, description := vector.description }
  match ← vector.prepare codecs options with
  | .error finding => return { outcome with findings := [finding] }
  | .ok (payload, options) =>
    let outcome := { outcome with payload }
    match schema.decodeBytes options payload with
    | .error failure =>
      if failure.isSchemaError then
        return { outcome with toJudgement := ← vector.checkFailure failure }
      else throw (.decode failure)
    | .ok result =>
      let decoded := Datum.plainEntries false result.fields
      return {
        outcome with
        decoded, warnings := result.warnings, toJudgement := ← vector.check decoded }

end TestVector

end BinarySchema
