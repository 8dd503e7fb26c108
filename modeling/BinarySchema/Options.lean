import BinarySchema.Datum
import BinarySchema.Text.Encoding

/-!
# Decoding options

The settings of a decode. They are written as plain data and read from it, from option files as well
as from single overrides; what is read is checked, so options that exist are valid. Overrides are
applied to the written form and the whole is checked again.
-/

namespace BinarySchema

/-- The order of the bytes of a number. -/
inductive Endian where
  | little
  | big
  deriving DecidableEq, Repr

def Endian.name : Endian → String
  | .little => "little"
  | .big => "big"

def Endian.ofName? : String → Option Endian
  | "little" => some .little
  | "big" => some .big
  | _ => none

structure TextEncoding where
  label : String
  codec : Text.Codec

def TextEncoding.ascii : TextEncoding := ⟨"ascii", Text.Encoding.ascii.codec⟩

def TextEncoding.read (encoding : TextEncoding) (bytes : List UInt8) :
    Except Text.CodecFault String :=
  (encoding.codec.read bytes).map String.ofList

/-- A number of iterations that a loop may not exceed. -/
abbrev LoopLimit := { limit : Nat // 0 < limit }

structure Options where
  endian : Endian := .little
  strictEnums : Bool := false
  maxLoopIterations : Option LoopLimit := none
  textEncoding : TextEncoding := .ascii

inductive OptionsError where
  | unknownNames (names : List String)
  | badEndian (value : Datum)
  | badStrictEnums
  | badLoopLimit
  | unknownEncoding (value : Datum)
  | nulInEncoding
  /-- The label of an encoding has surrogates, the first `count` of them from `position` on. -/
  | surrogatesInEncoding (position count : Nat) (first : Nat)
  /-- The data have no names at all, or names that are not text. -/
  | notNamed
  deriving Repr

namespace OptionsError

/-- A message about a value, or the refusal of its numerals. -/
def about (value : Datum) (message : String → String) : String :=
  match value.literal? with
  | some literal => message literal
  | none => Number.tooLongToWrite

def message : OptionsError → String
  | .unknownNames names => "Unknown decoder option(s): " ++ ", ".intercalate names
  | .badEndian value => about value fun literal => literal ++ " is not a valid Endian"
  | .badStrictEnums => "'strict_enums' must be true or false"
  | .badLoopLimit => "'max_loop_iterations' must be a positive integer or null"
  | .unknownEncoding value => about value fun literal => "Unknown text encoding: " ++ literal
  | .nulInEncoding => "embedded null character"
  | .surrogatesInEncoding position count first =>
    let place :=
      if count = 1 then
        let shown := String.ofList ('\\' :: 'u' :: Text.hexDigits 4 first)
        s!"character '{shown}' in position {position}"
      else s!"characters in position {position}-{position + count - 1}"
    s!"'utf-8' codec can't encode {place}: surrogates not allowed"
  | .notNamed => "options need names"

def isAboutContent : OptionsError → Bool
  | .notNamed => false
  | _ => true

end OptionsError

namespace Options

variable (codecs : Text.Codecs)

def names : List String := ["endian", "strict_enums", "max_loop_iterations", "text_encoding"]

/-- The names that are no option's, in order and each once; none if some are not text. -/
def unknownNames? (keys : List Datum) : Option (List String) :=
  let unknown := keys.filter fun key =>
    match key with
    | .text name => !names.contains name
    | _ => true
  let texts? : Option (List String) := unknown.mapM fun key =>
    match key with
    | .text _ | .codes _ => some key.plainText
    | _ => none
  texts?.map fun texts => (texts.mergeSort (· ≤ ·)).eraseDups

def readEndian : Option Datum → Except OptionsError Endian
  | none => .ok .little
  | some (.text name) =>
    match Endian.ofName? name with
    | some endian => .ok endian
    | none => .error (.badEndian (.text name))
  | some value => .error (.badEndian value)

def readStrictEnums : Option Datum → Except OptionsError Bool
  | none => .ok false
  | some (.bool b) => .ok b
  | some _ => .error .badStrictEnums

def readLoopLimit : Option Datum → Except OptionsError (Option LoopLimit)
  | none | some .null => .ok none
  | some (.int (.ofNat (n + 1))) => .ok (some ⟨n + 1, n.succ_pos⟩)
  | some _ => .error .badLoopLimit

def readTextEncoding : Option Datum → Except OptionsError TextEncoding
  | none => .ok .ascii
  | some (.text label) =>
    if label.toList.contains '\x00' then .error .nulInEncoding
    else match codecs.find? label with
      | some codec => .ok ⟨label, codec⟩
      | none => .error (.unknownEncoding (.text label))
  | some (.codes points) =>
    let position := (points.takeWhile fun point => point.isValidChar).length
    let surrogates := (points.drop position).takeWhile fun point => ¬ point.isValidChar
    .error (.surrogatesInEncoding position surrogates.length (surrogates.headD 0))
  | some value => .error (.unknownEncoding value)

/-- Reads options from the entries of a map. -/
def ofEntries (entries : List (Datum × Datum)) : Except OptionsError Options := do
  match unknownNames? (entries.map Prod.fst) with
  | none => throw .notNamed
  | some [] => pure ()
  | some unknown => throw (.unknownNames unknown)
  let field (name : String) := Datum.lookup? entries (.text name)
  return {
    endian := ← readEndian (field "endian")
    strictEnums := ← readStrictEnums (field "strict_enums")
    maxLoopIterations := ← readLoopLimit (field "max_loop_iterations")
    textEncoding := ← readTextEncoding codecs (field "text_encoding") }

/-- Reads options from data. Text and lists count as the names of their characters and items, but
have no values for them. -/
def ofDatum : Datum → Except OptionsError Options
  | .map entries => ofEntries codecs entries
  | .text s => ofNames (s.toList.map fun c => .text (String.singleton c))
  | .codes points => ofNames (points.map fun point => .ofCodes [point])
  | .list items => ofNames items
  | _ => .error .notNamed
where
  ofNames (keys : List Datum) : Except OptionsError Options :=
    match keys, unknownNames? keys with
    | [], _ => .ok {}
    | _, some (name :: names) => .error (.unknownNames (name :: names))
    | _, _ => .error .notNamed

/-- The written form: every option under its name. -/
def entries (options : Options) : List (Datum × Datum) := [
  (.text "endian", .text options.endian.name),
  (.text "strict_enums", .bool options.strictEnums),
  (.text "max_loop_iterations",
    match options.maxLoopIterations with
    | some limit => .int limit.val
    | none => .null),
  (.text "text_encoding", .text options.textEncoding.label)]

def toDatum (options : Options) : Datum := .map options.entries

/-- The options with some of them overridden. -/
def merged (options : Options) (overrides : Datum) : Except OptionsError Options :=
  match overrides with
  | .map given =>
    ofEntries codecs (given.foldl (fun all entry => Datum.setKey entry.1 entry.2 all) options.entries)
  | _ => .error .notNamed

end Options

end BinarySchema
