import BinarySchema.Decode.Failure
import BinarySchema.Decode.Primitive
import BinarySchema.Schema
import BinarySchema.Source

/-!
# Decoding

A body is decoded field by field into a scope. Conditional blocks add their fields to the scope
around them; loops do so too, with the number of the iteration behind each name, and their condition
sees the fields of the iteration before by their plain names. An iteration that consumes nothing
ends the decode, because the next one would not differ.

A struct is decoded in a scope of its own that sees nothing of the scopes around it. So a struct that
meets itself again at the same position would never end: the levels of structs within structs are
bounded by the structs there are, times the positions they can begin at.

Failures keep the state of the input and the warnings given before them.
-/

namespace BinarySchema

/-- The input as far as it is read, and the warnings so far. -/
structure Reading where
  source : Source
  warnings : List UnlistedValue := []
  deriving Repr

/-- A step of decoding. -/
abbrev Decoder := EStateM Failure Reading

/-- What stays the same during a decode. -/
structure DecodeContext where
  types : TypeTable
  options : Options

namespace Decoder

def position : Decoder Nat := return (← get).source.position

def fail {α : Type} (fault : DecodeFault) (field : String) (offset : Nat) : Decoder α :=
  throw (.decode ⟨fault, some field, some offset⟩)

/-- Reads a number of bytes for a field. -/
def read (count : Nat) (field : String) : Decoder (List UInt8) := do
  let reading ← get
  let (got, source) := reading.source.read count
  set { reading with source }
  match got with
  | .ok bytes => return bytes
  | .error available => throw (.shortRead count reading.source.position available field)

/-- Reads the bytes of a terminated string for a field. -/
def readUntilNul (field : String) : Decoder (List UInt8) := do
  let reading ← get
  let (got, source) := reading.source.readUntilNul
  set { reading with source }
  match got with
  | some bytes => return bytes
  | none => fail (.unterminated reading.source.position) field reading.source.position

def warn (unlisted : UnlistedValue) : Decoder Unit :=
  modify fun reading => { reading with warnings := reading.warnings ++ [unlisted] }

/-- A scope with one more result. -/
def add (scope : Scope) (result : Result) : Decoder Scope :=
  match scope.add result with
  | .ok scope => return scope
  | .error duplicate => throw (.ofDuplicate duplicate)

def addAll (scope : Scope) : List Result → Decoder Scope
  | [] => return scope
  | result :: rest => do addAll (← add scope result) rest

/-- Evaluates an expression here. An error is reported for the field or block with the label. -/
def evaluate {α : Type} (context : DecodeContext) (scopes : List Scope) (label : String)
    (evaluator : EvalContext → Except EvalError α) : Decoder α := do
  let source := (← get).source
  match evaluator ⟨source.position, source.size, scopes, context.types⟩ with
  | .ok value => return value
  | .error error => throw (.eval error label source.position)

def ofCodec {α : Type} : Except Text.CodecFault α → Decoder α
  | .ok value => return value
  | .error fault => throw (.codec fault)

/-! ### Single values -/

/-- A primitive's value and the number of its bytes, without a string's terminator. -/
def primitive (context : DecodeContext) (type : Primitive) (name : String) :
    Decoder (Datum × Nat) := do
  let bytes ← if type = .string then readUntilNul name else read type.size name
  let value ← ofCodec (type.ofBytes context.options bytes)
  return (value, bytes.length)

/-- The integer behind an enum or bitfield, with its size. -/
def baseInteger (context : DecodeContext) (base : Primitive) (name : String) :
    Decoder (Int × Nat) := do
  let offset ← position
  let (value, size) ← primitive context base name
  match value.baseInteger? with
  | some n => return (n, size)
  | none => fail (.noInteger value) name offset

def enum (context : DecodeContext) (type : EnumDef) (name : String) (comment : Option String) :
    Decoder Result := do
  let offset ← position
  let (raw, size) ← baseInteger context type.base name
  let member := type.memberFor? raw
  if member.isNone then
    let unlisted : UnlistedValue := ⟨name, raw, type.name⟩
    if context.options.strictEnums then fail (.unlisted unlisted) name offset
    else warn unlisted
  let value := match member with
    | some member => Datum.text member.name
    | none => .null
  return { kind := .enum, name, offset, size, typeName := type.name, value, comment, raw := raw }

/-- The widest bitfield member: one bit more, and its mask has more than the
2305843009213693945 thirty-bit digits that an integer can have. -/
def widestMember : Nat := 30 * 2305843009213693944

/-- The most bits of a mask that there is memory for. It is a machine that sets this number, and no rule of
schemas: here one with 32 GiB. Of the number itself it is only used that masks of 64 bits are below it. -/
def memoryBits : Nat := 8 * (32 * Nat.pow 2 30)

/-- The lowest bits of an integer. A number that fits is not touched, however wide the mask. -/
def lowBits (width : Nat) (n : Int) : Int :=
  if 0 ≤ n ∧ n.toNat.log2 < width then n else n % Int.pow 2 width

def dropBits (width : Nat) (n : Int) : Int :=
  if 0 ≤ n ∧ n.toNat.log2 < width then 0 else n >>> width

/-- The members of a bitfield, the first in the lowest bits. -/
def bitfieldMembers (base : Primitive) (offset size : Nat) :
    List BitfieldMember → Int → Scope → Decoder Scope
  | [], _, scope => return scope
  | member :: rest, bits, scope => do
    if widestMember < member.width then throw .widthTooLarge
    if memoryBits < member.width then throw .noMemory
    let result : Result := {
      kind := .primitive, name := member.name, offset, size, typeName := base.keyword
      value := .int (lowBits member.width bits), comment := member.comment }
    bitfieldMembers base offset size rest (dropBits member.width bits) (← add scope result)

def bitfield (context : DecodeContext) (type : BitfieldDef) (name : String)
    (comment : Option String) : Decoder Result := do
  let offset ← position
  let (raw, size) ← baseInteger context type.base name
  let members ← bitfieldMembers type.base offset size type.members raw []
  return {
    kind := .bitfield, name, offset, size, typeName := type.name, value := .scope members
    comment, raw := raw }

/-- A value of a field's type. `enter` decodes the body of a struct. -/
def value (context : DecodeContext) (enter : List Node → Decoder Scope) (type : TypeRef)
    (name : String) (comment : Option String) : Decoder Result := do
  let offset ← position
  match type with
  | .primitive p =>
    let (value, size) ← primitive context p name
    let raw := match value with
      | .time t => some t.seconds
      | _ => none
    return { kind := .primitive, name, offset, size, typeName := p.keyword, value, comment, raw }
  | .named .struct typeName =>
    match context.types.find? typeName with
    | some (.struct type) =>
      let fields ← enter type.body
      return {
        kind := .struct, name, offset, size := Scope.totalSize fields, typeName := type.name
        value := .scope fields, comment }
    | _ => fail (.undeclared typeName .struct) name offset
  | .named .enum typeName =>
    match context.types.find? typeName with
    | some (.enum type) => enum context type name comment
    | _ => fail (.undeclared typeName .enum) name offset
  | .named .bitfield typeName =>
    match context.types.find? typeName with
    | some (.bitfield type) => bitfield context type name comment
    | _ => fail (.undeclared typeName .bitfield) name offset
  | .named kind _ => fail (.notSingle kind) name offset

/-! ### Fields -/

def indexedName (name : String) (index : Nat) : String := s!"{name}[{index}]"

/-- The elements of an array, named by their indices from `index` on, behind those of `done`, which
stand in reverse. -/
def elements (element : String → Decoder Result) (name : String) :
    (count : Nat) → (index : Nat) → (done : List Result) → Decoder Scope
  | 0, _, done => return done.reverse
  | count + 1, index, done => do
    elements element name count (index + 1) ((← element (indexedName name index)) :: done)

/-- An array; one of characters is a text. -/
def array (context : DecodeContext) (enter : List Node → Decoder Scope) (field : Field)
    (length : Expression) (scopes : List Scope) : Decoder Result := do
  let offset ← position
  let count ← evaluate context scopes field.name length.length
  if field.type = .primitive .char then
    let bytes ← read count field.name
    let text ← ofCodec (context.options.textEncoding.read bytes)
    return {
      kind := .array, name := field.name, offset, size := count, typeName := field.typeName
      value := .text text, comment := field.comment }
  else
    let items ← elements (value context enter field.type · none) field.name count 0 []
    return {
      kind := .array, name := field.name, offset, size := Scope.totalSize items
      typeName := field.typeName, value := .scope items, comment := field.comment }

def field (context : DecodeContext) (enter : List Node → Decoder Scope) (field : Field)
    (scopes : List Scope) : Decoder Result :=
  match field.length with
  | some length => array context enter field length scopes
  | none => value context enter field.type field.name field.comment

/-! ### Control blocks -/

/-- Whether a block is entered, with the fields of the innermost scope visible first. -/
def entered (context : DecodeContext) (head : BlockHead) (scopes : List Scope) : Decoder Bool := do
  let holds ← evaluate context scopes head.label head.condition.condition
  return holds ≠ head.control.negated

/-- Runs a loop whose body is decoded by `body`, given the scopes around it. `visible` is the scope
of the iteration before. Every iteration consumes a byte, so the unread bytes bound the steps. -/
def loop (context : DecodeContext) (head : BlockHead) (body : List Scope → Decoder Scope)
    (outer : List Scope) :
    (steps : Nat) → (iteration : Nat) → (visible : List Scope) → Scope → Decoder Scope
  | 0, _, _, _ => do fail .noProgress head.label (← position)
  | steps + 1, iteration, visible, scope => do
    if !(← entered context head (visible ++ scope :: outer)) then return scope
    let start ← position
    if let some limit := context.options.maxLoopIterations then
      if limit.val ≤ iteration then fail (.loopLimit limit.val) head.label start
    let fields ← body (scope :: outer)
    let scope ← addAll scope (fields.map fun r => r.rename (indexedName r.name iteration))
    if (← position) = start then fail .noProgress head.label start
    loop context head body outer steps (iteration + 1) [fields] scope

mutual

/-- Decodes nodes into a scope, inside the scopes of `outer`. -/
def nodes (context : DecodeContext) (enter : List Node → Decoder Scope) :
    List Node → (outer : List Scope) → Scope → Decoder Scope
  | [], _, scope => return scope
  | head :: rest, outer, scope => do
    nodes context enter rest outer (← node context enter head outer scope)
termination_by structural list => list

def node (context : DecodeContext) (enter : List Node → Decoder Scope) :
    Node → (outer : List Scope) → Scope → Decoder Scope
  | .field declared, outer, scope => do
    add scope (← field context enter declared (scope :: outer))
  | .block head body, outer, scope => do
    let inner (scopes : List Scope) := nodes context enter body scopes []
    if head.control.repeats then
      let source := (← get).source
      loop context head inner outer (source.unread + 1) 0 [] scope
    else if ← entered context head (scope :: outer) then
      addAll scope (← inner (scope :: outer))
    else return scope
termination_by structural tree => tree

end

def structBody (context : DecodeContext) : (levels : Nat) → List Node → Decoder Scope
  | 0, _ => throw .endless
  | levels + 1, body => nodes context (structBody context levels) body [] []

def root (context : DecodeContext) (body : List Node) : Decoder Scope := do
  let positions := (← get).source.unread + 1
  let levels := context.types.size * positions
  nodes context (structBody context levels) body [] []

end Decoder

/-- The result of a decode. -/
structure Decoded where
  fields : Scope
  consumed : Nat
  warnings : List UnlistedValue
  deriving Repr

namespace Schema

/-- Decodes a source. The source as far as it was read comes back in any case. -/
def decode (schema : Schema) (options : Options) (source : Source) :
    EStateM.Result Failure Reading Decoded :=
  match schema.root with
  | none => .error (.decode ⟨.noRoot, none, none⟩) ⟨source, []⟩
  | some body =>
    match Decoder.root ⟨schema.types, options⟩ body ⟨source, []⟩ with
    | .ok fields reading =>
      .ok ⟨fields, reading.source.position - source.position, reading.warnings⟩ reading
    | .error failure reading => .error failure reading

/-- Decodes bytes from their beginning. -/
def decodeBytes (schema : Schema) (options : Options) (bytes : List UInt8) :
    Except Failure Decoded :=
  match schema.decode options (.ofBytes bytes) with
  | .ok decoded _ => .ok decoded
  | .error failure _ => .error failure

end Schema

end BinarySchema
