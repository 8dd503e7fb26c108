import BinarySchema.Proofs.Decode.Step

/-!
# Traces of a decode

What is told of the decoders of single values and of texts, put together in the order in which a decode runs
them. A trace is told by the run of the decoder itself: what is behind a decoder is told from the reading that
it left and with the result that it came to, and nothing is told behind a failure.
-/

namespace BinarySchema

/-- What is told of a decoder that starts from a reading, in order. -/
abbrev Trace (ε : Type) := Reading → List ε

namespace Trace

variable {α ε : Type}

def silent : Trace ε := fun _ => []

def tell (event : ε) : Trace ε := fun _ => [event]

/-- What is told behind a decoder. -/
def behind (x : Decoder α) (rest : α → Trace ε) : Trace ε := fun reading =>
  match x reading with
  | .ok a next => rest a next
  | .error _ _ => []

/-- What is told of a decoder, and what is told behind it. -/
def andThen (first : Trace ε) (x : Decoder α) (rest : α → Trace ε) : Trace ε := fun reading =>
  first reading ++ behind x rest reading

theorem andThen_silent (first : Trace ε) (x : Decoder α) :
    (first.andThen x fun _ => silent) = first := by
  funext reading
  unfold andThen behind
  cases x reading <;> exact List.append_nil _

/-- What is told of single values, those of enums by their integers, and of texts. -/
structure Leaves (ε : Type) where
  primitive : Primitive → (name : String) → Trace ε
  bitfield : BitfieldDef → (name : String) → Trace ε
  text : (count : Nat) → (name : String) → Trace ε

variable (leaves : Leaves ε) (context : DecodeContext)

/-! ### Fields -/

def value (tells : List Node → Trace ε) (type : TypeRef) (name : String) : Trace ε :=
  match type with
  | .primitive p => leaves.primitive p name
  | .named .struct typeName =>
    match context.types.find? typeName with
    | some (.struct type) => tells type.body
    | _ => silent
  | .named .enum typeName =>
    match context.types.find? typeName with
    | some (.enum type) => leaves.primitive type.base name
    | _ => silent
  | .named .bitfield typeName =>
    match context.types.find? typeName with
    | some (.bitfield type) => leaves.bitfield type name
    | _ => silent
  | .named _ _ => silent

def elements (element : String → Decoder Result) (tells : String → Trace ε) (name : String) :
    (count : Nat) → (index : Nat) → Trace ε
  | 0, _ => silent
  | count + 1, index =>
    (tells (Decoder.indexedName name index)).andThen (element (Decoder.indexedName name index))
      fun _ => elements element tells name count (index + 1)

def field (enter : List Node → Decoder Scope) (tells : List Node → Trace ε) (field : Field)
    (scopes : List Scope) : Trace ε :=
  match field.length with
  | some length =>
    behind (Decoder.evaluate context scopes field.name length.length) fun count =>
      if field.type = .primitive .char then leaves.text count field.name
      else elements (Decoder.value context enter field.type · none)
        (value leaves context tells field.type) field.name count 0
  | none => value leaves context tells field.type field.name

/-! ### Control blocks -/

def loop (head : BlockHead) (body : List Scope → Decoder Scope) (tells : List Scope → Trace ε)
    (outer : List Scope) :
    (steps : Nat) → (iteration : Nat) → (visible : List Scope) → Scope → Trace ε
  | 0, _, _, _ => silent
  | steps + 1, iteration, visible, scope =>
    behind (Decoder.entered context head (visible ++ scope :: outer)) fun enters =>
      if enters then
        behind Decoder.position fun start =>
          behind (Decoder.checkLimit context head iteration start) fun _ =>
            (tells (scope :: outer)).andThen (body (scope :: outer)) fun fields =>
              behind (Decoder.addAll scope
                  (fields.map fun r => r.rename (Decoder.indexedName r.name iteration))) fun scope =>
                behind (Decoder.checkProgress head start) fun _ =>
                  loop head body tells outer steps (iteration + 1) [fields] scope
      else silent

mutual

def nodes (enter : List Node → Decoder Scope) (tells : List Node → Trace ε) :
    List Node → (outer : List Scope) → Scope → Trace ε
  | [], _, _ => silent
  | head :: rest, outer, scope =>
    (node enter tells head outer scope).andThen (Decoder.node context enter head outer scope)
      fun scope => nodes enter tells rest outer scope
termination_by structural list => list

def node (enter : List Node → Decoder Scope) (tells : List Node → Trace ε) :
    Node → (outer : List Scope) → Scope → Trace ε
  | .field declared, outer, scope => field leaves context enter tells declared (scope :: outer)
  | .block head body, outer, scope =>
    let inner (scopes : List Scope) := nodes enter tells body scopes []
    if head.control.repeats then
      behind get fun reading =>
        loop context head (fun scopes => Decoder.nodes context enter body scopes []) inner outer
          (reading.source.unread + 1) 0 [] scope
    else
      behind (Decoder.entered context head (scope :: outer)) fun enters =>
        if enters then inner (scope :: outer) else silent
termination_by structural tree => tree

end

def structBody : (levels : Nat) → List Node → Trace ε
  | 0, _ => silent
  | levels + 1, body =>
    nodes leaves context (Decoder.structBody context levels) (structBody levels) body [] []

def root (body : List Node) : Trace ε :=
  behind get fun reading =>
    let levels := context.types.size * (reading.source.unread + 1)
    nodes leaves context (Decoder.structBody context levels) (structBody leaves context levels) body [] []

end Trace

/-- What is told of a decode of a source. -/
def Schema.trace {ε : Type} (schema : Schema) (options : Options) (leaves : Trace.Leaves ε)
    (source : Source) : List ε :=
  match schema.root with
  | none => []
  | some body => Trace.root leaves ⟨schema.types, options⟩ body ⟨source, []⟩

end BinarySchema
