import BinarySchema.Proofs.Decode.Traces
import BinarySchema.Proofs.Definition.Table
import BinarySchema.Proofs.Except

/-!
# Failures of a decode

Which failures a decode can end with. Most of them are findings about schema and input. The others come from
something that the decode encounters: a number of bytes that cannot be written into the message that refuses
it, bytes that the codec gives no text for, or a bitfield with a member that is too wide.

`FailsBy` says so of a decoder and the trace of what it encounters, with one rule for each way of building
decoders. `Permits` lists the findings that a property has to allow, so that it holds of all failures but
those of an encounter. This module is the one induction over bodies, loops and structs within structs that
says so.

The failures of type references are excluded with it: if all references of a schema resolve, no decode
finds a name undeclared or declared as something that is no single value.
-/

namespace BinarySchema

/-- Whether a failure is about a type reference: its name is not declared as its kind says, or its kind
is of no single value. -/
def Failure.isReference : Failure → Bool
  | .decode ⟨.undeclared _ _, _, _⟩ | .decode ⟨.notSingle _, _, _⟩ => true
  | _ => false

/-! ### Encounters -/

/-- What a decode can encounter that is beyond a limit. -/
inductive Encounter where
  /-- A text of a number of bytes. -/
  | count (count : Nat)
  /-- Bytes that are read as text. -/
  | text (bytes : List UInt8)
  | bitfield (type : BitfieldDef)
  deriving DecidableEq

namespace Encounter

def primitive (type : Primitive) (name : String) : Trace Encounter :=
  if type = .string then .behind (Decoder.readUntilNul name) fun bytes => .tell (.text bytes)
  else if type = .char then .behind (Decoder.read type.size name) fun bytes => .tell (.text bytes)
  else .silent

def leaves (context : DecodeContext) : Trace.Leaves Encounter where
  primitive := primitive
  bitfield type name :=
    (primitive type.base name).andThen (Decoder.baseInteger context type.base name)
      fun _ => .tell (.bitfield type)
  text count name := (Trace.tell (.count count)).andThen (Decoder.read count name)
    fun bytes => .tell (.text bytes)

/-- That an encounter is beyond a limit, with the failure that follows from it. -/
inductive Exceeds (codec : Text.Codec) : Encounter → Failure → Prop
  | count {count : Nat} (long : Number.hasNumeral count = false) :
      Exceeds codec (.count count) .numeralTooLong
  | text {bytes : List UInt8} {fault : Text.CodecFault} (unread : codec.read bytes = .error fault) :
      Exceeds codec (.text bytes) (.codec fault)
  | width {type : BitfieldDef} {member : BitfieldMember} (mem : member ∈ type.members)
      (wide : Decoder.widestMember < member.width) : Exceeds codec (.bitfield type) .widthTooLarge
  | memory {type : BitfieldDef} {member : BitfieldMember} (mem : member ∈ type.members)
      (wide : Decoder.memoryBits < member.width) : Exceeds codec (.bitfield type) .noMemory

end Encounter

/-- What a decode of a source encounters, in order. -/
def Schema.encounters (schema : Schema) (options : Options) (source : Source) : List Encounter :=
  schema.trace options (Encounter.leaves ⟨schema.types, options⟩) source

namespace Decoder

variable {α β : Type} {p : Failure → Prop} {context : DecodeContext}
  {enter : List Node → Decoder Scope} {tells : List Node → Trace Encounter}

/-- That all failures of a decoder have a property or come from something that it encounters. -/
structure FailsBy (context : DecodeContext) (p : Failure → Prop) (x : Decoder α)
    (meets : Trace Encounter) : Prop where
  of_error {r s : Reading} {e : Failure} : x r = .error e s →
    p e ∨ ∃ encounter ∈ meets r, encounter.Exceeds context.options.textEncoding.codec e

namespace FailsBy

theorem forall_error {x : Decoder α} {meets : Trace Encounter} (h : FailsBy context p x meets)
    (hlimits : ∀ codec encounter e, Encounter.Exceeds codec encounter e → p e) {r s : Reading}
    {e : Failure} (hrun : x r = .error e s) : p e := by
  rcases h.of_error hrun with hp | ⟨encounter, -, hexceeds⟩
  · exact hp
  · exact hlimits _ encounter e hexceeds

theorem pure (a : α) {meets : Trace Encounter} : FailsBy context p (Pure.pure a : Decoder α) meets where
  of_error h := (pure_error_iff.1 h).elim

theorem throw {e : Failure} (h : p e) {meets : Trace Encounter} :
    FailsBy context p (MonadExcept.throw e : Decoder α) meets where
  of_error hthrow := by
    obtain ⟨rfl, -⟩ := throw_error_iff.1 hthrow
    exact .inl h

theorem bind {x : Decoder α} {f : α → Decoder β} {first : Trace Encounter} {rest : α → Trace Encounter}
    (hx : FailsBy context p x first) (hf : ∀ a, FailsBy context p (f a) (rest a)) :
    FailsBy context p (x >>= f) (first.andThen x rest) where
  of_error {r s e} h := by
    rcases bind_error_iff.1 h with hfirst | ⟨a, t, hrun, hsecond⟩
    · refine (hx.of_error hfirst).imp_right ?_
      rintro ⟨encounter, hmem, hexceeds⟩
      exact ⟨encounter, List.mem_append_left _ hmem, hexceeds⟩
    · refine ((hf a).of_error hsecond).imp_right ?_
      rintro ⟨encounter, hmem, hexceeds⟩
      refine ⟨encounter, List.mem_append_right _ ?_, hexceeds⟩
      unfold Trace.behind
      rw [hrun]
      exact hmem

/-- A decoder that encounters nothing goes in front. -/
theorem behind {x : Decoder α} {f : α → Decoder β} {rest : α → Trace Encounter}
    (hx : FailsBy context p x .silent) (hf : ∀ a, FailsBy context p (f a) (rest a)) :
    FailsBy context p (x >>= f) (.behind x rest) :=
  hx.bind hf

theorem bind_silent {x : Decoder α} {f : α → Decoder β} {first : Trace Encounter}
    (hx : FailsBy context p x first) (hf : ∀ a, FailsBy context p (f a) .silent) :
    FailsBy context p (x >>= f) first := by
  rw [← first.andThen_silent x]
  exact hx.bind hf

theorem get_bind {f : Reading → Decoder α} {rest : Reading → Trace Encounter}
    (hf : ∀ r, FailsBy context p (f r) (rest r)) : FailsBy context p (get >>= f) (.behind get rest) where
  of_error {r _ _} h := (hf r).of_error h

theorem position_bind {f : Nat → Decoder α} {meets : Trace Encounter}
    (hf : ∀ n, FailsBy context p (f n) meets) : FailsBy context p (Decoder.position >>= f) meets where
  of_error {r _ _} h := (hf r.source.position).of_error h

theorem ite {c : Prop} [Decidable c] {x y : Decoder α} {meets : Trace Encounter}
    (hx : c → FailsBy context p x meets) (hy : FailsBy context p y meets) :
    FailsBy context p (if c then x else y) meets := by
  split
  · rename_i hc
    exact hx hc
  · exact hy

theorem warn (unlisted : UnlistedValue) : FailsBy context p (warn unlisted) .silent where
  of_error h := by cases h

end FailsBy

/-! ### Permitted failures -/

/-- A property of failures that allows what the steps of a decode can find, apart from the end of the levels
of structs within structs. -/
structure Permits (context : DecodeContext) (admits : Field → Prop) (p : Failure → Prop) : Prop where
  bodies {type : StructDef} : .struct type ∈ context.types.definitions →
    ∀ declared ∈ bodyFields type.body, admits declared
  decode {error : DecodeError} : (Failure.decode error).isReference = false → p (.decode error)
  eval (error : EvalError) (label : String) (offset : Nat) : p (.eval error label offset)
  reference {declared : Field} {error : DecodeError} :
    admits declared → ¬ declared.type.Resolves context.types → p (.decode error)

namespace Permits

variable {admits : Field → Prop}

theorem read_error (h : Permits context admits p) {count : Nat} {name : String} {r s : Reading}
    {e : Failure} (hrun : read count name r = .error e s) :
    p e ∨ e = .numeralTooLong ∧ Number.hasNumeral count = false := by
  rw [read_run] at hrun
  split at hrun
  · cases hrun
  · obtain ⟨rfl, -⟩ := EStateM.Result.error.inj hrun
    unfold Failure.shortRead
    split
    · exact .inl (h.decode rfl)
    · rename_i hlong
      exact .inr ⟨rfl, by simpa using hlong⟩

theorem read (h : Permits context admits p) (count : Nat) (name : String) :
    FailsBy context p (read count name) (.tell (.count count)) where
  of_error hrun := by
    refine (h.read_error hrun).imp_right ?_
    rintro ⟨rfl, hlong⟩
    exact ⟨.count count, List.mem_singleton_self _, .count hlong⟩

theorem readUntilNul (h : Permits context admits p) (name : String) :
    FailsBy context p (readUntilNul name) .silent where
  of_error hrun := by
    rw [readUntilNul_run] at hrun
    split at hrun
    · cases hrun
    · obtain ⟨rfl, -⟩ := EStateM.Result.error.inj hrun
      exact .inl (h.decode rfl)

theorem ofCodec {outcome : Except Text.CodecFault α} {meets : Trace Encounter}
    (hmeets : ∀ fault, outcome = .error fault → ∃ bytes, meets = .tell (.text bytes) ∧
      context.options.textEncoding.codec.read bytes = .error fault) :
    FailsBy context p (ofCodec outcome) meets where
  of_error hrun := by
    obtain ⟨fault, houtcome, rfl, rfl⟩ := ofCodec_error_iff.1 hrun
    obtain ⟨bytes, rfl, hread⟩ := hmeets fault houtcome
    exact .inr ⟨.text bytes, List.mem_singleton_self _, .text hread⟩

theorem evaluate (h : Permits context admits p) (scopes : List Scope) (label : String)
    (evaluator : EvalContext → Except EvalError α) :
    FailsBy context p (evaluate context scopes label evaluator) .silent where
  of_error {r s e} hrun := by
    cases hvalue : evaluator ⟨r.source.position, r.source.size, scopes, context.types⟩ with
    | ok value =>
      rw [evaluate_of_ok hvalue] at hrun
      cases hrun
    | error error =>
      rw [evaluate_of_error hvalue] at hrun
      obtain ⟨rfl, -⟩ := EStateM.Result.error.inj hrun
      exact .inl (h.eval ..)

theorem entered (h : Permits context admits p) (head : BlockHead) (scopes : List Scope) :
    FailsBy context p (entered context head scopes) .silent :=
  (h.evaluate ..).bind_silent fun _ => .pure _

theorem add (h : Permits context admits p) (scope : Scope) (result : Result) :
    FailsBy context p (add scope result) .silent := by
  unfold Decoder.add
  cases scope.add result with
  | ok added => exact .pure added
  | error duplicate => exact .throw (h.decode rfl)

theorem addAll (h : Permits context admits p) (scope : Scope) (results : List Result) :
    FailsBy context p (addAll scope results) .silent := by
  induction results generalizing scope with
  | nil => exact .pure scope
  | cons result rest ih => exact (h.add scope result).bind_silent fun added => ih added

/-! ### Single values -/

theorem hasNumeral_size (type : Primitive) : Number.hasNumeral type.size = true := by
  have hsize : type.size < 10 ^ 1 := by cases type <;> decide
  have hpow (digits : Nat) (hdigits : 1 ≤ digits) : type.size < Nat.pow 10 digits :=
    Nat.lt_of_lt_of_le hsize (Nat.pow_le_pow_right (by omega) hdigits)
  simp only [Number.hasNumeral, Int.natAbs_natCast, decide_eq_true_eq]
  exact hpow _ (by decide)

theorem read_size (h : Permits context admits p) (type : Primitive) (name : String) :
    FailsBy context p (Decoder.read type.size name) .silent where
  of_error hrun := by
    rcases h.read_error hrun with hp | ⟨-, hlong⟩
    · exact .inl hp
    · rw [hasNumeral_size] at hlong
      cases hlong

theorem ofBytes_error {type : Primitive} {bytes : List UInt8} {fault : Text.CodecFault}
    (h : type.ofBytes context.options bytes = .error fault) :
    (type = .char ∨ type = .string) ∧
      context.options.textEncoding.codec.read bytes = .error fault := by
  cases type with
  | char => exact ⟨.inl rfl, Except.map_error_iff.1 (Except.map_error_iff.1 h)⟩
  | string => exact ⟨.inr rfl, Except.map_error_iff.1 (Except.map_error_iff.1 h)⟩
  | _ => cases h

theorem primitive (h : Permits context admits p) (type : Primitive) (name : String) :
    FailsBy context p (primitive context type name) (Encounter.primitive type name) := by
  unfold Decoder.primitive Encounter.primitive
  split
  · refine (h.readUntilNul name).behind fun bytes => .bind_silent ?_ fun _ => .pure _
    exact ofCodec fun fault hfault => ⟨bytes, rfl, (ofBytes_error hfault).2⟩
  · rename_i hstring
    split
    · refine (h.read_size type name).behind fun bytes => .bind_silent ?_ fun _ => .pure _
      exact ofCodec fun fault hfault => ⟨bytes, rfl, (ofBytes_error hfault).2⟩
    · rename_i hchar
      refine (h.read_size type name).bind_silent fun bytes => .bind_silent ?_ fun _ => .pure _
      exact ofCodec fun fault hfault => ((ofBytes_error hfault).1.elim hchar hstring).elim

theorem baseInteger (h : Permits context admits p) (base : Primitive) (name : String) :
    FailsBy context p (baseInteger context base name) (Encounter.primitive base name) := by
  refine .position_bind fun offset => (h.primitive base name).bind_silent ?_
  rintro ⟨value, size⟩
  dsimp only
  cases value.baseInteger? with
  | some n => exact .pure _
  | none => exact .throw (h.decode rfl)

theorem enum (h : Permits context admits p) (type : EnumDef) (name : String)
    (comment : Option String) :
    FailsBy context p (enum context type name comment) (Encounter.primitive type.base name) := by
  rw [enum_eq]
  refine .position_bind fun offset => (h.baseInteger _ name).bind_silent ?_
  rintro ⟨raw, size⟩
  refine .bind_silent ?_ fun _ => .pure _
  exact .ite (fun _ => .ite (fun _ => .throw (h.decode rfl)) (.warn _)) (.pure _)

theorem bitfieldMembers (h : Permits context admits p) (type : BitfieldDef) (offset size : Nat)
    {members : List BitfieldMember} (hmembers : ∀ member ∈ members, member ∈ type.members) (bits : Int)
    (scope : Scope) :
    FailsBy context p (bitfieldMembers type.base offset size members bits scope)
      (.tell (.bitfield type)) := by
  induction members generalizing bits scope with
  | nil => exact .pure scope
  | cons member rest ih =>
    have hmember := hmembers member List.mem_cons_self
    refine ⟨fun {r s e} hrun => ?_⟩
    unfold Decoder.bitfieldMembers at hrun
    by_cases hwide : widestMember < member.width
    · rw [if_pos hwide] at hrun
      cases hrun
      exact .inr ⟨_, List.mem_singleton_self _, .width hmember hwide⟩
    by_cases hlarge : memoryBits < member.width
    · rw [if_neg hwide, if_pos hlarge] at hrun
      cases hrun
      exact .inr ⟨_, List.mem_singleton_self _, .memory hmember hlarge⟩
    rw [if_neg hwide, if_neg hlarge] at hrun
    rcases bind_error_iff.1 hrun with hadd | ⟨added, t, -, hrest⟩
    · refine ((h.add scope _).of_error hadd).imp_right ?_
      rintro ⟨_, hmem, -⟩
      cases hmem
    · have hothers := ih fun other hother => hmembers other (List.mem_cons_of_mem _ hother)
      -- What the other members encounter is told alike from the reading behind this one.
      have hfails := (hothers (dropBits member.width bits) added).of_error hrest
      exact hfails

theorem bitfield (h : Permits context admits p) (type : BitfieldDef) (name : String)
    (comment : Option String) :
    FailsBy context p (bitfield context type name comment)
      ((Encounter.leaves context).bitfield type name) := by
  refine .position_bind fun offset => (h.baseInteger _ name).bind ?_
  rintro ⟨raw, size⟩
  exact (h.bitfieldMembers type offset size (fun _ hmember => hmember) _ _).bind_silent fun _ => .pure _

/-- That the bodies of declared structs fail with findings, or by what they encounter. -/
def Enters (context : DecodeContext) (p : Failure → Prop) (enter : List Node → Decoder Scope)
    (tells : List Node → Trace Encounter) : Prop :=
  ∀ type : StructDef, .struct type ∈ context.types.definitions →
    FailsBy context p (enter type.body) (tells type.body)

theorem value (h : Permits context admits p) (henter : Enters context p enter tells) {declared : Field}
    (hadmits : admits declared) (name : String) (comment : Option String) :
    FailsBy context p (value context enter declared.type name comment)
      (.value (Encounter.leaves context) context tells declared.type name) := by
  refine .position_bind fun offset => ?_
  cases htype : declared.type with
  | primitive type => exact (h.primitive type name).bind_silent fun _ => .pure _
  | named kind typeName =>
    -- A lookup that finds no definition of the kind is a reference that does not resolve.
    have hmissing {found : Option Definition} (hfound : context.types.find? typeName = found)
        (hnone : ∀ definition, found = some definition → definition.kind ≠ kind) {error : DecodeError} :
        p (.decode error) := by
      apply h.reference hadmits
      rw [htype]
      rintro ⟨definition, hsome, hkind⟩
      exact hnone definition (hfound.symm.trans hsome) hkind
    unfold Trace.value
    cases kind with
    | primitive | array => exact .throw (hmissing rfl fun definition _ => by cases definition <;> nofun)
    | struct =>
      dsimp only
      cases hfound : context.types.find? typeName with
      | none => exact .throw (hmissing hfound nofun)
      | some definition =>
        cases definition with
        | struct type => exact (henter type (TypeTable.mem_of_find? hfound)).bind_silent fun _ => .pure _
        | enum _ | bitfield _ => exact .throw (hmissing hfound (by rintro _ ⟨⟩; nofun))
    | enum =>
      dsimp only
      cases hfound : context.types.find? typeName with
      | none => exact .throw (hmissing hfound nofun)
      | some definition =>
        cases definition with
        | enum type => exact h.enum ..
        | struct _ | bitfield _ => exact .throw (hmissing hfound (by rintro _ ⟨⟩; nofun))
    | bitfield =>
      dsimp only
      cases hfound : context.types.find? typeName with
      | none => exact .throw (hmissing hfound nofun)
      | some definition =>
        cases definition with
        | bitfield type => exact h.bitfield ..
        | struct _ | enum _ => exact .throw (hmissing hfound (by rintro _ ⟨⟩; nofun))

omit enter tells in
theorem elements {element : String → Decoder Result} {meets : String → Trace Encounter}
    (helement : ∀ name, FailsBy context p (element name) (meets name)) (name : String)
    (count index : Nat) (done : List Result) :
    FailsBy context p (elements element name count index done)
      (.elements element meets name count index) := by
  induction count generalizing index done with
  | zero => exact .pure _
  | succ count ih => exact (helement _).bind fun _ => ih _ _

theorem field (h : Permits context admits p) (henter : Enters context p enter tells) {declared : Field}
    (hadmits : admits declared) (scopes : List Scope) :
    FailsBy context p (field context enter declared scopes)
      (.field (Encounter.leaves context) context enter tells declared scopes) := by
  unfold Decoder.field Trace.field
  cases declared.length with
  | none => exact h.value henter hadmits _ _
  | some length =>
    refine .position_bind fun offset => (h.evaluate ..).behind fun count => ?_
    split
    · refine (h.read count declared.name).bind fun bytes => .bind_silent ?_ fun _ => .pure _
      exact ofCodec fun fault hfault => ⟨bytes, rfl, Except.map_error_iff.1 hfault⟩
    · exact (elements (fun _ => h.value henter hadmits _ _) ..).bind_silent fun _ => .pure _

/-! ### Bodies -/

theorem checkLimit (h : Permits context admits p) (head : BlockHead) (iteration start : Nat) :
    FailsBy context p (checkLimit context head iteration start) .silent := by
  unfold Decoder.checkLimit
  cases context.options.maxLoopIterations with
  | some limit => exact .ite (fun _ => .throw (h.decode rfl)) (.pure _)
  | none => exact .pure _

theorem checkProgress (h : Permits context admits p) (head : BlockHead) (start : Nat) :
    FailsBy context p (checkProgress head start) .silent :=
  .position_bind fun _ => .ite (fun _ => .throw (h.decode rfl)) (.pure _)

theorem position : FailsBy context p position .silent :=
  .position_bind fun _ => .pure _

theorem loop (h : Permits context admits p) {head : BlockHead} {body : List Scope → Decoder Scope}
    {meets : List Scope → Trace Encounter} (hbody : ∀ scopes, FailsBy context p (body scopes) (meets scopes))
    (outer : List Scope) (steps iteration : Nat) (visible : List Scope) (scope : Scope) :
    FailsBy context p (loop context head body outer steps iteration visible scope)
      (.loop context head body meets outer steps iteration visible scope) := by
  induction steps generalizing iteration visible scope with
  | zero => exact .position_bind fun _ => .throw (h.decode rfl)
  | succ steps ih =>
    rw [loop_succ]
    refine (h.entered ..).behind fun enters => ?_
    cases enters with
    | false => exact .pure scope
    | true =>
      rw [if_pos rfl, if_pos rfl]
      refine position.behind fun start => (h.checkLimit ..).behind fun _ => ?_
      refine (hbody _).bind fun fields => (h.addAll ..).behind fun joined => ?_
      exact (h.checkProgress ..).behind fun _ => ih _ _ _

mutual

theorem nodes (h : Permits context admits p) (henter : Enters context p enter tells) :
    ∀ (body : List Node), (∀ declared ∈ bodyFields body, admits declared) →
      ∀ (outer : List Scope) (scope : Scope),
        FailsBy context p (Decoder.nodes context enter body outer scope)
          (.nodes (Encounter.leaves context) context enter tells body outer scope)
  | [], _, _, scope => .pure scope
  | head :: rest, hadmits, outer, scope => by
    simp only [bodyFields_cons, List.mem_append] at hadmits
    exact .bind (h.node henter head (fun f hf => hadmits f (.inl hf)) outer scope)
      fun added => h.nodes henter rest (fun f hf => hadmits f (.inr hf)) outer added
termination_by structural body => body

theorem node (h : Permits context admits p) (henter : Enters context p enter tells) :
    ∀ (tree : Node), (∀ declared ∈ tree.fields, admits declared) →
      ∀ (outer : List Scope) (scope : Scope),
        FailsBy context p (Decoder.node context enter tree outer scope)
          (.node (Encounter.leaves context) context enter tells tree outer scope)
  | .field declared, hadmits, outer, scope =>
    (h.field henter (hadmits declared (by simp)) _).bind_silent fun _ => h.add ..
  | .block head body, hadmits, outer, scope => by
    have hinner (scopes : List Scope) := h.nodes henter body hadmits scopes []
    unfold Decoder.node Trace.node
    dsimp only
    split
    · exact .get_bind fun reading => h.loop hinner ..
    · refine (h.entered ..).behind fun enters => ?_
      split
      · exact (hinner _).bind_silent fun _ => h.addAll ..
      · exact .pure scope
termination_by structural tree => tree

end

theorem structBody (h : Permits context admits p) (hendless : p .endless) (levels : Nat) :
    Enters context p (structBody context levels)
      (.structBody (Encounter.leaves context) context levels) := by
  induction levels with
  | zero => exact fun _ _ => .throw hendless
  | succ levels ih =>
    intro type hdeclared
    exact h.nodes ih type.body (h.bodies hdeclared) [] []

end Permits

end Decoder

/-- The failures of a decode are permitted, or come from something that it encounters. -/
theorem Schema.decode_fails {schema : Schema} {options : Options} {admits : Field → Prop}
    {p : Failure → Prop} (h : Decoder.Permits ⟨schema.types, options⟩ admits p) (hendless : p .endless)
    (hroot : ∀ body ∈ schema.root, ∀ declared ∈ bodyFields body, admits declared)
    {source : Source} {failure : Failure} {reading : Reading}
    (hrun : schema.decode options source = .error failure reading) :
    p failure ∨ ∃ encounter ∈ schema.encounters options source,
      encounter.Exceeds options.textEncoding.codec failure := by
  unfold decode at hrun
  unfold encounters trace
  cases hbody : schema.root with
  | none =>
    rw [hbody] at hrun
    cases hrun
    exact .inl (h.decode rfl)
  | some body =>
    simp only [hbody] at hrun
    split at hrun
    · cases hrun
    · rename_i hnodes
      cases hrun
      exact (h.nodes (h.structBody hendless _) body (hroot body hbody) [] []).of_error hnodes

/-- A decode by a schema whose references resolve does not fail with one. -/
theorem Schema.decode_findsTypes {schema : Schema}
    (hroot : ∀ body ∈ schema.root, ∀ declared ∈ bodyFields body,
      declared.type.Resolves schema.types)
    (hstructs : ∀ type : StructDef, .struct type ∈ schema.types.definitions →
      ∀ declared ∈ bodyFields type.body, declared.type.Resolves schema.types)
    {options : Options} {source : Source} {failure : Failure} {reading : Reading}
    (h : schema.decode options source = .error failure reading) :
    failure.isReference = false := by
  have hpermits : Decoder.Permits ⟨schema.types, options⟩
      (fun declared => declared.type.Resolves schema.types)
      (fun failure => failure.isReference = false) := {
    bodies := fun {type} htype => hstructs type htype
    decode := fun herror => herror
    eval := fun _ _ _ => rfl
    reference := fun hresolves hnot => absurd hresolves hnot }
  rcases Schema.decode_fails hpermits rfl hroot h with hfinding | ⟨encounter, -, hexceeds⟩
  · exact hfinding
  · cases hexceeds <;> rfl

end BinarySchema
