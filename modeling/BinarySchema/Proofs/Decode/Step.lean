import BinarySchema.Decode
import BinarySchema.Proofs.Source.Consumption

/-!
# Steps of a decode

What each decoder did if it came to a result: which smaller decoders ran between which readings, and
what the result is made of. Proofs about whole decodes take a run apart by these lemmas and leave
the decoders themselves closed.

Where a decoder has several ways to its result, the ways are the constructors of an inductive
predicate, so that `cases` gives one goal for each.
-/

namespace BinarySchema

/-- The bytes behind a value that are consumed and belong to no value: the end of a string. -/
def Primitive.terminator : Primitive → List UInt8
  | .string => [0]
  | _ => []

namespace Decoder

variable {α β : Type} {context : DecodeContext} {enter : List Node → Decoder Scope}
  {r s t : Reading}

/-! ### Sequencing -/

theorem bind_ok_iff {x : Decoder α} {f : α → Decoder β} {b : β} :
    (x >>= f) r = .ok b t ↔ ∃ a s, x r = .ok a s ∧ f a s = .ok b t := by
  change EStateM.bind x f r = _ ↔ _
  unfold EStateM.bind
  cases x r with
  | ok a s =>
    constructor
    · intro h
      exact ⟨a, s, rfl, h⟩
    · rintro ⟨_, _, heq, h⟩
      cases heq
      exact h
  | error e s => simp

theorem bind_error_iff {x : Decoder α} {f : α → Decoder β} {e : Failure} :
    (x >>= f) r = .error e t ↔
      x r = .error e t ∨ ∃ a s, x r = .ok a s ∧ f a s = .error e t := by
  change EStateM.bind x f r = _ ↔ _
  unfold EStateM.bind
  cases x r with
  | ok a s =>
    constructor
    · intro h
      exact .inr ⟨a, s, rfl, h⟩
    · rintro (heq | ⟨_, _, heq, h⟩)
      · cases heq
      · cases heq
        exact h
  | error e s => simp

/-- A decoder goes on from where its first part comes to. -/
theorem bind_of_ok {x : Decoder α} {f : α → Decoder β} {a : α} (h : x r = .ok a s) :
    (x >>= f) r = f a s := by
  change EStateM.bind x f r = _
  unfold EStateM.bind
  rw [h]

theorem bind_of_error {x : Decoder α} {f : α → Decoder β} {e : Failure} (h : x r = .error e s) :
    (x >>= f) r = .error e s :=
  bind_error_iff.2 (.inl h)

@[simp] theorem pure_ok_iff {a b : α} : (pure a : Decoder α) r = .ok b s ↔ a = b ∧ r = s := by
  change EStateM.Result.ok a r = _ ↔ _
  simp

@[simp] theorem pure_error_iff {a : α} {e : Failure} :
    (pure a : Decoder α) r = .error e s ↔ False := by
  change EStateM.Result.ok a r = _ ↔ _
  simp

@[simp] theorem throw_ok_iff {a : α} {e : Failure} :
    (throw e : Decoder α) r = .ok a s ↔ False := by
  change EStateM.Result.error e r = _ ↔ _
  simp

@[simp] theorem throw_error_iff {e f : Failure} :
    (throw e : Decoder α) r = .error f s ↔ e = f ∧ r = s := by
  change EStateM.Result.error e r = _ ↔ _
  simp

@[simp] theorem fail_ok_iff {a : α} {fault : DecodeFault} {label : String} {offset : Nat} :
    (fail fault label offset : Decoder α) r = .ok a s ↔ False :=
  throw_ok_iff

/-- A decoder looks at the reading before it goes on. -/
theorem get_bind (f : Reading → Decoder α) : (get >>= f) r = f r r := rfl

/-- A decoder looks at the position before it goes on. -/
theorem position_bind (f : Nat → Decoder α) : (position >>= f) r = f r.source.position r := rfl

/-! ### Reading and evaluating -/

theorem read_run (count : Nat) (label : String) (r : Reading) :
    read count label r = match r.source.read count with
      | (.ok bytes, next) => .ok bytes { r with source := next }
      | (.error available, next) =>
        .error (.shortRead count r.source.position available label) { r with source := next } := by
  unfold read
  rw [get_bind]
  obtain ⟨got, next⟩ := r.source.read count
  cases got <;> rfl

theorem readUntilNul_run (label : String) (r : Reading) :
    readUntilNul label r = match r.source.readUntilNul with
      | (some bytes, next) => .ok bytes { r with source := next }
      | (none, next) =>
        .error (.decode ⟨.unterminated r.source.position, some label, some r.source.position⟩)
          { r with source := next } := by
  unfold readUntilNul
  rw [get_bind]
  obtain ⟨got, next⟩ := r.source.readUntilNul
  cases got <;> rfl

theorem read_ok {count : Nat} {label : String} {bytes : List UInt8}
    (h : read count label r = .ok bytes s) :
    bytes.length = count ∧ r.source.Consumes bytes s.source ∧ s.warnings = r.warnings := by
  rw [read_run] at h
  split at h
  · rename_i hread
    obtain ⟨rfl, rfl⟩ := EStateM.Result.ok.inj h
    obtain ⟨hlength, hconsumes⟩ := Source.read_consumes hread
    exact ⟨hlength, hconsumes, rfl⟩
  · cases h

theorem readUntilNul_ok {label : String} {bytes : List UInt8}
    (h : readUntilNul label r = .ok bytes s) :
    0 ∉ bytes ∧ r.source.Consumes (bytes ++ [0]) s.source ∧ s.warnings = r.warnings := by
  rw [readUntilNul_run] at h
  split at h
  · rename_i hread
    obtain ⟨rfl, rfl⟩ := EStateM.Result.ok.inj h
    obtain ⟨hnul, hconsumes⟩ := Source.readUntilNul_consumes hread
    exact ⟨hnul, hconsumes, rfl⟩
  · cases h

theorem evaluate_ok {scopes : List Scope} {label : String}
    {evaluator : EvalContext → Except EvalError α} {a : α}
    (h : evaluate context scopes label evaluator r = .ok a s) :
    s = r ∧ evaluator ⟨r.source.position, r.source.size, scopes, context.types⟩ = .ok a := by
  unfold evaluate at h
  obtain ⟨source, _, hsource, h⟩ := bind_ok_iff.1 h
  cases hsource
  cases heq : evaluator ⟨r.source.position, r.source.size, scopes, context.types⟩ with
  | error error =>
    rw [heq] at h
    simp at h
  | ok value =>
    rw [heq] at h
    obtain ⟨rfl, rfl⟩ := pure_ok_iff.1 h
    exact ⟨rfl, rfl⟩

theorem evaluate_of_ok {scopes : List Scope} {label : String}
    {evaluator : EvalContext → Except EvalError α} {a : α}
    (h : evaluator ⟨r.source.position, r.source.size, scopes, context.types⟩ = .ok a) :
    evaluate context scopes label evaluator r = .ok a r := by
  unfold evaluate
  rw [get_bind, h]
  rfl

theorem evaluate_of_error {scopes : List Scope} {label : String}
    {evaluator : EvalContext → Except EvalError α} {error : EvalError}
    (h : evaluator ⟨r.source.position, r.source.size, scopes, context.types⟩ = .error error) :
    evaluate context scopes label evaluator r = .error (.eval error label r.source.position) r := by
  unfold evaluate
  rw [get_bind, h]
  rfl

@[simp] theorem ofCodec_ok_iff {outcome : Except Text.CodecFault α} {a : α} :
    ofCodec outcome r = .ok a s ↔ outcome = .ok a ∧ r = s := by
  cases outcome with
  | ok value =>
    rw [Except.ok.injEq]
    exact pure_ok_iff
  | error fault => exact ⟨nofun, fun h => nomatch h.1⟩

@[simp] theorem ofCodec_error_iff {outcome : Except Text.CodecFault α} {e : Failure} :
    ofCodec outcome r = .error e s ↔ ∃ fault, outcome = .error fault ∧ e = .codec fault ∧ r = s := by
  cases outcome with
  | ok value => exact ⟨nofun, fun ⟨_, h, _⟩ => nomatch h⟩
  | error fault =>
    constructor
    · intro h
      obtain ⟨rfl, rfl⟩ := throw_error_iff.1 h
      exact ⟨fault, rfl, rfl, rfl⟩
    · rintro ⟨_, ⟨⟩, rfl, rfl⟩
      rfl

theorem entered_ok {head : BlockHead} {scopes : List Scope} {enters : Bool}
    (h : entered context head scopes r = .ok enters s) : s = r := by
  obtain ⟨holds, t, hevaluate, h⟩ := bind_ok_iff.1 h
  rw [← (pure_ok_iff.1 h).2, (evaluate_ok hevaluate).1]

/-! ### Scopes -/

theorem add_ok {scope added : Scope} {result : Result} (h : add scope result r = .ok added s) :
    added = scope ++ [result] ∧ s = r := by
  unfold add Scope.add at h
  by_cases htaken : Scope.contains scope result.name
  · simp [htaken] at h
  · rw [if_neg htaken] at h
    obtain ⟨rfl, rfl⟩ := pure_ok_iff.1 h
    exact ⟨rfl, rfl⟩

theorem addAll_ok {scope added : Scope} {results : List Result}
    (h : addAll scope results r = .ok added s) : added = scope ++ results ∧ s = r := by
  induction results generalizing scope r with
  | nil =>
    obtain ⟨rfl, rfl⟩ := pure_ok_iff.1 h
    simp
  | cons result rest ih =>
    unfold addAll at h
    obtain ⟨between, t, hadd, hrest⟩ := bind_ok_iff.1 h
    obtain ⟨rfl, rfl⟩ := add_ok hadd
    obtain ⟨rfl, rfl⟩ := ih hrest
    simp

/-! ### Single values -/

theorem primitive_ok {type : Primitive} {name : String} {value : Datum} {size : Nat}
    (h : primitive context type name r = .ok (value, size) s) :
    ∃ bytes, type.ofBytes context.options bytes = .ok value ∧ size = bytes.length ∧
      (type ≠ .string → bytes.length = type.size) ∧
      r.source.Consumes (bytes ++ type.terminator) s.source ∧ s.warnings = r.warnings := by
  unfold primitive at h
  split at h
  · rename_i hstring
    obtain ⟨bytes, t, hread, h⟩ := bind_ok_iff.1 h
    obtain ⟨value, t, hcodec, hpure⟩ := bind_ok_iff.1 h
    obtain ⟨hvalue, rfl⟩ := ofCodec_ok_iff.1 hcodec
    obtain ⟨hpair, rfl⟩ := pure_ok_iff.1 hpure
    obtain ⟨rfl, rfl⟩ := Prod.mk.inj hpair
    obtain ⟨_, hconsumes, hwarnings⟩ := readUntilNul_ok hread
    subst hstring
    exact ⟨bytes, hvalue, rfl, fun hne => absurd rfl hne, hconsumes, hwarnings⟩
  · rename_i hstring
    obtain ⟨bytes, t, hread, h⟩ := bind_ok_iff.1 h
    obtain ⟨value, t, hcodec, hpure⟩ := bind_ok_iff.1 h
    obtain ⟨hvalue, rfl⟩ := ofCodec_ok_iff.1 hcodec
    obtain ⟨hpair, rfl⟩ := pure_ok_iff.1 hpure
    obtain ⟨rfl, rfl⟩ := Prod.mk.inj hpair
    obtain ⟨hlength, hconsumes, hwarnings⟩ := read_ok hread
    have hterminator : type.terminator = [] := by
      cases type with
      | string => exact absurd rfl hstring
      | _ => rfl
    refine ⟨bytes, hvalue, rfl, fun _ => hlength, ?_, hwarnings⟩
    rwa [hterminator, List.append_nil]

theorem baseInteger_ok {base : Primitive} {name : String} {raw : Int} {size : Nat}
    (h : baseInteger context base name r = .ok (raw, size) s) :
    ∃ value, primitive context base name r = .ok (value, size) s ∧
      value.baseInteger? = some raw := by
  unfold baseInteger at h
  rw [position_bind] at h
  obtain ⟨⟨value, size'⟩, t, hread, hrest⟩ := bind_ok_iff.1 h
  cases hraw : value.baseInteger? with
  | none => simp [hraw] at hrest
  | some n =>
    simp only [hraw, pure_ok_iff, Prod.mk.injEq] at hrest
    obtain ⟨⟨rfl, rfl⟩, rfl⟩ := hrest
    exact ⟨value, hread, hraw⟩

/-- What an enum field shows for its integer. -/
def memberValue (type : EnumDef) (raw : Int) : Datum :=
  match type.memberFor? raw with
  | some member => .text member.name
  | none => .null

/-- Refuses an enum's value without a member, or warns of it. -/
def checkListed (context : DecodeContext) (type : EnumDef) (name : String) (raw : Int)
    (offset : Nat) : Decoder Unit :=
  if (type.memberFor? raw).isNone then
    if context.options.strictEnums then fail (.unlisted ⟨name, raw, type.name⟩) name offset
    else warn ⟨name, raw, type.name⟩
  else pure ()

theorem enum_eq (context : DecodeContext) (type : EnumDef) (name : String)
    (comment : Option String) : enum context type name comment = (do
      let offset ← position
      let (raw, size) ← baseInteger context type.base name
      checkListed context type name raw offset
      return {
        kind := .enum, name, offset, size, typeName := type.name, value := memberValue type raw
        comment, raw := some raw }) := by
  unfold enum
  refine congrArg (position >>= ·) (funext fun offset => ?_)
  refine congrArg (baseInteger context type.base name >>= ·) (funext fun (raw, size) => ?_)
  dsimp only
  unfold checkListed memberValue
  cases type.memberFor? raw with
  | some member => rfl
  | none =>
    simp only [Option.isNone_none, if_true]
    split <;> rfl

theorem enum_ok {type : EnumDef} {name : String} {comment : Option String} {result : Result}
    (h : enum context type name comment r = .ok result s) :
    ∃ raw size t, baseInteger context type.base name r = .ok (raw, size) t ∧
      s.source = t.source ∧
      result = {
        kind := .enum, name, offset := r.source.position, size, typeName := type.name
        value := memberValue type raw, comment, raw := some raw } := by
  unfold enum at h
  rw [position_bind] at h
  obtain ⟨⟨raw, size⟩, t, hread, hrest⟩ := bind_ok_iff.1 h
  refine ⟨raw, size, t, hread, ?_⟩
  cases hmember : type.memberFor? raw with
  | some member =>
    simp only [hmember, Option.isNone_some, Bool.false_eq_true, if_false, pure_ok_iff] at hrest
    obtain ⟨rfl, rfl⟩ := hrest
    simp [memberValue, hmember]
  | none =>
    by_cases hstrict : context.options.strictEnums = true
    · simp only [hmember, Option.isNone_none, if_true, hstrict, bind_ok_iff, fail_ok_iff,
        false_and, exists_false] at hrest
    · simp only [hmember, Option.isNone_none, if_true, hstrict] at hrest
      obtain ⟨_, u, hwarn, hpure⟩ := bind_ok_iff.1 hrest
      cases hwarn
      obtain ⟨rfl, rfl⟩ := pure_ok_iff.1 hpure
      simp [memberValue, hmember]

/-- The results that a bitfield's integer falls into, the first from its lowest bits. -/
def memberResults (base : Primitive) (offset size : Nat) : List BitfieldMember → Int → Scope
  | [], _ => []
  | member :: rest, bits =>
    { kind := .primitive, name := member.name, offset, size, typeName := base.keyword
      value := .int (lowBits member.width bits), comment := member.comment } ::
        memberResults base offset size rest (dropBits member.width bits)

theorem memberResults_forall (base : Primitive) (offset size : Nat)
    (members : List BitfieldMember) {p : Result → Prop} (hp : ∀ member ∈ members, ∀ bits : Int,
      p { kind := .primitive, name := member.name, offset, size, typeName := base.keyword
          value := .int (lowBits member.width bits), comment := member.comment })
    (bits : Int) :
    ∀ result ∈ memberResults base offset size members bits, p result := by
  induction members generalizing bits with
  | nil => simp [memberResults]
  | cons member rest ih =>
    simp only [memberResults, List.mem_cons]
    rintro result (rfl | hrest)
    · exact hp member List.mem_cons_self bits
    · exact ih (fun other hother => hp other (List.mem_cons_of_mem _ hother)) _ result hrest

theorem bitfieldMembers_ok {base : Primitive} {offset size : Nat} {members : List BitfieldMember}
    {bits : Int} {scope added : Scope}
    (h : bitfieldMembers base offset size members bits scope r = .ok added s) :
    added = scope ++ memberResults base offset size members bits ∧ s = r := by
  induction members generalizing bits scope r with
  | nil =>
    obtain ⟨rfl, rfl⟩ := pure_ok_iff.1 h
    simp [memberResults]
  | cons member rest ih =>
    unfold bitfieldMembers at h
    by_cases hwide : widestMember < member.width
    · simp [hwide, bind_ok_iff] at h
    by_cases hlarge : memoryBits < member.width
    · simp [hwide, hlarge, bind_ok_iff] at h
    rw [if_neg hwide, if_neg hlarge] at h
    obtain ⟨between, t, hadd, hrest⟩ := bind_ok_iff.1 h
    obtain ⟨rfl, rfl⟩ := add_ok hadd
    obtain ⟨rfl, rfl⟩ := ih hrest
    simp [memberResults]

theorem bitfield_ok {type : BitfieldDef} {name : String} {comment : Option String}
    {result : Result} (h : bitfield context type name comment r = .ok result s) :
    ∃ raw size, baseInteger context type.base name r = .ok (raw, size) s ∧
      result = {
        kind := .bitfield, name, offset := r.source.position, size, typeName := type.name
        value := .scope (memberResults type.base r.source.position size type.members raw)
        comment, raw := some raw } := by
  unfold bitfield at h
  rw [position_bind] at h
  obtain ⟨⟨raw, size⟩, t, hread, hrest⟩ := bind_ok_iff.1 h
  obtain ⟨members, u, hmembers, hpure⟩ := bind_ok_iff.1 hrest
  obtain ⟨rfl, rfl⟩ := bitfieldMembers_ok hmembers
  obtain ⟨rfl, rfl⟩ := pure_ok_iff.1 hpure
  exact ⟨raw, size, hread, rfl⟩

/-- The integer that a plain value keeps beside it. -/
def rawSeconds : Datum → Option Int
  | .time t => some t.seconds
  | _ => none

/-- The ways to a value of a type. -/
inductive ValueRun (context : DecodeContext) (enter : List Node → Decoder Scope) (name : String)
    (comment : Option String) (r : Reading) : TypeRef → Result → Reading → Prop
  | primitive {type : Primitive} {value : Datum} {size : Nat} {s : Reading}
      (run : Decoder.primitive context type name r = .ok (value, size) s) :
      ValueRun context enter name comment r (.primitive type)
        { kind := .primitive, name, offset := r.source.position, size, typeName := type.keyword
          value, comment, raw := rawSeconds value } s
  | struct {typeName : String} {type : StructDef} {fields : Scope} {s : Reading}
      (found : context.types.find? typeName = some (.struct type))
      (run : enter type.body r = .ok fields s) :
      ValueRun context enter name comment r (.named .struct typeName)
        { kind := .struct, name, offset := r.source.position, size := Scope.totalSize fields
          typeName := type.name, value := .scope fields, comment } s
  | enum {typeName : String} {type : EnumDef} {result : Result} {s : Reading}
      (found : context.types.find? typeName = some (.enum type))
      (run : Decoder.enum context type name comment r = .ok result s) :
      ValueRun context enter name comment r (.named .enum typeName) result s
  | bitfield {typeName : String} {type : BitfieldDef} {result : Result} {s : Reading}
      (found : context.types.find? typeName = some (.bitfield type))
      (run : Decoder.bitfield context type name comment r = .ok result s) :
      ValueRun context enter name comment r (.named .bitfield typeName) result s

theorem value_ok {type : TypeRef} {name : String} {comment : Option String} {result : Result}
    (h : value context enter type name comment r = .ok result s) :
    ValueRun context enter name comment r type result s := by
  unfold value at h
  rw [position_bind] at h
  cases type with
  | primitive type =>
    obtain ⟨⟨value, size⟩, t, hread, hpure⟩ := bind_ok_iff.1 h
    obtain ⟨rfl, rfl⟩ := pure_ok_iff.1 hpure
    exact .primitive hread
  | named kind typeName =>
    cases kind with
    | primitive => simp at h
    | array => simp at h
    | struct =>
      cases hfound : context.types.find? typeName with
      | none => simp [hfound] at h
      | some definition =>
        cases definition with
        | struct type =>
          simp only [hfound] at h
          obtain ⟨fields, t, hrun, hpure⟩ := bind_ok_iff.1 h
          obtain ⟨rfl, rfl⟩ := pure_ok_iff.1 hpure
          exact .struct hfound hrun
        | enum _ => simp [hfound] at h
        | bitfield _ => simp [hfound] at h
    | enum =>
      cases hfound : context.types.find? typeName with
      | none => simp [hfound] at h
      | some definition =>
        cases definition with
        | enum type => exact .enum hfound (by simpa only [hfound] using h)
        | struct _ => simp [hfound] at h
        | bitfield _ => simp [hfound] at h
    | bitfield =>
      cases hfound : context.types.find? typeName with
      | none => simp [hfound] at h
      | some definition =>
        cases definition with
        | bitfield type => exact .bitfield hfound (by simpa only [hfound] using h)
        | struct _ => simp [hfound] at h
        | enum _ => simp [hfound] at h

/-! ### Arrays -/

/-- The ways to an array. -/
inductive ArrayRun (context : DecodeContext) (enter : List Node → Decoder Scope) (field : Field)
    (length : Expression) (scopes : List Scope) (r : Reading) : Result → Reading → Prop
  | text {count : Nat} {bytes : List UInt8} {text : String} {s : Reading}
      (type : field.type = .primitive .char)
      (counted : evaluate context scopes field.name length.length r = .ok count r)
      (run : read count field.name r = .ok bytes s)
      (coded : context.options.textEncoding.read bytes = .ok text) :
      ArrayRun context enter field length scopes r
        { kind := .array, name := field.name, offset := r.source.position, size := count
          typeName := field.typeName
          value := .text text, comment := field.comment } s
  | items {count : Nat} {items : Scope} {s : Reading}
      (type : field.type ≠ .primitive .char)
      (counted : evaluate context scopes field.name length.length r = .ok count r)
      (run : elements (value context enter field.type · none) field.name count 0 [] r
        = .ok items s) :
      ArrayRun context enter field length scopes r
        { kind := .array, name := field.name, offset := r.source.position
          size := Scope.totalSize items, typeName := field.typeName, value := .scope items
          comment := field.comment } s

theorem array_ok {field : Field} {length : Expression} {scopes : List Scope} {result : Result}
    (h : array context enter field length scopes r = .ok result s) :
    ArrayRun context enter field length scopes r result s := by
  unfold array at h
  rw [position_bind] at h
  obtain ⟨count, t, hcount, hrest⟩ := bind_ok_iff.1 h
  obtain rfl := (evaluate_ok hcount).1
  split at hrest
  · rename_i htype
    obtain ⟨bytes, u, hread, hrest⟩ := bind_ok_iff.1 hrest
    obtain ⟨text, v, hcodec, hpure⟩ := bind_ok_iff.1 hrest
    obtain ⟨hcoded, rfl⟩ := ofCodec_ok_iff.1 hcodec
    obtain ⟨rfl, rfl⟩ := pure_ok_iff.1 hpure
    exact .text htype hcount hread hcoded
  · rename_i htype
    obtain ⟨items, u, hitems, hpure⟩ := bind_ok_iff.1 hrest
    obtain ⟨rfl, rfl⟩ := pure_ok_iff.1 hpure
    exact .items htype hcount hitems

/-! ### Loops -/

/-- Ends the decode in an iteration beyond the cap. -/
def checkLimit (context : DecodeContext) (head : BlockHead) (iteration start : Nat) :
    Decoder Unit :=
  match context.options.maxLoopIterations with
  | some limit =>
    if limit.val ≤ iteration then fail (.loopLimit limit.val) head.label start else pure ()
  | none => pure ()

/-- Ends the decode if nothing was consumed since `start`. -/
def checkProgress (head : BlockHead) (start : Nat) : Decoder Unit := do
  if (← position) = start then fail .noProgress head.label start

theorem checkLimit_ok {head : BlockHead} {iteration start : Nat} {u : Unit}
    (h : checkLimit context head iteration start r = .ok u s) : s = r := by
  unfold checkLimit at h
  cases hlimit : context.options.maxLoopIterations with
  | none =>
    simp only [hlimit, pure_ok_iff] at h
    exact h.2.symm
  | some limit =>
    by_cases hcap : limit.val ≤ iteration
    · simp [hlimit, hcap] at h
    · simp only [hlimit, hcap, if_false, pure_ok_iff] at h
      exact h.2.symm

theorem checkProgress_ok {head : BlockHead} {start : Nat} {u : Unit}
    (h : checkProgress head start r = .ok u s) : s = r ∧ r.source.position ≠ start := by
  unfold checkProgress at h
  rw [position_bind] at h
  by_cases hstill : r.source.position = start
  · simp [hstill] at h
  · simp only [hstill, if_false, pure_ok_iff] at h
    exact ⟨h.2.symm, hstill⟩

theorem check_bind (c : Prop) [Decidable c] (x : Decoder Unit) (next : Unit → Decoder α) :
    ((if c then x else pure ()) >>= next) = if c then x >>= next else next () := by
  split
  · rfl
  · exact pure_bind _ _

/-- One iteration of a loop and the iterations behind it. -/
theorem loop_succ (head : BlockHead) (body : List Scope → Decoder Scope) (outer : List Scope)
    (steps iteration : Nat) (visible : List Scope) (scope : Scope) :
    loop context head body outer (steps + 1) iteration visible scope = (do
      if ← entered context head (visible ++ scope :: outer) then
        let start ← position
        checkLimit context head iteration start
        let fields ← body (scope :: outer)
        let scope ← addAll scope (fields.map fun r => r.rename (indexedName r.name iteration))
        checkProgress head start
        loop context head body outer steps (iteration + 1) [fields] scope
      else return scope) := by
  rw [loop]
  refine congrArg (_ >>= ·) (funext fun enters => ?_)
  cases enters with
  | false => rfl
  | true =>
    refine congrArg (position >>= ·) (funext fun start => ?_)
    unfold checkLimit
    cases context.options.maxLoopIterations with
    | none => simp only [checkProgress, pure_bind, bind_assoc, check_bind]
    | some limit => simp only [checkProgress, bind_assoc, check_bind]

/-- The ways out of a loop. -/
inductive LoopRun (context : DecodeContext) (head : BlockHead) (body : List Scope → Decoder Scope)
    (outer : List Scope) (steps iteration : Nat) (visible : List Scope) (scope : Scope)
    (r : Reading) : Scope → Reading → Prop
  | done (leaves : entered context head (visible ++ scope :: outer) r = .ok false r) :
      LoopRun context head body outer steps iteration visible scope r scope r
  | again {fields result : Scope} {s t : Reading}
      (enters : entered context head (visible ++ scope :: outer) r = .ok true r)
      (run : body (scope :: outer) r = .ok fields s)
      (moved : s.source.position ≠ r.source.position)
      (rest : loop context head body outer steps (iteration + 1) [fields]
        (scope ++ fields.map fun r => r.rename (indexedName r.name iteration)) s = .ok result t) :
      LoopRun context head body outer steps iteration visible scope r result t

theorem loop_ok {head : BlockHead} {body : List Scope → Decoder Scope} {outer : List Scope}
    {steps iteration : Nat} {visible : List Scope} {scope result : Scope}
    (h : loop context head body outer (steps + 1) iteration visible scope r = .ok result s) :
    LoopRun context head body outer steps iteration visible scope r result s := by
  rw [loop_succ] at h
  obtain ⟨enters, r', henters, hrest⟩ := bind_ok_iff.1 h
  obtain rfl := entered_ok henters
  cases enters with
  | false =>
    obtain ⟨rfl, rfl⟩ := pure_ok_iff.1 hrest
    exact .done henters
  | true =>
    simp only [if_true, position_bind] at hrest
    obtain ⟨u, r₁, hlimit, hrest₁⟩ := bind_ok_iff.1 hrest
    obtain rfl := checkLimit_ok hlimit
    obtain ⟨fields, t, hfields, hrest₂⟩ := bind_ok_iff.1 hrest₁
    obtain ⟨between, t₁, hadd, hrest₃⟩ := bind_ok_iff.1 hrest₂
    obtain ⟨rfl, rfl⟩ := addAll_ok hadd
    obtain ⟨v, t₂, hprogress, hloop⟩ := bind_ok_iff.1 hrest₃
    obtain ⟨rfl, hmoved⟩ := checkProgress_ok hprogress
    exact .again henters hfields hmoved hloop

/-! ### Bodies -/

/-- What a node may do to the scope around it. -/
inductive NodeRun (context : DecodeContext) (enter : List Node → Decoder Scope)
    (outer : List Scope) (scope : Scope) (r : Reading) : Node → Scope → Reading → Prop
  | field {declared : Field} {result : Result} {s : Reading}
      (run : Decoder.field context enter declared (scope :: outer) r = .ok result s) :
      NodeRun context enter outer scope r (.field declared) (scope ++ [result]) s
  | repeated {head : BlockHead} {body : List Node} {result : Scope} {s : Reading}
      (repeats : head.control.repeats = true)
      (run : loop context head (fun scopes => nodes context enter body scopes []) outer
        (r.source.unread + 1) 0 [] scope r = .ok result s) :
      NodeRun context enter outer scope r (.block head body) result s
  | skipped {head : BlockHead} {body : List Node} (repeats : head.control.repeats = false)
      (enters : entered context head (scope :: outer) r = .ok false r) :
      NodeRun context enter outer scope r (.block head body) scope r
  | spliced {head : BlockHead} {body : List Node} {fields : Scope} {s : Reading}
      (repeats : head.control.repeats = false)
      (enters : entered context head (scope :: outer) r = .ok true r)
      (run : nodes context enter body (scope :: outer) [] r = .ok fields s) :
      NodeRun context enter outer scope r (.block head body) (scope ++ fields) s

theorem node_ok {tree : Node} {outer : List Scope} {scope result : Scope}
    (h : node context enter tree outer scope r = .ok result s) :
    NodeRun context enter outer scope r tree result s := by
  cases tree with
  | field declared =>
    obtain ⟨value, t, hvalue, hadd⟩ := bind_ok_iff.1 h
    obtain ⟨rfl, rfl⟩ := add_ok hadd
    exact .field hvalue
  | block head body =>
    unfold node at h
    cases hrepeats : head.control.repeats with
    | true =>
      simp only [hrepeats, if_true, get_bind] at h
      exact .repeated hrepeats h
    | false =>
      simp only [hrepeats, Bool.false_eq_true, if_false] at h
      obtain ⟨enters, r', henters, hrest⟩ := bind_ok_iff.1 h
      obtain rfl := entered_ok henters
      cases enters with
      | false =>
        obtain ⟨rfl, rfl⟩ := pure_ok_iff.1 hrest
        exact .skipped hrepeats henters
      | true =>
        obtain ⟨fields, t, hfields, hadd⟩ := bind_ok_iff.1 hrest
        obtain ⟨rfl, rfl⟩ := addAll_ok hadd
        exact .spliced hrepeats henters hfields

end Decoder

end BinarySchema
