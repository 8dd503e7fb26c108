import BinarySchema.Proofs.Decode.Accumulation

/-!
# Places of failures

A failure about schema and input names a field or a control block, and the position at which that began.
The position is never ahead of the source at the moment of the failure, nor before the beginning of the
decode, whatever the way to the failure: through arrays, spliced blocks, the iterations of a loop or the
names of a scope.

`PointsInto` says so of one failure, and `Locates` of all failures of a decoder. The results of a block
or of an iteration join the scope around them only after all of them are decoded, so that a name is
taken may be found long after its field was read; `Stands` keeps where such results are.
-/

namespace BinarySchema

/-- The field or control block that a failure names, and the position that it gives for it. -/
def Failure.place? : Failure → Option (String × Int)
  | .decode ⟨_, some label, some offset⟩ => some (label, offset)
  | .eval _ label offset => some (label, offset)
  | _ => none

def DecodeFault.isShortRead : DecodeFault → Bool
  | .shortRead .. => true
  | _ => false

theorem Source.Consumes.position_le {before after : Source} {bytes : List UInt8}
    (h : before.Consumes bytes after) : after.position ≤ max before.position before.size := by
  have htaken : bytes.length ≤ before.size - before.position := by
    rw [← before.length_rest, h.rest, List.length_append]
    omega
  have hposition := h.position
  omega

namespace Decoder

variable {α β : Type} {context : DecodeContext} {enter : List Node → Decoder Scope} {source : Source}
  {e : Failure} {r s t : Reading}

/-- That a decode which began at a source can have come to a reading. -/
def Reached (source : Source) (r : Reading) : Prop :=
  ∃ bytes, source.Consumes bytes r.source

theorem Reached.forward (h : Reached source r) (hmoved : Reached r.source s) : Reached source s := by
  obtain ⟨first, hfirst⟩ := h
  obtain ⟨second, hsecond⟩ := hmoved
  exact ⟨first ++ second, hfirst.trans hsecond⟩

theorem Reached.position_le (h : Reached source r) : source.position ≤ r.source.position := by
  obtain ⟨bytes, hconsumes⟩ := h
  rw [hconsumes.position]
  omega

theorem Reached.chunk (h : Reached source r) : r.source.chunk = source.chunk := by
  obtain ⟨bytes, hconsumes⟩ := h
  exact hconsumes.chunk

/-! ### Places of results -/

/-- That results between two readings begin at places between them. -/
structure Stands (before : Reading) (results : List Result) (after : Reading) : Prop where
  reached : Reached before.source after
  between : ∀ result ∈ results,
    before.source.position ≤ result.offset ∧ result.offset ≤ after.source.position

theorem Stands.single {result : Result} (hreached : Reached r.source s)
    (hoffset : result.offset = r.source.position) : Stands r [result] s where
  reached := hreached
  between := by
    have hposition := hreached.position_le
    intro other hother
    rw [List.mem_singleton.1 hother]
    omega

theorem Stands.append {left right : List Result} (hleft : Stands r left s)
    (hright : Stands s right t) : Stands r (left ++ right) t where
  reached := hleft.reached.forward hright.reached
  between := by
    have hbefore := hleft.reached.position_le
    have hbehind := hright.reached.position_le
    intro result hresult
    rcases List.mem_append.1 hresult with h | h
    · have hbetween := hleft.between result h
      omega
    · have hbetween := hright.between result h
      omega

theorem stands_accumulates (context : DecodeContext) :
    Accumulates context (fun _ => True) Stands where
  bodies _ _ _ := trivial
  nil r := ⟨⟨[], .refl r.source⟩, by simp⟩
  append := Stands.append
  rename name h := {
    reached := h.reached
    between := by
      intro renamed hrenamed
      obtain ⟨result, hresult, rfl⟩ := List.mem_map.1 hrenamed
      exact h.between result hresult }
  primitive _ hread := .single (primitive_consumes hread) rfl
  enum hfound hrun := by
    have hoffset := enum_ok hrun
    obtain ⟨raw, size, u, -, -, rfl⟩ := hoffset
    exact .single ((consumes_accumulates context).enum hfound hrun) rfl
  bitfield hfound hrun := by
    have hoffset := bitfield_ok hrun
    obtain ⟨raw, size, -, rfl⟩ := hoffset
    exact .single ((consumes_accumulates context).bitfield hfound hrun) rfl
  struct h := .single h.reached rfl
  text hread _ := .single ⟨_, (read_ok hread).2.1⟩ rfl
  items h := .single h.reached rfl

/-! ### Places of single failures -/

/-- That a failure is of a decode that began at a source, and names a place that the decode had come to.
A read that gets too few bytes is still at the place that it names. -/
structure PointsInto (source : Source) (e : Failure) (s : Reading) : Prop where
  reached : Reached source s
  place : e.isSchemaError = true → ∃ label offset, e.place? = some (label, offset) ∧
    source.position ≤ offset ∧ offset ≤ s.source.position
  shortRead {needed position available : Nat} {label : Option String} {offset : Option Int} :
    e = .decode ⟨.shortRead needed position available, label, offset⟩ →
      offset = some (s.source.position : Int) ∧ position = s.source.position ∧
        available = s.source.unread ∧ available < needed

namespace PointsInto

theorem behind (hreached : Reached source s) {fault : DecodeFault} (hfault : fault.isShortRead = false)
    (label : String) {offset : Int} (hfrom : source.position ≤ offset)
    (hto : offset ≤ s.source.position) :
    PointsInto source (.decode ⟨fault, some label, some offset⟩) s where
  reached := hreached
  place _ := ⟨label, offset, rfl, hfrom, hto⟩
  shortRead := by
    intro needed position available label offset he
    cases he
    cases hfault

/-- A failure that is found at a reading about a field that began at an earlier one. -/
theorem since (hreached : Reached source r) (hmoved : Reached r.source s) {fault : DecodeFault}
    (hfault : fault.isShortRead = false) (label : String) :
    PointsInto source (.decode ⟨fault, some label, some (r.source.position : Int)⟩) s :=
  behind (hreached.forward hmoved) hfault label (by exact_mod_cast hreached.position_le)
    (by exact_mod_cast hmoved.position_le)

theorem here (hreached : Reached source s) {fault : DecodeFault} (hfault : fault.isShortRead = false)
    (label : String) :
    PointsInto source (.decode ⟨fault, some label, some (s.source.position : Int)⟩) s :=
  since hreached ⟨[], .refl _⟩ hfault label

theorem limit (hreached : Reached source s) (he : e.isSchemaError = false) : PointsInto source e s where
  reached := hreached
  place herror := by
    rw [he] at herror
    cases herror
  shortRead := by
    intro needed position available label offset hshort
    rw [hshort] at he
    cases he

end PointsInto

/-- That a decoder which fails at a reading points into the source that the decode began at. -/
structure Locates (source : Source) (x : Decoder α) (r : Reading) : Prop where
  of_error {e : Failure} {s : Reading} : x r = .error e s → PointsInto source e s

namespace Locates

theorem pure (a : α) : Locates source (Pure.pure a : Decoder α) r where
  of_error h := by simp at h

theorem throw (h : PointsInto source e r) : Locates source (MonadExcept.throw e : Decoder α) r where
  of_error hthrow := by
    obtain ⟨rfl, rfl⟩ := throw_error_iff.1 hthrow
    exact h

theorem bind {x : Decoder α} {f : α → Decoder β} (hx : Locates source x r)
    (hf : ∀ a s, x r = .ok a s → Locates source (f a) s) : Locates source (x >>= f) r where
  of_error h := by
    rcases bind_error_iff.1 h with hfirst | ⟨a, s, hfirst, hrest⟩
    · exact hx.of_error hfirst
    · exact (hf a s hfirst).of_error hrest

theorem bind_pure {x : Decoder α} {f : α → β} (hx : Locates source x r) :
    Locates source (x >>= fun a => Pure.pure (f a)) r :=
  hx.bind fun _ _ _ => pure _

theorem bind_position {f : Nat → Decoder α} (hf : Locates source (f r.source.position) r) :
    Locates source (position >>= f) r where
  of_error h := hf.of_error h

theorem ite {c : Prop} [Decidable c] {x y : Decoder α} (hx : c → Locates source x r)
    (hy : ¬ c → Locates source y r) : Locates source (if c then x else y) r := by
  split
  · exact hx ‹c›
  · exact hy ‹¬ c›

theorem ofCodec (hreached : Reached source r) (outcome : Except Text.CodecFault α) :
    Locates source (ofCodec outcome) r where
  of_error h := by
    obtain ⟨fault, -, rfl, rfl⟩ := ofCodec_error_iff.1 h
    exact .limit hreached rfl

theorem evaluate (hreached : Reached source r) (scopes : List Scope) (label : String)
    (evaluator : EvalContext → Except EvalError α) :
    Locates source (evaluate context scopes label evaluator) r where
  of_error h := by
    unfold Decoder.evaluate at h
    rw [get_bind] at h
    cases hvalue : evaluator ⟨r.source.position, r.source.size, scopes, context.types⟩ with
    | ok value =>
      simp [hvalue] at h
    | error error =>
      rw [hvalue] at h
      cases h
      refine ⟨hreached, fun _ => ⟨label, r.source.position, rfl, ?_, Int.le_refl _⟩, nofun⟩
      exact_mod_cast hreached.position_le

theorem entered (hreached : Reached source r) (head : BlockHead) (scopes : List Scope) :
    Locates source (entered context head scopes) r :=
  bind_pure (evaluate hreached ..)

theorem add {scope : Scope} {result : Result} (hreached : Reached source r)
    (hfrom : source.position ≤ result.offset) (hto : result.offset ≤ r.source.position) :
    Locates source (add scope result) r := by
  unfold Decoder.add
  cases hadd : scope.add result with
  | ok added => exact pure added
  | error duplicate =>
    obtain ⟨-, rfl⟩ := Scope.add_eq_error_iff.1 hadd
    exact throw (.behind hreached rfl _ hfrom hto)

theorem addAll {results : List Result} (hreached : Reached source r)
    (hplaces : ∀ result ∈ results,
      source.position ≤ result.offset ∧ result.offset ≤ r.source.position) (scope : Scope) :
    Locates source (addAll scope results) r := by
  induction results generalizing scope with
  | nil => exact pure scope
  | cons result rest ih =>
    have hplace := hplaces result List.mem_cons_self
    refine bind (add hreached hplace.1 hplace.2) fun added s hadd => ?_
    obtain ⟨-, rfl⟩ := add_ok hadd
    exact ih (fun other hother => hplaces other (List.mem_cons_of_mem _ hother)) added

/-! ### Single values -/

section

variable (hchunk : source.chunk = none)

include hchunk

theorem read (hreached : Reached source r) (count : Nat) (label : String) :
    Locates source (read count label) r where
  of_error {e s} h := by
    have hwhole : r.source.chunk = none := hreached.chunk.trans hchunk
    rw [read_run] at h
    by_cases hshort : r.source.unread < count
    · rw [Source.read_short hshort] at h
      have hfailed : EStateM.Result.error
          (Failure.shortRead count r.source.position r.source.unread label) r = .error e s := h
      obtain ⟨rfl, rfl⟩ := EStateM.Result.error.inj hfailed
      unfold Failure.shortRead
      split
      · refine ⟨hreached, fun _ => ⟨label, r.source.position, rfl, ?_, Int.le_refl _⟩, ?_⟩
        · exact_mod_cast hreached.position_le
        · intro needed position available label offset he
          cases he
          exact ⟨rfl, rfl, rfl, hshort⟩
      · exact .limit hreached rfl
    · rw [Source.read_enough hwhole (Nat.not_lt.1 hshort)] at h
      cases h

theorem readUntilNul (hreached : Reached source r) (label : String) :
    Locates source (readUntilNul label) r where
  of_error h := by
    have hwhole : r.source.chunk = none := hreached.chunk.trans hchunk
    rw [readUntilNul_run] at h
    by_cases hnul : (r.source.rest.takeWhile (· != 0)).length < r.source.unread
    · rw [Source.readUntilNul_ended hwhole hnul] at h
      cases h
    · rw [Source.readUntilNul_unended hwhole hnul] at h
      cases h
      exact .since hreached ⟨_, r.source.skip_consumes _⟩ rfl label

theorem primitive (hreached : Reached source r) (type : Primitive) (name : String) :
    Locates source (primitive context type name) r := by
  unfold Decoder.primitive
  refine ite (fun _ => ?_) fun _ => ?_
  · refine bind (readUntilNul hchunk hreached name) fun bytes s hread => bind_pure ?_
    exact ofCodec (hreached.forward ⟨_, (readUntilNul_ok hread).2.1⟩) _
  · refine bind (read hchunk hreached type.size name) fun bytes s hread => bind_pure ?_
    exact ofCodec (hreached.forward ⟨_, (read_ok hread).2.1⟩) _

theorem baseInteger (hreached : Reached source r) (base : Primitive) (name : String) :
    Locates source (baseInteger context base name) r := by
  unfold Decoder.baseInteger
  refine bind_position (bind (primitive hchunk hreached base name) ?_)
  intro (value, size) s hread
  dsimp only
  split
  · exact pure _
  · exact throw (.since hreached (primitive_consumes hread) rfl name)

theorem enum (hreached : Reached source r) (type : EnumDef) (name : String) (comment : Option String) :
    Locates source (enum context type name comment) r := by
  rw [enum_eq]
  refine bind_position (bind (baseInteger hchunk hreached type.base name) ?_)
  intro (raw, size) s hread
  obtain ⟨value, hvalue, -⟩ := baseInteger_ok hread
  refine bind_pure (ite (fun _ => ite (fun _ => ?_) fun _ => ?_) fun _ => pure _)
  · exact throw (.since hreached (primitive_consumes hvalue) rfl name)
  · exact ⟨nofun⟩

omit hchunk in
/-- The members of a bitfield stand at its own place. -/
theorem bitfieldMembers {offset : Nat} (hreached : Reached source r)
    (hfrom : source.position ≤ offset) (hto : offset ≤ r.source.position) (base : Primitive)
    (size : Nat) (members : List BitfieldMember) (bits : Int) (scope : Scope) :
    Locates source (bitfieldMembers base offset size members bits scope) r := by
  have hstart : (source.position : Int) ≤ offset := by exact_mod_cast hfrom
  have hstop : (offset : Int) ≤ r.source.position := by exact_mod_cast hto
  induction members generalizing bits scope with
  | nil => exact pure scope
  | cons member rest ih =>
    unfold Decoder.bitfieldMembers
    refine ite (fun _ => throw (.limit hreached rfl)) fun _ => ?_
    refine ite (fun _ => throw (.limit hreached rfl)) fun _ => ?_
    refine bind (add hreached hstart hstop) fun added s hadd => ?_
    obtain ⟨-, rfl⟩ := add_ok hadd
    exact ih _ added

theorem bitfield (hreached : Reached source r) (type : BitfieldDef) (name : String)
    (comment : Option String) : Locates source (bitfield context type name comment) r := by
  unfold Decoder.bitfield
  refine bind_position (bind (baseInteger hchunk hreached type.base name) ?_)
  intro (raw, size) s hread
  obtain ⟨value, hvalue, -⟩ := baseInteger_ok hread
  have hmoved : Reached r.source s := primitive_consumes hvalue
  exact bind_pure (bitfieldMembers (hreached.forward hmoved) hreached.position_le hmoved.position_le
    type.base size type.members raw [])

end

/-- That the failures of a decoder of bodies point into the source in the bodies of declared structs. -/
def Enters (context : DecodeContext) (source : Source) (enter : List Node → Decoder Scope) : Prop :=
  ∀ type : StructDef, .struct type ∈ context.types.definitions →
    ∀ r, Reached source r → Locates source (enter type.body) r

section

variable (hchunk : source.chunk = none) (henter : Enters context source enter)

include hchunk henter

theorem value (hreached : Reached source r) (type : TypeRef) (name : String)
    (comment : Option String) : Locates source (value context enter type name comment) r := by
  have hmissing (fault : DecodeFault) (hfault : fault.isShortRead = false) :
      Locates source (fail fault name r.source.position : Decoder Result) r :=
    throw (.here hreached hfault name)
  unfold Decoder.value
  refine bind_position ?_
  cases type with
  | primitive type => exact bind_pure (primitive hchunk hreached type name)
  | named kind typeName =>
    cases kind with
    | primitive => exact hmissing _ rfl
    | array => exact hmissing _ rfl
    | struct =>
      dsimp only
      split
      · rename_i type hfound
        exact bind_pure (henter type (TypeTable.mem_of_find? hfound) r hreached)
      · exact hmissing _ rfl
    | enum =>
      dsimp only
      split
      · exact enum hchunk hreached ..
      · exact hmissing _ rfl
    | bitfield =>
      dsimp only
      split
      · exact bitfield hchunk hreached ..
      · exact hmissing _ rfl

omit hchunk henter in
theorem elements {element : String → Decoder Result} (hreached : Reached source r)
    (hforward : ∀ name r result s, element name r = .ok result s → Reached r.source s)
    (helement : ∀ name r, Reached source r → Locates source (element name) r) (name : String)
    (count index : Nat) (done : List Result) :
    Locates source (elements element name count index done) r := by
  induction count generalizing index done r with
  | zero => exact pure _
  | succ count ih =>
    refine bind (helement _ r hreached) fun result s hrun => ?_
    exact ih (hreached.forward (hforward _ _ _ _ hrun)) _ _

variable (hstands : Accumulates.Enters context Stands enter)

include hstands

theorem field (hreached : Reached source r) (declared : Field) (scopes : List Scope) :
    Locates source (field context enter declared scopes) r := by
  unfold Decoder.field
  cases declared.length with
  | none => exact value hchunk henter hreached ..
  | some length =>
    refine bind_position (bind (evaluate hreached ..) fun count s hcount => ?_)
    obtain ⟨rfl, -⟩ := evaluate_ok hcount
    refine ite (fun _ => bind (read hchunk hreached ..) fun bytes t hread => bind_pure ?_)
      fun _ => bind_pure ?_
    · exact ofCodec (hreached.forward ⟨_, (read_ok hread).2.1⟩) _
    refine elements hreached ?_ (fun _ _ hthere => value hchunk henter hthere ..) _ _ _ _
    intro name r result s hrun
    exact ((stands_accumulates context).value hstands trivial hrun).reached

end

/-! ### Bodies -/

theorem loop {head : BlockHead} {body : List Scope → Decoder Scope} (hreached : Reached source r)
    (hbody : ∀ scopes r, Reached source r → Locates source (body scopes) r)
    (hfields : ∀ scopes r fields s, body scopes r = .ok fields s → Stands r fields s)
    (outer : List Scope) (steps iteration : Nat) (visible : List Scope) (scope : Scope) :
    Locates source (loop context head body outer steps iteration visible scope) r := by
  induction steps generalizing iteration visible scope r with
  | zero => exact bind_position (throw (.here hreached rfl _))
  | succ steps ih =>
    rw [loop_succ]
    refine bind (entered hreached ..) fun enters s henters => ?_
    obtain rfl := entered_ok henters
    refine ite (fun _ => bind_position (bind ?_ fun _ s hlimit => ?_)) fun _ => pure _
    · unfold checkLimit
      split
      · exact ite (fun _ => throw (.here hreached rfl _)) fun _ => pure _
      · exact pure _
    obtain rfl := checkLimit_ok hlimit
    refine bind (hbody _ s hreached) fun fields t hrun => ?_
    have hmoved := hfields _ _ _ _ hrun
    have hafter := hreached.forward hmoved.reached
    have hstart := hreached.position_le
    refine bind (addAll hafter ?_ scope) fun joined u hjoins => ?_
    · -- A field of the iteration stands where it was read, under whatever name it joins the scope.
      intro renamed hrenamed
      obtain ⟨result, hresult, rfl⟩ := List.mem_map.1 hrenamed
      have hbetween := hmoved.between result hresult
      show source.position ≤ result.offset ∧ result.offset ≤ t.source.position
      omega
    obtain ⟨-, rfl⟩ := addAll_ok hjoins
    refine bind ?_ fun _ v hprogress => ?_
    · unfold checkProgress
      exact bind_position (ite (fun _ => throw (.since hreached hmoved.reached rfl _)) fun _ => pure _)
    · obtain ⟨rfl, -⟩ := checkProgress_ok hprogress
      exact ih hafter _ _ _

mutual

theorem nodes (hchunk : source.chunk = none) (henter : Enters context source enter)
    (hstands : Accumulates.Enters context Stands enter) :
    ∀ (body : List Node) (outer : List Scope) (scope : Scope) {r : Reading}, Reached source r →
      Locates source (nodes context enter body outer scope) r
  | [], _, scope, _, _ => pure scope
  | head :: rest, outer, scope, _, hreached => by
    refine bind (node hchunk henter hstands head outer scope hreached) fun added s hrun => ?_
    obtain ⟨results, -, hadds⟩ :=
      (stands_accumulates context).node hstands head (fun _ _ => trivial) hrun
    exact nodes hchunk henter hstands rest outer added (hreached.forward hadds.reached)
termination_by structural body => body

theorem node (hchunk : source.chunk = none) (henter : Enters context source enter)
    (hstands : Accumulates.Enters context Stands enter) :
    ∀ (tree : Node) (outer : List Scope) (scope : Scope) {r : Reading}, Reached source r →
      Locates source (node context enter tree outer scope) r
  | .field declared, outer, scope, _, hreached => by
    refine bind (field hchunk henter hstands hreached ..) fun result s hrun => ?_
    have hplace := (stands_accumulates context).field hstands trivial hrun
    have hbetween := hplace.between result List.mem_cons_self
    have hstart := hreached.position_le
    exact add (hreached.forward hplace.reached) (by omega) hbetween.2
  | .block head body, outer, scope, r, hreached => by
    have hbody (scopes : List Scope) (r : Reading) (hthere : Reached source r) :
        Locates source (Decoder.nodes context enter body scopes []) r :=
      nodes hchunk henter hstands body scopes [] hthere
    have hfields (scopes : List Scope) (r : Reading) (fields : Scope) (s : Reading)
        (hrun : Decoder.nodes context enter body scopes [] r = .ok fields s) : Stands r fields s := by
      obtain ⟨added, rfl, hadded⟩ :=
        (stands_accumulates context).nodes hstands body (fun _ _ => trivial) hrun
      exact hadded
    refine ite (fun _ => ?_) fun _ => ?_
    · refine bind ⟨nofun⟩ fun reading s hget => ?_
      cases hget
      exact loop hreached hbody hfields ..
    · refine bind (entered hreached ..) fun enters s henters => ?_
      obtain rfl := entered_ok henters
      refine ite (fun _ => ?_) fun _ => pure _
      refine bind (hbody _ _ hreached) fun fields t hrun => ?_
      have hmoved := hfields _ _ _ _ hrun
      have hstart := hreached.position_le
      refine addAll (hreached.forward hmoved.reached) (fun result hresult => ?_) scope
      have hbetween := hmoved.between result hresult
      omega
termination_by structural tree => tree

end

theorem structBody (hchunk : source.chunk = none) (levels : Nat) :
    Enters context source (structBody context levels) := by
  induction levels with
  | zero => exact fun _ _ _ hreached => throw (.limit hreached rfl)
  | succ levels ih =>
    intro type _ r hreached
    exact nodes hchunk ih ((stands_accumulates context).structBody levels) type.body [] [] hreached

end Locates

end Decoder

/-- A decode by a schema with a root fails with the name of a field or a block, and with a place between
its start and the position that it had come to, which is in the input or at the start. A read that gets
too few bytes names the place at which it left the source. -/
theorem decode_failure_place {schema : Schema} {options : Options} {bytes : List UInt8} {start : Nat}
    {failure : Failure} {reading : Reading} (hroot : schema.root ≠ none)
    (h : schema.decode options (.ofBytes bytes start) = .error failure reading)
    (herror : failure.isSchemaError = true) :
    (∃ label offset, failure.place? = some (label, offset) ∧
      start ≤ offset ∧ offset ≤ reading.source.position) ∧
    reading.source.position ≤ max start bytes.length ∧
    ∀ needed position available label offset,
      failure = .decode ⟨.shortRead needed position available, label, offset⟩ →
        offset = some (reading.source.position : Int) ∧ position = reading.source.position ∧
          available = bytes.length - position ∧ available < needed := by
  unfold Schema.decode at h
  cases hbody : schema.root with
  | none => exact absurd hbody hroot
  | some body =>
    rw [hbody] at h
    dsimp only at h
    split at h
    · cases h
    · rename_i hrun
      cases h
      have hpoints : Decoder.PointsInto (.ofBytes bytes start) failure reading :=
        (Decoder.Locates.nodes rfl (Decoder.Locates.structBody rfl _)
          ((Decoder.stands_accumulates _).structBody _) body [] [] ⟨[], .refl _⟩).of_error hrun
      obtain ⟨taken, hconsumes⟩ := hpoints.reached
      refine ⟨hpoints.place herror, hconsumes.position_le, ?_⟩
      intro needed position available label offset hshort
      obtain ⟨hoffset, hposition, havailable, hneeded⟩ := hpoints.shortRead hshort
      refine ⟨hoffset, hposition, ?_, hneeded⟩
      rw [havailable, Source.unread, hconsumes.size, hposition]
      rfl

/-- A number, and a block that reads two more, of which the second has the name of the first. -/
def Schema.respliced : Schema where
  types := { frozen := true }
  root := some [
    .field { name := "n", type := .primitive .ushort, pos := ⟨1, 10⟩ },
    .block ⟨⟨false, false⟩, ⟨[⟨.name, "n", ⟨1, 26⟩⟩, ⟨.operator, "=", ⟨1, 28⟩⟩,
        ⟨.number 1, "1", ⟨1, 30⟩⟩], ⟨1, 26⟩⟩, ⟨1, 22⟩⟩ [
      .field { name := "m", type := .primitive .byte, pos := ⟨1, 35⟩ },
      .field { name := "n", type := .primitive .byte, pos := ⟨1, 45⟩ },
      .field { name := "p", type := .primitive .byte, pos := ⟨1, 55⟩ }]]

/-- The name is found to be taken when the block is spliced, one byte behind its field. -/
theorem decode_failure_place_respliced :
    ∃ reading,
      Schema.respliced.decode {} (.ofBytes [9, 1, 0, 7, 8, 6] 1)
        = .error (.decode ⟨.duplicateName "n", some "n", some 4⟩) reading ∧
      Schema.respliced.root ≠ none ∧
      (∃ label offset, Failure.place? (.decode ⟨.duplicateName "n", some "n", some 4⟩)
          = some (label, offset) ∧ ((1 : Nat) : Int) ≤ offset ∧ offset ≤ reading.source.position) ∧
      reading.source.position ≤ 6 := by
  have hrun : Schema.respliced.decode {} (.ofBytes [9, 1, 0, 7, 8, 6] 1)
      = .error (.decode ⟨.duplicateName "n", some "n", some 4⟩) ⟨.ofBytes [9, 1, 0, 7, 8, 6] 6, []⟩ :=
    rfl
  have hroot : Schema.respliced.root ≠ none := nofun
  obtain ⟨hplace, hposition, -⟩ := decode_failure_place hroot hrun rfl
  exact ⟨_, hrun, hroot, hplace, hposition⟩

end BinarySchema
