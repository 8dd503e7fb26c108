import BinarySchema.Proofs.Decode.Accumulation
import BinarySchema.Proofs.Decode.Traces

/-!
# Sources that hand out few bytes at a time

A read that gets fewer bytes than it requests fails, although it has taken them, and nothing of a decode
goes on behind a failure. So a decode from a source that hands out a number of bytes at a time runs as the
one from memory does up to the first request for more, and fails there. Strings are read byte by byte and
never meet this limit.

`Serves` says so of a decoder and its requests, with one rule for each way of building decoders. Of the
requests only those of a known size count, which are for primitives that are no strings, and for texts.
-/

namespace BinarySchema

/-- A read of a known number of bytes. -/
structure Request where
  count : Nat
  position : Nat
  field : String
  deriving DecidableEq

namespace Request

/-- The refusal of a request for which only so many bytes are handed out. -/
def refusal (request : Request) (available : Nat) : Failure :=
  .shortRead request.count request.position available request.field

def read (count : Nat) (field : String) : Trace Request := fun reading =>
  [⟨count, reading.source.position, field⟩]

def primitive (type : Primitive) (name : String) : Trace Request :=
  if type = .string then .silent else read type.size name

def leaves : Trace.Leaves Request where
  primitive := primitive
  bitfield type := primitive type.base
  text := read

end Request

/-- What a decode of a source requests, in order. -/
def Schema.requests (schema : Schema) (options : Options) (source : Source) : List Request :=
  schema.trace options Request.leaves source

namespace Source

variable {source : Source} {chunk count : Nat}

/-- The source that hands out no more than a number of bytes at a time. -/
def inChunks (source : Source) (chunk : Nat) : Source := { source with chunk := some chunk }

@[simp] theorem chunk_inChunks (source : Source) (chunk : Nat) :
    (source.inChunks chunk).chunk = some chunk := rfl

@[simp] theorem unread_inChunks (source : Source) (chunk : Nat) :
    (source.inChunks chunk).unread = source.unread := rfl

@[simp] theorem rest_inChunks (source : Source) (chunk : Nat) :
    (source.inChunks chunk).rest = source.rest := rfl

@[simp] theorem skip_inChunks (source : Source) (chunk count : Nat) :
    (source.inChunks chunk).skip count = (source.skip count).inChunks chunk := rfl

theorem read_inChunks (hmemory : source.chunk = none) (hfits : count ≤ chunk) :
    (source.inChunks chunk).read count
      = ((source.read count).1, (source.read count).2.inChunks chunk) := by
  simp only [read, unread_inChunks, chunk_inChunks, rest_inChunks, skip_inChunks, hmemory,
    Option.getD_some, Option.getD_none, Nat.min_eq_left hfits, Nat.min_self, Nat.lt_irrefl, if_false]
  split <;> rfl

theorem read_inChunks_cut (henough : count ≤ source.unread) (hlarge : chunk < count) :
    (source.inChunks chunk).read count = (.error chunk, (source.skip chunk).inChunks chunk) := by
  simp only [read, unread_inChunks, chunk_inChunks, rest_inChunks, skip_inChunks, Option.getD_some,
    Nat.min_eq_right hlarge.le, if_neg (Nat.not_lt.2 henough), if_pos hlarge]

theorem readUntilNul_inChunks (hmemory : source.chunk = none) (hchunk : 1 ≤ chunk) :
    (source.inChunks chunk).readUntilNul
      = (source.readUntilNul.1, source.readUntilNul.2.inChunks chunk) := by
  have hany : (source.inChunks chunk).chunk ≠ some 0 := fun h =>
    Nat.ne_of_gt hchunk (Option.some.inj h)
  have hall : source.chunk ≠ some 0 := by
    rw [hmemory]
    nofun
  unfold readUntilNul
  dsimp only
  rw [if_neg hany, if_neg hall]
  by_cases hended : (source.rest.takeWhile (· != 0)).length < source.unread
  · rw [if_pos hended]
    exact if_pos hended
  · rw [if_neg hended]
    exact if_neg hended

end Source

/-- The reading of a source that hands out no more than a number of bytes at a time. -/
def Reading.inChunks (reading : Reading) (chunk : Nat) : Reading :=
  { reading with source := reading.source.inChunks chunk }

namespace Decoder

variable {α β : Type} {chunk : Nat} {context : DecodeContext} {enter : List Node → Decoder Scope}
  {asking : List Node → Trace Request}

@[simp] theorem source_inChunks (r : Reading) (chunk : Nat) :
    (r.inChunks chunk).source = r.source.inChunks chunk := rfl

/-- What a run comes to, from a source that hands out no more than a number of bytes at a time. -/
def inChunks (chunk : Nat) : EStateM.Result Failure Reading α → EStateM.Result Failure Reading α
  | .ok a reading => .ok a (reading.inChunks chunk)
  | .error failure reading => .error failure (reading.inChunks chunk)

theorem eq_ok_of_inChunks {run : EStateM.Result Failure Reading α} {a : α} {s : Reading}
    (h : inChunks chunk run = .ok a s) : ∃ t, run = .ok a t := by
  cases run with
  | ok b t =>
    cases h
    exact ⟨t, rfl⟩
  | error failure t => cases h

/-- That a decoder is refused a request in chunks: for the chunk that it got, or as it is in memory. -/
def Refuses (chunk : Nat) (x : Decoder α) (request : Request) (r : Reading) : Prop :=
  ∃ available s, x (r.inChunks chunk) = .error (request.refusal available) s ∧
    (available = chunk ∧ request.count ≤ r.source.size ∨
      ∃ t, x r = .error (request.refusal available) t)

/-- That a decoder runs in chunks as it does in memory, up to the first request that is too large. -/
structure Serves (chunk : Nat) (x : Decoder α) (asks : Trace Request) : Prop where
  keeps {r s : Reading} {a : α} : x r = .ok a s →
    s.source.chunk = r.source.chunk ∧ s.source.size = r.source.size
  alike {r : Reading} : r.source.chunk = none → (asks r).find? (chunk < ·.count) = none →
    x (r.inChunks chunk) = inChunks chunk (x r)
  refuses {r : Reading} {request : Request} : r.source.chunk = none →
    (asks r).find? (chunk < ·.count) = some request → Refuses chunk x request r

namespace Serves

/-! ### Sequencing -/

theorem silent {x : Decoder α} (hkeeps : ∀ {r s : Reading} {a : α}, x r = .ok a s →
      s.source.chunk = r.source.chunk ∧ s.source.size = r.source.size)
    (halike : ∀ r : Reading, r.source.chunk = none → x (r.inChunks chunk) = inChunks chunk (x r)) :
    Serves chunk x .silent where
  keeps := hkeeps
  alike {r} hr _ := halike r hr
  refuses _ h := nomatch h

theorem pure (a : α) : Serves chunk (Pure.pure a : Decoder α) .silent := by
  refine silent (fun hrun => ?_) fun _ _ => rfl
  obtain ⟨rfl, rfl⟩ := pure_ok_iff.1 hrun
  exact ⟨rfl, rfl⟩

theorem throw (e : Failure) : Serves chunk (MonadExcept.throw e : Decoder α) .silent :=
  silent (fun hrun => (throw_ok_iff.1 hrun).elim) fun _ _ => rfl

theorem position : Serves chunk position .silent := by
  refine silent (fun hrun => ?_) fun _ _ => rfl
  cases hrun
  exact ⟨rfl, rfl⟩

theorem bind {x : Decoder α} {f : α → Decoder β} {first : Trace Request} {rest : α → Trace Request}
    (hx : Serves chunk x first) (hf : ∀ a, Serves chunk (f a) (rest a)) :
    Serves chunk (x >>= f) (first.andThen x rest) where
  keeps hrun := by
    obtain ⟨a, s, hfirst, hrest⟩ := bind_ok_iff.1 hrun
    obtain ⟨hchunk, hsize⟩ := hx.keeps hfirst
    obtain ⟨hchunk', hsize'⟩ := (hf a).keeps hrest
    exact ⟨hchunk'.trans hchunk, hsize'.trans hsize⟩
  alike {r} hr hfit := by
    obtain ⟨hfirst, hrest⟩ := Option.or_eq_none_iff.1 (List.find?_append ▸ hfit)
    have hsame := hx.alike hr hfirst
    unfold Trace.behind at hrest
    cases hrun : x r with
    | ok a s =>
      rw [hrun] at hsame hrest
      rw [bind_of_ok hsame, bind_of_ok hrun]
      exact (hf a).alike ((hx.keeps hrun).1.trans hr) hrest
    | error e s =>
      rw [hrun] at hsame
      rw [bind_of_error hsame, bind_of_error hrun]
      rfl
  refuses {r request} hr hlarge := by
    unfold Trace.andThen at hlarge
    rw [List.find?_append] at hlarge
    cases hfirst : (first r).find? (chunk < ·.count) with
    | some early =>
      -- The first decoder is refused, and what is behind it does not matter.
      rw [hfirst, Option.some_or] at hlarge
      obtain rfl := Option.some.inj hlarge
      obtain ⟨available, s, hfails, hwhy⟩ := hx.refuses hr hfirst
      exact ⟨available, s, bind_of_error hfails, hwhy.imp_right fun ⟨t, ht⟩ => ⟨t, bind_of_error ht⟩⟩
    | none =>
      rw [hfirst, Option.none_or] at hlarge
      have hsame := hx.alike hr hfirst
      unfold Trace.behind at hlarge
      cases hrun : x r with
      | error e s =>
        rw [hrun] at hlarge
        cases hlarge
      | ok a s =>
        rw [hrun] at hsame hlarge
        obtain ⟨hchunk, hsize⟩ := hx.keeps hrun
        obtain ⟨available, t, hfails, hwhy⟩ := (hf a).refuses (hchunk.trans hr) hlarge
        refine ⟨available, t, (bind_of_ok hsame).trans hfails, ?_⟩
        rw [bind_of_ok hrun, ← hsize]
        exact hwhy

/-- A decoder that requests nothing goes in front. -/
theorem behind {x : Decoder α} {f : α → Decoder β} {rest : α → Trace Request}
    (hx : Serves chunk x .silent) (hf : ∀ a, Serves chunk (f a) (rest a)) :
    Serves chunk (x >>= f) (.behind x rest) :=
  hx.bind hf

theorem bind_silent {x : Decoder α} {f : α → Decoder β} {first : Trace Request}
    (hx : Serves chunk x first) (hf : ∀ a, Serves chunk (f a) .silent) :
    Serves chunk (x >>= f) first := by
  rw [← first.andThen_silent x]
  exact hx.bind hf

theorem position_bind {f : Nat → Decoder α} {asks : Trace Request} (hf : ∀ n, Serves chunk (f n) asks) :
    Serves chunk (Decoder.position >>= f) asks :=
  position.behind hf

theorem get_bind {f : Reading → Decoder α} {rest : Reading → Trace Request}
    (hf : ∀ r, Serves chunk (f r) (rest r)) (hsame : ∀ r : Reading, f (r.inChunks chunk) = f r) :
    Serves chunk (get >>= f) (.behind get rest) where
  keeps {r _ _} hrun := (hf r).keeps hrun
  alike {r} hr hfit := (congrFun (hsame r) _).trans ((hf r).alike hr hfit)
  refuses {r _} hr hlarge := by
    obtain ⟨available, s, hfails, hwhy⟩ := (hf r).refuses hr hlarge
    exact ⟨available, s, (congrFun (hsame r) _).trans hfails, hwhy⟩

theorem refused {e : Failure} {f : β → Decoder α} :
    Serves chunk (MonadExcept.throw e >>= f) .silent :=
  throw e

theorem ite {c : Prop} [Decidable c] {x y : Decoder α} {asks : Trace Request} (hthen : Serves chunk x asks)
    (helse : Serves chunk y asks) : Serves chunk (if c then x else y) asks := by
  split
  · exact hthen
  · exact helse

/-! ### Reading and evaluating -/

theorem read (count : Nat) (label : String) :
    Serves chunk (read count label) (Request.read count label) where
  keeps hrun := by
    obtain ⟨-, hconsumes, -⟩ := read_ok hrun
    exact ⟨hconsumes.chunk, hconsumes.size⟩
  alike {r} hr hfit := by
    have hcount : count ≤ chunk := by simpa [Request.read] using hfit
    rw [read_run, read_run, source_inChunks, Source.read_inChunks hr hcount]
    obtain ⟨got, next⟩ := r.source.read count
    cases got <;> rfl
  refuses {r request} hr hlarge := by
    obtain ⟨hcount, rfl⟩ : chunk < count ∧ ⟨count, r.source.position, label⟩ = request := by
      simpa [Request.read, List.find?_cons_eq_some] using hlarge
    unfold Refuses
    simp only [read_run, source_inChunks]
    by_cases hshort : r.source.unread < count
    · have hchunks : (r.source.inChunks chunk).unread < count := hshort
      rw [Source.read_short hshort, Source.read_short hchunks]
      exact ⟨_, _, rfl, .inr ⟨_, rfl⟩⟩
    · have henough := Nat.not_lt.1 hshort
      rw [Source.read_inChunks_cut henough hcount]
      exact ⟨_, _, rfl, .inl ⟨rfl, henough.trans (Nat.sub_le _ _)⟩⟩

theorem readUntilNul (hchunk : 1 ≤ chunk) (label : String) :
    Serves chunk (readUntilNul label) .silent := by
  refine silent (fun hrun => ?_) fun r hr => ?_
  · obtain ⟨-, hconsumes, -⟩ := readUntilNul_ok hrun
    exact ⟨hconsumes.chunk, hconsumes.size⟩
  · rw [readUntilNul_run, readUntilNul_run, source_inChunks, Source.readUntilNul_inChunks hr hchunk]
    obtain ⟨got, next⟩ := r.source.readUntilNul
    cases got <;> rfl

theorem evaluate (scopes : List Scope) (label : String) (evaluator : EvalContext → Except EvalError α) :
    Serves chunk (evaluate context scopes label evaluator) .silent := by
  refine silent (fun hrun => ?_) fun r _ => ?_
  · obtain ⟨rfl, -⟩ := evaluate_ok hrun
    exact ⟨rfl, rfl⟩
  · -- The expression sees the position and the size, and these are the same.
    cases hvalue : evaluator ⟨r.source.position, r.source.size, scopes, context.types⟩ with
    | ok value =>
      rw [evaluate_of_ok hvalue]
      exact evaluate_of_ok hvalue
    | error error =>
      rw [evaluate_of_error hvalue]
      exact evaluate_of_error hvalue

theorem entered (head : BlockHead) (scopes : List Scope) :
    Serves chunk (entered context head scopes) .silent :=
  (evaluate scopes head.label _).bind_silent fun _ => pure _

theorem ofCodec (outcome : Except Text.CodecFault α) : Serves chunk (ofCodec outcome) .silent := by
  cases outcome with
  | ok value => exact pure value
  | error fault => exact throw _

theorem warn (unlisted : UnlistedValue) : Serves chunk (warn unlisted) .silent := by
  refine silent (fun hrun => ?_) fun _ _ => rfl
  cases hrun
  exact ⟨rfl, rfl⟩

theorem add (scope : Scope) (result : Result) : Serves chunk (add scope result) .silent := by
  unfold Decoder.add
  cases scope.add result with
  | ok added => exact pure added
  | error duplicate => exact throw _

theorem addAll (scope : Scope) (results : List Result) :
    Serves chunk (addAll scope results) .silent := by
  induction results generalizing scope with
  | nil => exact pure scope
  | cons result rest ih => exact (add scope result).bind_silent fun added => ih added

/-! ### Single values -/

theorem primitive (hchunk : 1 ≤ chunk) (type : Primitive) (name : String) :
    Serves chunk (primitive context type name) (Request.primitive type name) := by
  unfold Decoder.primitive Request.primitive
  split
  · exact (readUntilNul hchunk name).bind_silent fun _ => (ofCodec _).bind_silent fun _ => pure _
  · exact (read type.size name).bind_silent fun _ => (ofCodec _).bind_silent fun _ => pure _

theorem baseInteger (hchunk : 1 ≤ chunk) (base : Primitive) (name : String) :
    Serves chunk (baseInteger context base name) (Request.primitive base name) := by
  refine position_bind fun offset => (primitive hchunk base name).bind_silent ?_
  rintro ⟨value, size⟩
  dsimp only
  cases value.baseInteger? with
  | some n => exact pure _
  | none => exact throw _

theorem checkListed (type : EnumDef) (name : String) (raw : Int) (offset : Nat) :
    Serves chunk (checkListed context type name raw offset) .silent :=
  ite (ite (throw _) (warn _)) (pure _)

theorem enum (hchunk : 1 ≤ chunk) (type : EnumDef) (name : String) (comment : Option String) :
    Serves chunk (enum context type name comment) (Request.primitive type.base name) := by
  rw [enum_eq]
  refine position_bind fun offset => (baseInteger hchunk type.base name).bind_silent ?_
  rintro ⟨raw, size⟩
  exact (checkListed type name raw offset).bind_silent fun _ => pure _

theorem bitfieldMembers (base : Primitive) (offset size : Nat) (members : List BitfieldMember)
    (bits : Int) (scope : Scope) :
    Serves chunk (bitfieldMembers base offset size members bits scope) .silent := by
  induction members generalizing bits scope with
  | nil => exact pure scope
  | cons member rest ih =>
    refine ite refused (ite refused ?_)
    exact (add scope _).bind_silent fun added => ih _ added

theorem bitfield (hchunk : 1 ≤ chunk) (type : BitfieldDef) (name : String)
    (comment : Option String) :
    Serves chunk (bitfield context type name comment) (Request.primitive type.base name) := by
  refine position_bind fun offset => (baseInteger hchunk type.base name).bind_silent ?_
  rintro ⟨raw, size⟩
  exact (bitfieldMembers _ offset size _ raw []).bind_silent fun _ => pure _

theorem value (hchunk : 1 ≤ chunk) (henter : ∀ body, Serves chunk (enter body) (asking body))
    (type : TypeRef) (name : String) (comment : Option String) :
    Serves chunk (value context enter type name comment) (.value Request.leaves context asking type name) := by
  refine position_bind fun offset => ?_
  cases type with
  | primitive type => exact (primitive hchunk type name).bind_silent fun _ => pure _
  | named kind typeName =>
    unfold Trace.value
    cases kind with
    | primitive => exact throw _
    | array => exact throw _
    | struct =>
      dsimp only
      cases context.types.find? typeName with
      | none => exact throw _
      | some definition =>
        cases definition with
        | struct type => exact (henter type.body).bind_silent fun _ => pure _
        | enum _ => exact throw _
        | bitfield _ => exact throw _
    | enum =>
      dsimp only
      cases context.types.find? typeName with
      | none => exact throw _
      | some definition =>
        cases definition with
        | enum type => exact enum hchunk type name comment
        | struct _ => exact throw _
        | bitfield _ => exact throw _
    | bitfield =>
      dsimp only
      cases context.types.find? typeName with
      | none => exact throw _
      | some definition =>
        cases definition with
        | bitfield type => exact bitfield hchunk type name comment
        | struct _ => exact throw _
        | enum _ => exact throw _

/-! ### Fields -/

theorem elements {element : String → Decoder Result} {asks : String → Trace Request}
    (helement : ∀ name, Serves chunk (element name) (asks name)) (name : String) (count index : Nat)
    (done : List Result) :
    Serves chunk (elements element name count index done) (.elements element asks name count index) := by
  induction count generalizing index done with
  | zero => exact pure _
  | succ count ih => exact (helement _).bind fun _ => ih _ _

theorem field (hchunk : 1 ≤ chunk) (henter : ∀ body, Serves chunk (enter body) (asking body))
    (declared : Field) (scopes : List Scope) :
    Serves chunk (field context enter declared scopes)
      (.field Request.leaves context enter asking declared scopes) := by
  unfold Decoder.field Trace.field
  cases declared.length with
  | none => exact value hchunk henter ..
  | some length =>
    refine position_bind fun offset => (evaluate ..).behind fun count => ?_
    split
    · exact (read count declared.name).bind_silent fun _ => (ofCodec _).bind_silent fun _ => pure _
    · exact (elements (fun _ => value hchunk henter ..) ..).bind_silent fun _ => pure _

/-! ### Control blocks -/

theorem checkLimit (head : BlockHead) (iteration start : Nat) :
    Serves chunk (checkLimit context head iteration start) .silent := by
  unfold Decoder.checkLimit
  cases context.options.maxLoopIterations with
  | none => exact pure _
  | some limit => exact ite (throw _) (pure _)

theorem checkProgress (head : BlockHead) (start : Nat) :
    Serves chunk (checkProgress head start) .silent :=
  position_bind fun _ => ite (throw _) (pure _)

theorem loop {body : List Scope → Decoder Scope} {asks : List Scope → Trace Request}
    (hbody : ∀ scopes, Serves chunk (body scopes) (asks scopes)) (head : BlockHead)
    (outer : List Scope) (steps iteration : Nat) (visible : List Scope) (scope : Scope) :
    Serves chunk (loop context head body outer steps iteration visible scope)
      (.loop context head body asks outer steps iteration visible scope) := by
  induction steps generalizing iteration visible scope with
  | zero => exact position_bind fun _ => throw _
  | succ steps ih =>
    rw [loop_succ]
    refine (entered ..).behind fun enters => ?_
    cases enters with
    | false => exact pure scope
    | true =>
      rw [if_pos rfl, if_pos rfl]
      refine position.behind fun start => (checkLimit ..).behind fun _ => ?_
      refine (hbody _).bind fun fields => (addAll ..).behind fun joined => ?_
      exact (checkProgress ..).behind fun _ => ih _ _ _

mutual

theorem nodes (hchunk : 1 ≤ chunk) (henter : ∀ body, Serves chunk (enter body) (asking body)) :
    ∀ (body : List Node) (outer : List Scope) (scope : Scope),
      Serves chunk (Decoder.nodes context enter body outer scope)
        (.nodes Request.leaves context enter asking body outer scope)
  | [], _, scope => pure scope
  | head :: rest, outer, scope =>
    (node hchunk henter head outer scope).bind fun added => nodes hchunk henter rest outer added
termination_by structural body => body

theorem node (hchunk : 1 ≤ chunk) (henter : ∀ body, Serves chunk (enter body) (asking body)) :
    ∀ (tree : Node) (outer : List Scope) (scope : Scope),
      Serves chunk (Decoder.node context enter tree outer scope)
        (.node Request.leaves context enter asking tree outer scope)
  | .field declared, outer, scope =>
    (field hchunk henter declared (scope :: outer)).bind_silent fun _ => add ..
  | .block head body, outer, scope => by
    have hinner (scopes : List Scope) := nodes hchunk henter body scopes []
    unfold Decoder.node Trace.node
    dsimp only
    split
    · exact get_bind (fun r => loop hinner head outer (r.source.unread + 1) 0 [] scope) fun _ => rfl
    · refine (entered ..).behind fun enters => ?_
      split
      · exact (hinner _).bind_silent fun _ => addAll ..
      · exact pure scope
termination_by structural tree => tree

end

theorem structBody (hchunk : 1 ≤ chunk) (levels : Nat) (body : List Node) :
    Serves chunk (structBody context levels body) (.structBody Request.leaves context levels body) := by
  induction levels generalizing body with
  | zero => exact throw _
  | succ levels ih => exact nodes hchunk ih body [] []

theorem root (hchunk : 1 ≤ chunk) (body : List Node) :
    Serves chunk (root context body) (.root Request.leaves context body) :=
  get_bind (fun _ => nodes hchunk (structBody hchunk _) body [] []) fun _ => rfl

end Serves

end Decoder

/-! ### Whole decodes -/

namespace Schema

variable (schema : Schema) (options : Options) {chunk : Nat}

theorem decode_inChunks (source : Source) (hmemory : source.chunk = none) (hchunk : 1 ≤ chunk)
    (hfits : (schema.requests options source).find? (chunk < ·.count) = none) :
    schema.decode options (source.inChunks chunk)
      = Decoder.inChunks chunk (schema.decode options source) := by
  unfold decode
  unfold requests trace at hfits
  cases hroot : schema.root with
  | none => rfl
  | some body =>
    rw [hroot] at hfits
    have hsame := (Decoder.Serves.root hchunk body).alike hmemory hfits
    change Decoder.root _ body ⟨source.inChunks chunk, []⟩ = _ at hsame
    dsimp only
    rw [hsame]
    cases Decoder.root ⟨schema.types, options⟩ body ⟨source, []⟩ <;> rfl

theorem decode_inChunks_refused (source : Source) (hmemory : source.chunk = none) (hchunk : 1 ≤ chunk)
    {request : Request}
    (hlarge : (schema.requests options source).find? (chunk < ·.count) = some request) :
    ∃ available reached,
      schema.decode options (source.inChunks chunk) = .error (request.refusal available) reached ∧
        (available = chunk ∧ request.count ≤ source.size ∨
          ∃ s, schema.decode options source = .error (request.refusal available) s) := by
  unfold decode
  unfold requests trace at hlarge
  cases hroot : schema.root with
  | none =>
    rw [hroot] at hlarge
    cases hlarge
  | some body =>
    rw [hroot] at hlarge
    obtain ⟨available, reached, hfails, hwhy⟩ :=
      (Decoder.Serves.root hchunk body).refuses hmemory hlarge
    change Decoder.root _ body ⟨source.inChunks chunk, []⟩ = _ at hfails
    dsimp only
    refine ⟨available, reached, by rw [hfails], hwhy.imp_right ?_⟩
    rintro ⟨s, hfails⟩
    exact ⟨s, by rw [hfails]⟩

end Schema

theorem Number.hasNumeral_of_le {count size : Nat} (h : count ≤ size)
    (hsize : hasNumeral size = true) : hasNumeral count = true := by
  unfold hasNumeral at hsize ⊢
  generalize Nat.pow 10 digitLimit = limit at hsize ⊢
  rw [decide_eq_true_iff, Int.natAbs_natCast] at hsize ⊢
  exact Nat.lt_of_le_of_lt h hsize

theorem Request.refusal_of_hasNumeral {request : Request} {size : Nat} (h : request.count ≤ size)
    (hsize : Number.hasNumeral size = true) (available : Nat) :
    request.refusal available = .decode
      ⟨.shortRead request.count request.position available, some request.field,
        some request.position⟩ := by
  unfold Request.refusal Failure.shortRead
  rw [if_pos (Number.hasNumeral_of_le h hsize)]

/-- A source that hands out a number of bytes at a time changes no result. If no read of a decode from
memory is for more, the decode comes to the same result or failure; and otherwise, if it succeeds, the
decode in chunks fails with the first read that is. -/
theorem decode_in_chunks (schema : Schema) (options : Options) (bytes : List UInt8) (start : Nat)
    {chunk : Nat} (hchunk : 1 ≤ chunk) :
    let memory := schema.decode options (.ofBytes bytes start)
    let stream := schema.decode options (.ofBytes bytes start chunk)
    let requests := schema.requests options (.ofBytes bytes start)
    ((∀ request ∈ requests, request.count ≤ chunk) → stream = Decoder.inChunks chunk memory) ∧
    (∀ before request after, requests = before ++ request :: after →
      (∀ earlier ∈ before, earlier.count ≤ chunk) → chunk < request.count →
      ∀ decoded reading, memory = .ok decoded reading →
        ∃ reached, stream = .error (request.refusal chunk) reached ∧
          (Number.hasNumeral bytes.length = true → request.refusal chunk = .decode
            ⟨.shortRead request.count request.position chunk, some request.field,
              some request.position⟩)) ∧
    ∀ decoded reached, stream = .ok decoded reached → ∃ reading, memory = .ok decoded reading := by
  intro memory stream requests
  have hsame (h : requests.find? (chunk < ·.count) = none) : stream = Decoder.inChunks chunk memory :=
    schema.decode_inChunks options (.ofBytes bytes start) rfl hchunk h
  have hrefused {request : Request} (h : requests.find? (chunk < ·.count) = some request) :=
    schema.decode_inChunks_refused options (.ofBytes bytes start) rfl hchunk h
  refine ⟨?_, ?_, ?_⟩
  · intro hfits
    exact hsame (List.find?_eq_none.2 fun request hrequest => by simpa using hfits request hrequest)
  · intro before request after hrequests hbefore hlarge decoded reading hrun
    have hfirst : requests.find? (chunk < ·.count) = some request :=
      List.find?_eq_some_iff_append.2 ⟨by simpa using hlarge, before, after, hrequests,
        fun earlier hearlier => by simpa using hbefore earlier hearlier⟩
    obtain ⟨available, reached, hfails, ⟨rfl, hsize⟩ | ⟨s, hmemory⟩⟩ := hrefused hfirst
    · exact ⟨reached, hfails, fun hwritten => Request.refusal_of_hasNumeral hsize hwritten _⟩
    · cases hrun.symm.trans hmemory
  · intro decoded reached hrun
    cases hfirst : requests.find? (chunk < ·.count) with
    | none => exact Decoder.eq_ok_of_inChunks ((hsame hfirst).symm.trans hrun)
    | some request =>
      obtain ⟨available, s, hfails, -⟩ := hrefused hfirst
      cases hrun.symm.trans hfails

/-- A title, a number and a text of three characters. -/
def Schema.caption : Schema where
  types := { frozen := true }
  root := some [
    .field { name := "title", type := .primitive .string, pos := ⟨1, 10⟩ },
    .field { name := "page", type := .primitive .ushort, pos := ⟨2, 10⟩ },
    .field { name := "text", type := .primitive .char, pos := ⟨3, 10⟩
             length := some ⟨[⟨.number 3, "3", ⟨3, 22⟩⟩], ⟨3, 22⟩⟩ }]

/-- In chunks of three bytes the caption is the same, and in chunks of two its text is refused. -/
theorem decode_in_chunks_caption :
    let bytes : List UInt8 := [65, 66, 67, 68, 0, 1, 0, 88, 89, 90]
    (∃ decoded reading, Schema.caption.decode {} (.ofBytes bytes 0 (some 3)) = .ok decoded reading ∧
      decoded.consumed = 10) ∧
    ∃ reached, Schema.caption.decode {} (.ofBytes bytes 0 (some 2))
      = .error (.decode ⟨.shortRead 3 7 2, some "text", some 7⟩) reached := by
  intro bytes
  have hrequests : Schema.caption.requests {} (.ofBytes bytes)
      = [⟨2, 5, "page"⟩, ⟨3, 7, "text"⟩] := by
    decide +kernel
  have hcount : Schema.caption.consumed? {} (.ofBytes bytes) = some 10 := by
    decide +kernel
  obtain ⟨decoded, reading, hrun, hconsumed⟩ := Schema.decode_of_consumed? hcount
  constructor
  · have h := (decode_in_chunks Schema.caption {} bytes 0 (by decide : 1 ≤ 3)).1
    rw [hrequests, hrun] at h
    exact ⟨decoded, _, h (by decide), hconsumed⟩
  · have h := (decode_in_chunks Schema.caption {} bytes 0 (by decide : 1 ≤ 2)).2.1
    obtain ⟨reached, hfails, hwritten⟩ :=
      h [_] ⟨3, 7, "text"⟩ [] hrequests (by decide) (by decide) decoded reading hrun
    rw [hwritten (by decide +kernel)] at hfails
    exact ⟨reached, hfails⟩

end BinarySchema
