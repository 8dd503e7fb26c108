import BinarySchema.Proofs.Decode.Levels

/-!
# Decodes that are cut short

Options can make a decode stricter: a value that an enum does not list is refused, or a loop may only
have so many iterations. Such a decode does not differ from a looser one until it refuses something, and
there it ends. `Cuts` says this of two decoders and is kept along bodies, loops and structs within structs;
a `Cut` says what holds where both still run alike, and what is known of the failure of the one decode in
comparison with the end of the other.

A loop that reaches its limit may be one that could not have come to a result. It is, if nothing is left
to be read: another iteration would consume nothing. So what a cut says of a limit may rest on how the
looser decode ends from there on, and the number of an iteration is bounded by the bytes read before it.
-/

namespace BinarySchema

/-- What is known of a decode that is cut short: of the warnings where it is not yet cut; and of its
failure, by the failure of the uncut decode, if there is one, and the warnings that this one has in the
end. All of this is about readings with at most some number of unread bytes. -/
structure Cut where
  bytes : Nat
  calm : List UnlistedValue → Prop
  stops : Failure → Option Failure → List UnlistedValue → Prop
  stops_behind {failure : Failure} {other : Option Failure} {warnings more : List UnlistedValue} :
    stops failure none warnings → warnings <+: more → stops failure other more

structure Cut.Covers (cut : Cut) (r : Reading) : Prop where
  calm : cut.calm r.warnings
  unread : r.source.unread ≤ cut.bytes

/-- That a limit of iterations is below any other one, and that a cut can be made where it is reached. -/
structure Cut.Limits (cut : Cut) (limit : LoopLimit) (other : Option LoopLimit) : Prop where
  below : ∀ more ∈ other, limit.val ≤ more.val
  stops {iteration unread : Nat} {failure : Option Failure} {warnings : List UnlistedValue}
      {label : String} {start : Nat} :
    limit.val ≤ iteration → iteration + unread ≤ cut.bytes → (unread = 0 → failure ≠ none) →
      cut.stops (.decode ⟨.loopLimit limit.val, some label, some start⟩) failure warnings

/-- That a reading has the warnings of another one, and not more unread bytes. -/
structure Reading.Follows (s r : Reading) : Prop where
  warnings : s.warnings = r.warnings
  unread : s.source.unread ≤ r.source.unread

namespace Source

theorem unread_read_le (source : Source) (count : Nat) :
    (source.read count).2.unread ≤ source.unread := by
  unfold read
  split
  · exact Nat.le_refl _
  · dsimp only
    split <;> exact (unread_skip _ _).trans_le (Nat.sub_le _ _)

theorem unread_readUntilNul_le (source : Source) : source.readUntilNul.2.unread ≤ source.unread := by
  unfold readUntilNul
  dsimp only
  split
  · exact Nat.le_refl _
  · split <;> exact (unread_skip _ _).trans_le (Nat.sub_le _ _)

end Source

namespace Decoder

variable {α β : Type} {cut : Cut} {r s : Reading}

/-! ### Where runs come to -/

/-- Where a run came to, with a result or without one. -/
def reached : EStateM.Result Failure Reading α → Reading
  | .ok _ s | .error _ s => s

def failure? : EStateM.Result Failure Reading α → Option Failure
  | .ok _ _ => none
  | .error e _ => some e

theorem reached_bind (keeps : Reading → Reading → Prop)
    (htrans : ∀ {r s t : Reading}, keeps r s → keeps s t → keeps r t) {x : Decoder α}
    {f : α → Decoder β} (hx : ∀ r, keeps r (reached (x r)))
    (hf : ∀ a r, keeps r (reached (f a r))) (r : Reading) : keeps r (reached ((x >>= f) r)) := by
  have hfirst := hx r
  cases hrun : x r with
  | ok a s =>
    rw [hrun] at hfirst
    rw [bind_of_ok hrun]
    exact htrans hfirst (hf a s)
  | error e s =>
    rw [hrun] at hfirst
    rw [bind_of_error hrun]
    exact hfirst

/-- That a decoder only adds to the warnings. -/
structure KeepsWarnings (x : Decoder α) : Prop where
  keeps (r : Reading) : r.warnings <+: (reached (x r)).warnings

theorem KeepsWarnings.bind {x : Decoder α} {f : α → Decoder β} (hx : KeepsWarnings x)
    (hf : ∀ a, KeepsWarnings (f a)) : KeepsWarnings (x >>= f) :=
  ⟨reached_bind (fun r s => r.warnings <+: s.warnings) List.IsPrefix.trans hx.keeps
    fun a => (hf a).keeps⟩

/-! ### Quiet decoders -/

/-- That a decoder gives no warnings, and leaves no bytes unread that were not unread before. -/
structure Quiet (x : Decoder α) : Prop where
  follows (r : Reading) : Reading.Follows (reached (x r)) r

namespace Quiet

theorem keepsWarnings {x : Decoder α} (h : Quiet x) : KeepsWarnings x :=
  ⟨fun r => ⟨[], by rw [(h.follows r).warnings, List.append_nil]⟩⟩

theorem covers {x : Decoder α} (h : Quiet x) (hr : cut.Covers r) : cut.Covers (reached (x r)) where
  calm := by
    rw [(h.follows r).warnings]
    exact hr.calm
  unread := Nat.le_trans (h.follows r).unread hr.unread

theorem pure (a : α) : Quiet (Pure.pure a : Decoder α) :=
  ⟨fun _ => ⟨rfl, Nat.le_refl _⟩⟩

theorem throw (e : Failure) : Quiet (MonadExcept.throw e : Decoder α) :=
  ⟨fun _ => ⟨rfl, Nat.le_refl _⟩⟩

theorem get : Quiet (MonadState.get : Decoder Reading) :=
  ⟨fun _ => ⟨rfl, Nat.le_refl _⟩⟩

theorem position : Quiet position :=
  ⟨fun _ => ⟨rfl, Nat.le_refl _⟩⟩

theorem bind {x : Decoder α} {f : α → Decoder β} (hx : Quiet x) (hf : ∀ a, Quiet (f a)) :
    Quiet (x >>= f) := by
  refine ⟨reached_bind (fun r s => s.Follows r) ?_ hx.follows fun a => (hf a).follows⟩
  intro r s t hfirst hrest
  exact ⟨hrest.warnings.trans hfirst.warnings, Nat.le_trans hrest.unread hfirst.unread⟩

theorem ite {c : Prop} [Decidable c] {x y : Decoder α} (hx : Quiet x) (hy : Quiet y) :
    Quiet (if c then x else y) := by
  split
  · exact hx
  · exact hy

theorem read (count : Nat) (label : String) : Quiet (read count label) := by
  refine ⟨fun r => ?_⟩
  have hunread := r.source.unread_read_le count
  rw [read_run]
  generalize r.source.read count = run at hunread ⊢
  obtain ⟨got, source⟩ := run
  cases got with
  | ok bytes => exact ⟨rfl, hunread⟩
  | error available => exact ⟨rfl, hunread⟩

theorem readUntilNul (label : String) : Quiet (readUntilNul label) := by
  refine ⟨fun r => ?_⟩
  have hunread := r.source.unread_readUntilNul_le
  rw [readUntilNul_run]
  generalize r.source.readUntilNul = run at hunread ⊢
  obtain ⟨got, source⟩ := run
  cases got with
  | some bytes => exact ⟨rfl, hunread⟩
  | none => exact ⟨rfl, hunread⟩

theorem ofCodec (outcome : Except Text.CodecFault α) : Quiet (ofCodec outcome) := by
  cases outcome with
  | ok value => exact pure value
  | error fault => exact throw _

theorem evaluate (context : DecodeContext) (scopes : List Scope) (label : String)
    (evaluator : EvalContext → Except EvalError α) :
    Quiet (evaluate context scopes label evaluator) := by
  unfold Decoder.evaluate
  refine bind get fun reading => ?_
  dsimp only
  cases evaluator ⟨reading.source.position, reading.source.size, scopes, context.types⟩ with
  | ok value => exact pure value
  | error error => exact throw _

theorem entered (context : DecodeContext) (head : BlockHead) (scopes : List Scope) :
    Quiet (entered context head scopes) :=
  bind (evaluate ..) fun _ => pure _

theorem add (scope : Scope) (result : Result) : Quiet (add scope result) := by
  unfold Decoder.add
  cases scope.add result with
  | ok added => exact pure added
  | error duplicate => exact throw _

theorem addAll (scope : Scope) (results : List Result) : Quiet (addAll scope results) := by
  induction results generalizing scope with
  | nil => exact pure scope
  | cons result rest ih => exact bind (add scope result) fun added => ih added

theorem primitive (context : DecodeContext) (type : Primitive) (name : String) :
    Quiet (primitive context type name) := by
  unfold Decoder.primitive
  split
  · exact bind (readUntilNul name) fun _ => bind (ofCodec _) fun _ => pure _
  · exact bind (read _ name) fun _ => bind (ofCodec _) fun _ => pure _

theorem baseInteger (context : DecodeContext) (base : Primitive) (name : String) :
    Quiet (baseInteger context base name) := by
  unfold Decoder.baseInteger
  refine bind position fun offset => bind (primitive context base name) ?_
  rintro ⟨value, size⟩
  dsimp only
  cases value.baseInteger? with
  | some n => exact pure _
  | none => exact throw _

theorem bitfieldMembers (base : Primitive) (offset size : Nat) (members : List BitfieldMember)
    (bits : Int) (scope : Scope) : Quiet (bitfieldMembers base offset size members bits scope) := by
  induction members generalizing bits scope with
  | nil => exact pure scope
  | cons member rest ih =>
    have hmembers (result : Result) (bits : Int) : Quiet (do
        Decoder.bitfieldMembers base offset size rest bits (← Decoder.add scope result)) :=
      bind (add scope result) fun added => ih bits added
    exact ite (bind (throw _) fun _ => ite (bind (throw _) fun _ => hmembers _ _) (hmembers _ _))
      (ite (bind (throw _) fun _ => hmembers _ _) (hmembers _ _))

theorem bitfield (context : DecodeContext) (type : BitfieldDef) (name : String)
    (comment : Option String) : Quiet (bitfield context type name comment) := by
  unfold Decoder.bitfield
  refine bind position fun offset => bind (baseInteger context type.base name) ?_
  rintro ⟨raw, size⟩
  exact bind (bitfieldMembers ..) fun _ => pure _

theorem checkLimit (context : DecodeContext) (head : BlockHead) (iteration start : Nat) :
    Quiet (checkLimit context head iteration start) := by
  unfold Decoder.checkLimit
  split
  · exact ite (throw _) (pure _)
  · exact pure _

theorem checkProgress (head : BlockHead) (start : Nat) : Quiet (checkProgress head start) :=
  bind position fun _ => ite (throw _) (pure _)

end Quiet

/-- A loop only adds to the warnings if its body does. -/
theorem KeepsWarnings.loop {context : DecodeContext} {head : BlockHead}
    {body : List Scope → Decoder Scope} (hbody : ∀ scopes, KeepsWarnings (body scopes))
    (outer : List Scope) (steps iteration : Nat) (visible : List Scope) (scope : Scope) :
    KeepsWarnings (loop context head body outer steps iteration visible scope) := by
  induction steps generalizing iteration visible scope with
  | zero => exact (Quiet.bind .position fun _ => .throw _).keepsWarnings
  | succ steps ih =>
    rw [loop_succ]
    refine .bind (Quiet.entered ..).keepsWarnings fun enters => ?_
    cases enters with
    | false => exact (Quiet.pure scope).keepsWarnings
    | true =>
      refine .bind Quiet.position.keepsWarnings fun start => ?_
      refine .bind (Quiet.checkLimit ..).keepsWarnings fun _ => ?_
      refine .bind (hbody _) fun fields => .bind (Quiet.addAll ..).keepsWarnings fun joined => ?_
      exact .bind (Quiet.checkProgress ..).keepsWarnings fun _ => ih _ _ _

/-! ### Runs that are cut short -/

/-- A run comes to what another one comes to, or is cut short of it. -/
def Curtails (cut : Cut) (run loose : EStateM.Result Failure Reading α) : Prop :=
  (run = loose ∧ cut.Covers (reached loose)) ∨
    ∃ e s, run = .error e s ∧ cut.stops e (failure? loose) (reached loose).warnings

/-- From a reading on, a decoder runs as another one does, or is cut short of it. -/
def CutsAt (cut : Cut) (x y : Decoder α) (r : Reading) : Prop :=
  Curtails cut (x r) (y r)

/-- From all readings that a cut covers, a decoder runs as another one does, or is cut short of it. -/
structure Cuts (cut : Cut) (x y : Decoder α) : Prop where
  alike {r : Reading} : cut.Covers r → CutsAt cut x y r
  keeps : KeepsWarnings y

theorem CutsAt.bind {x y : Decoder α} {f g : α → Decoder β} (hfirst : CutsAt cut x y r)
    (hrest : ∀ a s, y r = .ok a s → cut.Covers s → CutsAt cut (f a) (g a) s)
    (hkeeps : ∀ a, KeepsWarnings (g a)) : CutsAt cut (x >>= f) (y >>= g) r := by
  rcases hfirst with ⟨hsame, hcovers⟩ | ⟨e, s, hx, hstops⟩
  · cases hy : y r with
    | ok a t =>
      rw [hy] at hcovers
      unfold CutsAt
      rw [bind_of_ok (hsame.trans hy), bind_of_ok hy]
      exact hrest a t hy hcovers
    | error e t =>
      rw [hy] at hcovers
      left
      rw [bind_of_error (hsame.trans hy), bind_of_error hy]
      exact ⟨rfl, hcovers⟩
  · refine .inr ⟨e, s, bind_of_error hx, ?_⟩
    cases hy : y r with
    | ok a t =>
      rw [hy] at hstops
      rw [bind_of_ok hy]
      exact cut.stops_behind hstops ((hkeeps a).keeps t)
    | error e t =>
      rw [hy] at hstops
      rw [bind_of_error hy]
      exact hstops

/-- What comes before is the same in both and not cut. -/
theorem CutsAt.behind {x : Decoder α} {f g : α → Decoder β} (hx : Quiet x) (hr : cut.Covers r)
    (hrest : ∀ a s, x r = .ok a s → cut.Covers s → CutsAt cut (f a) (g a) s) :
    CutsAt cut (x >>= f) (x >>= g) r := by
  have hcovers := hx.covers hr
  cases hrun : x r with
  | ok a s =>
    rw [hrun] at hcovers
    unfold CutsAt
    rw [bind_of_ok hrun, bind_of_ok hrun]
    exact hrest a s hrun hcovers
  | error e s =>
    rw [hrun] at hcovers
    left
    rw [bind_of_error hrun, bind_of_error hrun]
    exact ⟨rfl, hcovers⟩

/-- Both look at the position before they go on. -/
theorem CutsAt.position {f g : Nat → Decoder β}
    (hrest : CutsAt cut (f r.source.position) (g r.source.position) r) :
    CutsAt cut (Decoder.position >>= f) (Decoder.position >>= g) r :=
  hrest

namespace Cuts

/-- A quiet decoder is not cut short of itself. -/
theorem same {x : Decoder α} (h : Quiet x) : Cuts cut x x :=
  ⟨fun hr => .inl ⟨rfl, h.covers hr⟩, h.keepsWarnings⟩

theorem pure (a : α) : Cuts cut (Pure.pure a : Decoder α) (Pure.pure a) := same (.pure a)

theorem throw (e : Failure) : Cuts cut (MonadExcept.throw e : Decoder α) (MonadExcept.throw e) :=
  same (.throw e)

theorem position : Cuts cut position position := same .position

theorem bind {x y : Decoder α} {f g : α → Decoder β} (hfirst : Cuts cut x y)
    (hrest : ∀ a, Cuts cut (f a) (g a)) : Cuts cut (x >>= f) (y >>= g) where
  alike hr := (hfirst.alike hr).bind (fun a _ _ hs => (hrest a).alike hs) fun a => (hrest a).keeps
  keeps := hfirst.keeps.bind fun a => (hrest a).keeps

theorem ite {c : Prop} [Decidable c] {x y v w : Decoder α} (hthen : Cuts cut x y)
    (helse : Cuts cut v w) : Cuts cut (if c then x else v) (if c then y else w) := by
  split
  · exact hthen
  · exact helse

end Cuts

/-! ### Stricter options -/

/-- That the options of a decode are those of another one except for what it refuses, and that a cut can
be made where it does. -/
structure Tightens (cut : Cut) (context loose : DecodeContext) : Prop where
  types : context.types = loose.types
  bytes (type : Primitive) (bytes : List UInt8) :
    type.ofBytes context.options bytes = type.ofBytes loose.options bytes
  encoding : context.options.textEncoding = loose.options.textEncoding
  listed (type : EnumDef) (name : String) (raw : Int) (offset : Nat) :
    Cuts cut (checkListed context type name raw offset) (checkListed loose type name raw offset)
  limit : context.options.maxLoopIterations = loose.options.maxLoopIterations ∨
    ∃ limit, context.options.maxLoopIterations = some limit ∧
      Cut.Limits cut limit loose.options.maxLoopIterations

namespace Tightens

variable {context loose : DecodeContext} {enter other : List Node → Decoder Scope}

theorem primitive_eq (h : Tightens cut context loose) (type : Primitive) (name : String) :
    primitive context type name = primitive loose type name := by
  unfold primitive
  simp only [h.bytes]

theorem baseInteger_eq (h : Tightens cut context loose) (base : Primitive) (name : String) :
    baseInteger context base name = baseInteger loose base name := by
  unfold baseInteger
  rw [h.primitive_eq]

theorem bitfield_eq (h : Tightens cut context loose) (type : BitfieldDef) (name : String)
    (comment : Option String) :
    bitfield context type name comment = bitfield loose type name comment := by
  unfold bitfield
  rw [h.baseInteger_eq]

theorem evaluate_eq (h : Tightens cut context loose) (scopes : List Scope) (label : String)
    (evaluator : EvalContext → Except EvalError α) :
    evaluate context scopes label evaluator = evaluate loose scopes label evaluator := by
  unfold evaluate
  rw [h.types]

theorem entered_eq (h : Tightens cut context loose) (head : BlockHead) (scopes : List Scope) :
    entered context head scopes = entered loose head scopes := by
  unfold entered
  rw [h.evaluate_eq]

theorem enum (h : Tightens cut context loose) (type : EnumDef) (name : String)
    (comment : Option String) :
    Cuts cut (enum context type name comment) (enum loose type name comment) := by
  rw [enum_eq, enum_eq, h.baseInteger_eq]
  refine .bind .position fun offset => .bind (.same (.baseInteger ..)) ?_
  rintro ⟨raw, size⟩
  exact .bind (h.listed type name raw offset) fun _ => .pure _

theorem value (h : Tightens cut context loose) (henter : ∀ body, Cuts cut (enter body) (other body))
    (type : TypeRef) (name : String) (comment : Option String) :
    Cuts cut (value context enter type name comment) (value loose other type name comment) := by
  unfold Decoder.value
  refine .bind .position fun offset => ?_
  cases type with
  | primitive type =>
    dsimp only
    rw [h.primitive_eq]
    exact .bind (.same (.primitive ..)) fun _ => .pure _
  | named kind typeName =>
    rw [h.types]
    cases kind with
    | primitive => exact .throw _
    | array => exact .throw _
    | struct =>
      dsimp only
      split
      · exact .bind (henter _) fun _ => .pure _
      · exact .throw _
    | enum =>
      dsimp only
      split
      · exact h.enum ..
      · exact .throw _
    | bitfield =>
      dsimp only
      split
      · rw [h.bitfield_eq]
        exact .same (.bitfield ..)
      · exact .throw _

omit enter other in
theorem elements {element another : String → Decoder Result}
    (helement : ∀ name, Cuts cut (element name) (another name)) (name : String)
    (count index : Nat) (done : List Result) :
    Cuts cut (elements element name count index done) (elements another name count index done) := by
  induction count generalizing index done with
  | zero => exact .pure _
  | succ count ih => exact .bind (helement _) fun _ => ih _ _

theorem field (h : Tightens cut context loose) (henter : ∀ body, Cuts cut (enter body) (other body))
    (declared : Field) (scopes : List Scope) :
    Cuts cut (field context enter declared scopes) (field loose other declared scopes) := by
  unfold Decoder.field
  cases declared.length with
  | none => exact h.value henter ..
  | some length =>
    dsimp only
    unfold array
    rw [h.evaluate_eq, h.encoding]
    refine .bind .position fun offset => .bind (.same (.evaluate ..)) fun count => .ite ?_ ?_
    · exact .bind (.same (.read ..)) fun _ => .bind (.same (.ofCodec _)) fun _ => .pure _
    · exact .bind (elements (fun _ => h.value henter ..) ..) fun _ => .pure _

/-! ### Loops -/

theorem checkLimit_cases (h : Tightens cut context loose) (head : BlockHead) (iteration start : Nat) :
    checkLimit context head iteration start = checkLimit loose head iteration start ∨
      ∃ limit, limit.val ≤ iteration ∧ Cut.Limits cut limit loose.options.maxLoopIterations ∧
        checkLimit context head iteration start = fail (.loopLimit limit.val) head.label start := by
  unfold checkLimit
  rcases h.limit with hsame | ⟨limit, hlimit, hlimits⟩
  · exact .inl (by rw [hsame])
  · rw [hlimit]
    by_cases hreached : limit.val ≤ iteration
    · exact .inr ⟨limit, hreached, hlimits, if_pos hreached⟩
    · left
      dsimp only
      rw [if_neg hreached]
      cases hother : loose.options.maxLoopIterations with
      | none => rfl
      | some more =>
        have hbelow := hlimits.below more hother
        exact (if_neg (by omega)).symm

theorem loop_exhausted {head : BlockHead} {body : List Scope → Decoder Scope} {outer : List Scope}
    {visible : List Scope} {scope : Scope} (steps iteration : Nat) (hbody : Forward body)
    (henters : entered loose head (visible ++ scope :: outer) r = .ok true r)
    (hr : r.source.unread = 0) :
    failure? (loop loose head body outer (steps + 1) iteration visible scope r) ≠ none := by
  intro hnone
  cases hrun : loop loose head body outer (steps + 1) iteration visible scope r with
  | error e s =>
    rw [hrun] at hnone
    cases hnone
  | ok result s =>
    cases loop_ok hrun with
    | done leaves =>
      rw [henters] at leaves
      cases leaves
    | again _ run moved _ =>
      have hless := hbody.unread_lt run moved
      omega

theorem loop (h : Tightens cut context loose) {body another : List Scope → Decoder Scope}
    (hbody : ∀ scopes, Cuts cut (body scopes) (another scopes)) (hforward : Forward another)
    (head : BlockHead) (outer : List Scope) {steps iteration : Nat} {visible : List Scope}
    {scope : Scope} (hr : cut.Covers r) (hbytes : iteration + r.source.unread ≤ cut.bytes) :
    CutsAt cut (loop context head body outer steps iteration visible scope)
      (loop loose head another outer steps iteration visible scope) r := by
  induction steps generalizing iteration visible scope r with
  | zero => exact (Cuts.same (.bind .position fun _ => .throw _)).alike hr
  | succ steps ih =>
    rw [loop_succ, loop_succ, h.entered_eq]
    refine .behind (.entered ..) hr fun enters t henters ht => ?_
    obtain rfl := entered_ok henters
    cases enters with
    | false => exact (Cuts.pure scope).alike ht
    | true =>
      rw [if_pos rfl, if_pos rfl]
      refine .position ?_
      rcases h.checkLimit_cases head iteration t.source.position with hsame | hlimit
      · rw [hsame]
        refine .behind (.checkLimit ..) ht fun _ u hlimit hu => ?_
        obtain rfl := checkLimit_ok hlimit
        refine ((hbody _).alike hu).bind (fun fields v hrun hv => ?_) fun fields => ?_
        · refine .behind (.addAll ..) hv fun joined w hjoins hw => ?_
          obtain ⟨-, rfl⟩ := addAll_ok hjoins
          refine .behind (.checkProgress ..) hw fun _ x hprogress hx => ?_
          obtain ⟨rfl, hmoved⟩ := checkProgress_ok hprogress
          have hless := hforward.unread_lt hrun hmoved
          exact ih hx (by omega)
        · refine .bind (Quiet.addAll ..).keepsWarnings fun joined => ?_
          refine .bind (Quiet.checkProgress ..).keepsWarnings fun _ => ?_
          exact .loop (fun scopes => (hbody scopes).keeps) ..
      · obtain ⟨limit, hreached, hlimits, hrefused⟩ := hlimit
        rw [hrefused]
        refine .inr ⟨_, t, bind_of_error rfl, hlimits.stops hreached hbytes fun hnothing => ?_⟩
        have hexhausted := loop_exhausted steps iteration hforward henters hnothing
        rw [loop_succ, bind_of_ok henters] at hexhausted
        exact hexhausted

/-! ### Bodies -/

mutual

theorem nodes (h : Tightens cut context loose) (henter : ∀ body, Cuts cut (enter body) (other body))
    (hforward : Accumulates.Enters loose MovesForward other) :
    ∀ (body : List Node) (outer : List Scope) (scope : Scope),
      Cuts cut (Decoder.nodes context enter body outer scope)
        (Decoder.nodes loose other body outer scope)
  | [], _, scope => .pure scope
  | head :: rest, outer, scope =>
    .bind (h.node henter hforward head outer scope)
      fun added => h.nodes henter hforward rest outer added
termination_by structural body => body

theorem node (h : Tightens cut context loose) (henter : ∀ body, Cuts cut (enter body) (other body))
    (hforward : Accumulates.Enters loose MovesForward other) :
    ∀ (tree : Node) (outer : List Scope) (scope : Scope),
      Cuts cut (Decoder.node context enter tree outer scope)
        (Decoder.node loose other tree outer scope)
  | .field declared, outer, scope =>
    .bind (h.field henter declared (scope :: outer)) fun _ => .same (.add ..)
  | .block head body, outer, scope => by
    have hinner (scopes : List Scope) : Cuts cut (Decoder.nodes context enter body scopes [])
        (Decoder.nodes loose other body scopes []) :=
      h.nodes henter hforward body scopes []
    have hmoves : Forward fun scopes => Decoder.nodes loose other body scopes [] := by
      intro scopes r fields s hrun
      obtain ⟨results, -, hadds⟩ :=
        (consumes_accumulates loose).nodes hforward body (fun _ _ => trivial) hrun
      exact hadds
    unfold Decoder.node
    dsimp only
    refine .ite ⟨fun {r} hr => ?_, ?_⟩ ?_
    · -- All the bytes that the iterations may take are still unread.
      have hbytes : 0 + r.source.unread ≤ cut.bytes := by
        rw [Nat.zero_add]
        exact hr.unread
      exact h.loop hinner hmoves head outer hr hbytes
    · exact .bind Quiet.get.keepsWarnings fun _ => .loop (fun scopes => (hinner scopes).keeps) ..
    · rw [h.entered_eq]
      refine .bind (.same (.entered ..)) fun enters => .ite ?_ (.pure scope)
      exact .bind (hinner _) fun _ => .same (.addAll ..)
termination_by structural tree => tree

end

theorem structBody (h : Tightens cut context loose) (levels : Nat) (body : List Node) :
    Cuts cut (Decoder.structBody context levels body) (Decoder.structBody loose levels body) := by
  induction levels generalizing body with
  | zero => exact .throw _
  | succ levels ih =>
    exact h.nodes ih ((consumes_accumulates loose).structBody levels) body [] []

end Tightens

end Decoder

/-- A decode with stricter options comes to what the looser one comes to, or is cut short of it. -/
theorem Schema.decode_curtailed {schema : Schema} {cut : Cut} {options loose : Options}
    (h : Decoder.Tightens cut ⟨schema.types, options⟩ ⟨schema.types, loose⟩) {source : Source}
    (hsource : cut.Covers ⟨source, []⟩) :
    Decoder.Curtails cut (schema.decode options source) (schema.decode loose source) := by
  unfold Schema.decode
  cases schema.root with
  | none => exact .inl ⟨rfl, hsource⟩
  | some body =>
    have hroot : Decoder.CutsAt cut (Decoder.root ⟨schema.types, options⟩ body)
        (Decoder.root ⟨schema.types, loose⟩ body) ⟨source, []⟩ :=
      (h.nodes (h.structBody _) ((Decoder.consumes_accumulates _).structBody _) body [] []).alike hsource
    rcases hroot with ⟨hsame, hcovers⟩ | ⟨e, s, hfails, hstops⟩
    · left
      dsimp only
      rw [hsame]
      cases hrun : Decoder.root ⟨schema.types, loose⟩ body ⟨source, []⟩ with
      | ok fields reading =>
        rw [hrun] at hcovers
        exact ⟨rfl, hcovers⟩
      | error failure reading =>
        rw [hrun] at hcovers
        exact ⟨rfl, hcovers⟩
    · refine .inr ⟨e, s, ?_, ?_⟩
      · dsimp only
        rw [hfails]
      · dsimp only
        cases hrun : Decoder.root ⟨schema.types, loose⟩ body ⟨source, []⟩ with
        | ok fields reading =>
          rw [hrun] at hstops
          exact hstops
        | error failure reading =>
          rw [hrun] at hstops
          exact hstops

end BinarySchema
