import BinarySchema.Proofs.Decode.Accumulation
import BinarySchema.Proofs.Definition.Fields
import BinarySchema.Proofs.Definition.Table
import BinarySchema.Proofs.Expression.Operands
import BinarySchema.Proofs.Result.Shift

/-!
# Decoding inside a longer input

What a decode reads is all that it depends on. If the same bytes stand in the middle of a longer input, a
decode that begins there comes to the same result, with its offsets as much larger as there are bytes in
front. Only probes can tell the two inputs apart: `@eof` and `@size` see the bytes behind, and `@pos`
those in front.

A longer input has more steps for its loops and more levels for structs within structs. A decode that
comes to a result has not used up the ones that it had, so more of them make no difference to it.
-/

namespace BinarySchema

/-! ### Probes -/

def Expression.Probes (expression : Expression) (probe : String) : Prop :=
  ∃ term ∈ expression.terms, term.kind = .probe ∧ term.text = probe

/-- The lengths of the fields of a body and the conditions of its control blocks. -/
def bodyExpressions (body : List Node) : List Expression :=
  (bodyFields body).filterMap Field.length ++ (bodyHeads body).map BlockHead.condition

def Definition.expressions : Definition → List Expression
  | .struct definition => bodyExpressions definition.body
  | .enum _ | .bitfield _ => []

def Schema.expressions (schema : Schema) : List Expression :=
  bodyExpressions (schema.root.getD []) ++ schema.types.definitions.flatMap Definition.expressions

/-- Whether an expression of a schema has a probe among its terms. -/
def Schema.Probes (schema : Schema) (probe : String) : Prop :=
  ∃ expression ∈ schema.expressions, expression.Probes probe

instance (schema : Schema) (probe : String) : Decidable (schema.Probes probe) :=
  inferInstanceAs (Decidable (∃ expression ∈ schema.expressions, ∃ term ∈ expression.terms,
    term.kind = .probe ∧ term.text = probe))

theorem mem_bodyExpressions_cons {expression : Expression} {node : Node} {rest : List Node} :
    expression ∈ bodyExpressions (node :: rest) ↔
      expression ∈ bodyExpressions [node] ∨ expression ∈ bodyExpressions rest := by
  simp only [bodyExpressions, bodyFields_cons, bodyHeads_cons, bodyFields_nil, bodyHeads_nil,
    List.append_nil, List.filterMap_append, List.map_append, List.mem_append]
  exact or_or_or_comm

theorem length_mem_bodyExpressions {declared : Field} {length : Expression}
    (h : declared.length = some length) : length ∈ bodyExpressions [.field declared] := by
  simp [bodyExpressions, h]

theorem mem_bodyExpressions_block {expression : Expression} {head : BlockHead} {body : List Node} :
    expression ∈ bodyExpressions [.block head body] ↔
      expression = head.condition ∨ expression ∈ bodyExpressions body := by
  simp only [bodyExpressions, bodyFields_cons, bodyHeads_cons, bodyFields_nil, bodyHeads_nil,
    List.append_nil, Node.fields_block, Node.heads_block, List.map_cons, List.mem_append, List.mem_cons]
  exact or_left_comm

/-! ### Longer inputs -/

/-- What stands around an input in a longer one: so many bytes in front, and these behind. -/
structure Surroundings where
  front : Nat
  back : List UInt8

namespace Surroundings

variable {around : Surroundings}

/-- That what is unread of one source stands in another one inside the surroundings. -/
structure Holds (around : Surroundings) (source other : Source) : Prop where
  position : other.position = source.position + around.front
  rest : other.rest = source.rest ++ around.back
  chunk : other.chunk = source.chunk

theorem Holds.unread {source other : Source} (h : around.Holds source other) :
    other.unread = source.unread + around.back.length := by
  rw [other.unread_eq, source.unread_eq, h.rest, List.length_append]

theorem Holds.skip {source other : Source} (h : around.Holds source other) {count : Nat}
    (henough : count ≤ source.unread) : around.Holds (source.skip count) (other.skip count) where
  position := by
    have hunread := h.unread
    change other.position + min count other.unread
      = source.position + min count source.unread + around.front
    rw [h.position, Nat.min_eq_left henough, Nat.min_eq_left (by omega)]
    omega
  rest := by
    rw [source.unread_eq] at henough
    rw [Source.rest_skip, Source.rest_skip, h.rest, List.drop_append_of_le_length henough]
  chunk := h.chunk

theorem Holds.read {source other next : Source} (h : around.Holds source other) {count : Nat}
    {bytes : List UInt8} (hread : source.read count = (.ok bytes, next)) :
    ∃ after, other.read count = (.ok bytes, after) ∧ around.Holds next after := by
  have hunread := h.unread
  unfold Source.read at hread ⊢
  split at hread
  · cases hread
  · rename_i henough
    dsimp only at hread ⊢
    rw [if_neg (by omega), h.chunk]
    split at hread
    · cases hread
    · cases hread
      refine ⟨other.skip count, ?_, h.skip (by omega)⟩
      rw [if_neg ‹_›, h.rest, List.take_append_of_le_length (by rw [← source.unread_eq]; omega)]

theorem Holds.readUntilNul {source other next : Source} (h : around.Holds source other)
    {bytes : List UInt8} (hread : source.readUntilNul = (some bytes, next)) :
    ∃ after, other.readUntilNul = (some bytes, after) ∧ around.Holds next after := by
  have hunread := h.unread
  unfold Source.readUntilNul at hread ⊢
  dsimp only at hread ⊢
  split at hread
  · cases hread
  · rename_i hchunk
    split at hread
    · rename_i hshort
      cases hread
      -- The text ends inside the shorter input, so it ends in the longer one at the same place.
      have htext : other.rest.takeWhile (· != 0) = source.rest.takeWhile (· != 0) := by
        rw [source.unread_eq] at hshort
        rw [h.rest, List.takeWhile_append, if_neg (Nat.ne_of_lt hshort)]
      rw [htext, h.chunk, if_neg hchunk, if_pos (by omega)]
      exact ⟨_, rfl, h.skip hshort⟩
    · cases hread

/-- That an expression cannot tell an input from the longer one. -/
structure Hides (around : Surroundings) (expression : Expression) : Prop where
  atEnd : ¬ expression.Probes "@eof"
  size : ¬ expression.Probes "@size"
  position : around.front = 0 ∨ ¬ expression.Probes "@pos"

theorem Hides.carries {expression : Expression} (hhides : around.Hides expression)
    {source other : Source} (h : around.Holds source other) (scopes : List Scope) (types : TypeTable) :
    Expression.Carries ⟨source.position, source.size, scopes, types⟩
      ⟨other.position, other.size, scopes.map (Scope.shift around.front), types⟩ expression.terms := by
  intro term hterm v hv
  cases hv with
  | number kind => exact .number kind
  | atEnd kind text => exact absurd ⟨term, hterm, kind, text⟩ hhides.atEnd
  | size kind text => exact absurd ⟨term, hterm, kind, text⟩ hhides.size
  | position kind text =>
    rcases hhides.position with hfront | hprobe
    · have hposition := h.position
      rw [hfront, Nat.add_zero] at hposition
      dsimp only
      rw [← hposition]
      exact .position kind text
    · exact absurd ⟨term, hterm, kind, text⟩ hprobe
  | @field result n kind found integer =>
    have hfound : Scope.resolve? (scopes.map (Scope.shift around.front)) term.text
        = some (result.shift around.front) := by
      rw [Scope.resolve?_shift, found]
      rfl
    exact .field kind hfound ((Entry.toInteger?_shift result).trans integer)
  | member kind owner value => exact .member kind owner value
  | @path outer result n kind owner found inner integer =>
    have hfound : Scope.resolve? (scopes.map (Scope.shift around.front))
        (Expression.splitConstant term.text).1 = some (outer.shift around.front) := by
      rw [Scope.resolve?_shift, found]
      rfl
    have hinner : Expression.follow? (outer.shift around.front)
        (Text.pieces '.' (Expression.splitConstant term.text).2)
          = some (result.shift around.front) := by
      rw [Expression.follow?_shift, inner]
      rfl
    exact .path kind owner hfound hinner ((Entry.toInteger?_shift result).trans integer)

theorem Hides.evaluate {expression : Expression} (hhides : around.Hides expression)
    {source other : Source} (h : around.Holds source other) {scopes : List Scope} {types : TypeTable}
    {α : Type} {f : Number.Outcome → α} {a : α}
    (hvalue : (expression.evaluate ⟨source.position, source.size, scopes, types⟩).map f = .ok a) :
    (expression.evaluate
      ⟨other.position, other.size, scopes.map (Scope.shift around.front), types⟩).map f = .ok a := by
  obtain ⟨v, hv, rfl⟩ := Except.map_ok_iff.1 hvalue
  exact Except.map_ok_iff.2 ⟨v, Expression.evaluate_transfer hv (hhides.carries h scopes types), rfl⟩

end Surroundings

theorem Primitive.shift_of_ofBytes {type : Primitive} {options : Options} {bytes : List UInt8}
    {value : Datum} (h : type.ofBytes options bytes = .ok value) (count : Nat) :
    value.shift count = value := by
  cases type with
  | char | string =>
    obtain ⟨text, -, rfl⟩ := Except.map_ok_iff.1 h
    rfl
  | _ =>
    cases h
    rfl

namespace Decoder

@[simp] theorem memberValue_shift (count : Nat) (type : EnumDef) (raw : Int) :
    (memberValue type raw).shift count = memberValue type raw := by
  unfold memberValue
  split <;> rfl

variable {α β γ δ : Type} {around : Surroundings} {context : DecodeContext}

/-- That a decoder which comes to a result also does so inside the surroundings, by another decoder: to
the image of the result, with the same bytes taken and the same warnings. -/
structure Lifts (around : Surroundings) (image : α → β) (x : Decoder α) (y : Decoder β) : Prop where
  run {r s t : Reading} {a : α} : around.Holds r.source s.source → s.warnings = r.warnings →
    x r = .ok a t →
      ∃ u, y s = .ok (image a) u ∧ around.Holds t.source u.source ∧ u.warnings = t.warnings

namespace Lifts

theorem pure {image : α → β} {a : α} {b : β} (h : image a = b) :
    Lifts around image (Pure.pure a) (Pure.pure b) where
  run {_ s _ _} hholds hwarnings hrun := by
    obtain ⟨rfl, rfl⟩ := pure_ok_iff.1 hrun
    exact ⟨s, pure_ok_iff.2 ⟨h.symm, rfl⟩, hholds, hwarnings⟩

theorem throw {image : α → β} {e : Failure} {y : Decoder β} :
    Lifts around image (MonadExcept.throw e) y where
  run _ _ hrun := by
    simp at hrun

theorem refused {image : α → β} {e : Failure} {f : γ → Decoder α} {y : Decoder β} :
    Lifts around image (MonadExcept.throw e >>= f) y where
  run _ _ hrun := by
    simp [bind_ok_iff] at hrun

theorem bind {image : α → β} {next : γ → δ} {x : Decoder α} {y : Decoder β} {f : α → Decoder γ}
    {g : β → Decoder δ} (hx : Lifts around image x y)
    (hf : ∀ a, Lifts around next (f a) (g (image a))) : Lifts around next (x >>= f) (y >>= g) where
  run hholds hwarnings hrun := by
    obtain ⟨a, t, hfirst, hrest⟩ := bind_ok_iff.1 hrun
    obtain ⟨u, hother, hholds, hwarnings⟩ := hx.run hholds hwarnings hfirst
    obtain ⟨v, hothers, hafter⟩ := (hf a).run hholds hwarnings hrest
    exact ⟨v, bind_ok_iff.2 ⟨_, u, hother, hothers⟩, hafter⟩

theorem ite {image : α → β} {c : Prop} [Decidable c] {x v : Decoder α} {y w : Decoder β}
    (hthen : Lifts around image x y) (helse : Lifts around image v w) :
    Lifts around image (if c then x else v) (if c then y else w) := by
  split
  · exact hthen
  · exact helse

/-! ### Single values -/

theorem ofCodec {image : α → α} {outcome : Except Text.CodecFault α}
    (h : ∀ a, outcome = .ok a → image a = a) :
    Lifts around image (ofCodec outcome) (ofCodec outcome) := by
  cases outcome with
  | ok a => exact .pure (h a rfl)
  | error fault => exact .throw

theorem position : Lifts around (· + around.front) position position where
  run {_ s _ _} hholds hwarnings hrun := by
    cases hrun
    exact ⟨s, congrArg (EStateM.Result.ok · s) hholds.position, hholds, hwarnings⟩

theorem read (count : Nat) (label : String) :
    Lifts around id (read count label) (read count label) where
  run {r s t bytes} hholds hwarnings hrun := by
    rw [read_run] at hrun ⊢
    cases hread : r.source.read count with
    | mk got next =>
      rw [hread] at hrun
      cases got with
      | error available => cases hrun
      | ok taken =>
        cases hrun
        obtain ⟨after, hother, hafter⟩ := hholds.read hread
        rw [hother]
        exact ⟨{ s with source := after }, rfl, hafter, hwarnings⟩

theorem readUntilNul (label : String) : Lifts around id (readUntilNul label) (readUntilNul label) where
  run {r s t bytes} hholds hwarnings hrun := by
    rw [readUntilNul_run] at hrun ⊢
    cases hread : r.source.readUntilNul with
    | mk got next =>
      rw [hread] at hrun
      cases got with
      | none => cases hrun
      | some taken =>
        cases hrun
        obtain ⟨after, hother, hafter⟩ := hholds.readUntilNul hread
        rw [hother]
        exact ⟨{ s with source := after }, rfl, hafter, hwarnings⟩

theorem evaluate {expression : Expression} (hhides : around.Hides expression) (scopes : List Scope)
    (label : String) (f : Number.Outcome → α) :
    Lifts around id (evaluate context scopes label fun state => (expression.evaluate state).map f)
      (evaluate context (scopes.map (Scope.shift around.front)) label
        fun state => (expression.evaluate state).map f) where
  run {_ s _ _} hholds hwarnings hrun := by
    obtain ⟨rfl, hvalue⟩ := evaluate_ok hrun
    exact ⟨s, evaluate_of_ok (hhides.evaluate hholds hvalue), hholds, hwarnings⟩

theorem entered {head : BlockHead} (hhides : around.Hides head.condition) (scopes : List Scope) :
    Lifts around id (entered context head scopes)
      (entered context head (scopes.map (Scope.shift around.front))) :=
  .bind (.evaluate hhides scopes head.label _) fun _ => .pure rfl

theorem warn (unlisted : UnlistedValue) : Lifts around id (warn unlisted) (warn unlisted) where
  run {r s t _} hholds hwarnings hrun := by
    cases hrun
    exact ⟨{ s with warnings := s.warnings ++ [unlisted] }, rfl, hholds, by rw [hwarnings]⟩

theorem add (scope : Scope) (result : Result) :
    Lifts around (Scope.shift around.front) (add scope result)
      (add (Scope.shift around.front scope) (result.shift around.front)) := by
  unfold Decoder.add
  cases hadd : scope.add result with
  | ok added =>
    rw [Scope.add_shift hadd]
    exact .pure rfl
  | error duplicate => exact .throw

theorem addAll (scope : Scope) (results : List Result) :
    Lifts around (Scope.shift around.front) (addAll scope results)
      (addAll (Scope.shift around.front scope) (Scope.shift around.front results)) := by
  induction results generalizing scope with
  | nil => exact .pure rfl
  | cons result rest ih => exact .bind (.add scope result) fun added => ih added

theorem primitive (type : Primitive) (name : String) :
    Lifts around (fun read => (read.1.shift around.front, read.2)) (primitive context type name)
      (primitive context type name) := by
  have hvalue (bytes : List UInt8) : Lifts around (Datum.shift around.front)
      (Decoder.ofCodec (type.ofBytes context.options bytes))
      (Decoder.ofCodec (type.ofBytes context.options bytes)) :=
    .ofCodec fun _ h => Primitive.shift_of_ofBytes h around.front
  unfold Decoder.primitive
  split
  · exact .bind (.readUntilNul name) fun bytes => .bind (hvalue bytes) fun _ => .pure rfl
  · exact .bind (.read _ name) fun bytes => .bind (hvalue bytes) fun _ => .pure rfl

theorem baseInteger (base : Primitive) (name : String) :
    Lifts around id (baseInteger context base name) (baseInteger context base name) := by
  unfold Decoder.baseInteger
  refine .bind .position fun offset => .bind (.primitive base name) ?_
  rintro ⟨value, size⟩
  dsimp only
  have hshift : (value.shift around.front).baseInteger? = value.baseInteger? := by
    cases value <;> rfl
  rw [hshift]
  cases value.baseInteger? with
  | some n => exact .pure rfl
  | none => exact .throw

theorem checkListed (type : EnumDef) (name : String) (raw : Int) (offset other : Nat) :
    Lifts around id (checkListed context type name raw offset)
      (checkListed context type name raw other) :=
  .ite (.ite .throw (.warn _)) (.pure rfl)

theorem enum (type : EnumDef) (name : String) (comment : Option String) :
    Lifts around (Entry.shift around.front) (enum context type name comment)
      (enum context type name comment) := by
  rw [enum_eq]
  refine .bind .position fun offset => .bind (.baseInteger type.base name) ?_
  rintro ⟨raw, size⟩
  refine .bind (.checkListed type name raw offset _) fun _ => .pure ?_
  simp only [Entry.shift, memberValue_shift, Int.natCast_add]

theorem bitfieldMembers (base : Primitive) (offset size : Nat) (members : List BitfieldMember)
    (bits : Int) (scope : Scope) :
    Lifts around (Scope.shift around.front) (bitfieldMembers base offset size members bits scope)
      (bitfieldMembers base (offset + around.front) size members bits
        (Scope.shift around.front scope)) := by
  induction members generalizing bits scope with
  | nil => exact .pure rfl
  | cons member rest ih =>
    -- The two refusals stand in front of the member, and neither of them is met.
    refine .ite .refused (.ite .refused ?_)
    exact .bind (.add scope _) fun added => ih _ added

theorem bitfield (type : BitfieldDef) (name : String) (comment : Option String) :
    Lifts around (Entry.shift around.front) (bitfield context type name comment)
      (bitfield context type name comment) := by
  unfold Decoder.bitfield
  refine .bind .position fun offset => .bind (.baseInteger type.base name) ?_
  rintro ⟨raw, size⟩
  refine .bind (.bitfieldMembers _ offset size _ raw []) fun members => .pure ?_
  simp only [Entry.shift, Datum.shift_scope, Int.natCast_add]

/-- That the bodies of declared structs are decoded alike inside the surroundings. -/
def Enters (around : Surroundings) (context : DecodeContext) (enter other : List Node → Decoder Scope) :
    Prop :=
  ∀ type : StructDef, .struct type ∈ context.types.definitions →
    Lifts around (Scope.shift around.front) (enter type.body) (other type.body)

variable {enter other : List Node → Decoder Scope}

theorem value (henter : Enters around context enter other) (type : TypeRef) (name : String)
    (comment : Option String) :
    Lifts around (Entry.shift around.front) (value context enter type name comment)
      (value context other type name comment) := by
  unfold Decoder.value
  refine .bind .position fun offset => ?_
  cases type with
  | primitive type =>
    refine .bind (.primitive type name) ?_
    rintro ⟨value, size⟩
    refine .pure ?_
    cases value <;> rfl
  | named kind typeName =>
    cases kind with
    | primitive => exact .throw
    | array => exact .throw
    | struct =>
      dsimp only
      split
      · rename_i type hfound
        refine .bind (henter type (TypeTable.mem_of_find? hfound)) fun fields => .pure ?_
        simp only [Entry.shift, Datum.shift_scope, Scope.totalSize_shift, Int.natCast_add]
      · exact .throw
    | enum =>
      dsimp only
      split
      · exact .enum ..
      · exact .throw
    | bitfield =>
      dsimp only
      split
      · exact .bitfield ..
      · exact .throw

theorem elements {element another : String → Decoder Result}
    (helement : ∀ name, Lifts around (Entry.shift around.front) (element name) (another name))
    (name : String) (count index : Nat) (done : List Result) :
    Lifts around (Scope.shift around.front) (elements element name count index done)
      (elements another name count index (Scope.shift around.front done)) := by
  induction count generalizing index done with
  | zero => exact .pure List.map_reverse
  | succ count ih => exact .bind (helement _) fun result => ih _ (result :: done)

theorem field (henter : Enters around context enter other) {declared : Field}
    (hhides : ∀ length ∈ declared.length, around.Hides length) (scopes : List Scope) :
    Lifts around (Entry.shift around.front) (field context enter declared scopes)
      (field context other declared (scopes.map (Scope.shift around.front))) := by
  unfold Decoder.field
  cases hlength : declared.length with
  | none => exact value henter ..
  | some length =>
    dsimp only
    unfold array
    refine .bind .position fun offset => ?_
    refine .bind (.evaluate (hhides length hlength) scopes _ _) fun count => .ite ?_ ?_
    · refine .bind (.read count _) fun bytes => .bind (.ofCodec fun _ _ => rfl) fun text => .pure ?_
      simp only [Entry.shift, Datum.shift, Int.natCast_add, id]
    · refine .bind (elements (fun name => value henter ..) _ count 0 []) fun items => .pure ?_
      simp only [Entry.shift, Datum.shift_scope, Scope.totalSize_shift, Int.natCast_add]

/-! ### Loops -/

theorem checkLimit (head : BlockHead) (iteration start other : Nat) :
    Lifts around id (checkLimit context head iteration start)
      (checkLimit context head iteration other) := by
  unfold Decoder.checkLimit
  cases context.options.maxLoopIterations with
  | some limit => exact .ite .throw (.pure rfl)
  | none => exact .pure rfl

theorem checkProgress (head : BlockHead) (start : Nat) :
    Lifts around id (checkProgress head start) (checkProgress head (start + around.front)) := by
  unfold Decoder.checkProgress
  refine .bind .position fun now => ?_
  by_cases hstill : now = start
  · rw [if_pos hstill]
    exact .throw
  · rw [if_neg hstill, if_neg (by omega)]
    exact .pure rfl

/-- A loop with more steps than it needs goes through the same iterations. -/
theorem loop {head : BlockHead} (hhides : around.Hides head.condition)
    {body another : List Scope → Decoder Scope}
    (hbody : ∀ scopes, Lifts around (Scope.shift around.front) (body scopes)
      (another (scopes.map (Scope.shift around.front))))
    (outer : List Scope) {steps more : Nat} (hsteps : steps ≤ more) (iteration : Nat)
    (visible : List Scope) (scope : Scope) :
    Lifts around (Scope.shift around.front)
      (loop context head body outer steps iteration visible scope)
      (loop context head another (outer.map (Scope.shift around.front)) more iteration
        (visible.map (Scope.shift around.front)) (Scope.shift around.front scope)) := by
  induction steps generalizing more iteration visible scope with
  | zero =>
    refine ⟨fun _ _ hrun => ?_⟩
    unfold Decoder.loop at hrun
    rw [position_bind] at hrun
    simp at hrun
  | succ steps ih =>
    cases more with
    | zero => exact absurd hsteps (Nat.not_succ_le_zero steps)
    | succ more =>
      have hvisible : visible.map (Scope.shift around.front)
          ++ Scope.shift around.front scope :: outer.map (Scope.shift around.front)
            = (visible ++ scope :: outer).map (Scope.shift around.front) := by
        rw [List.map_append, List.map_cons]
      rw [loop_succ, loop_succ, hvisible]
      refine .bind (.entered hhides _) fun enters => ?_
      cases enters with
      | false => exact .pure rfl
      | true =>
        refine .bind .position fun start => .bind (.checkLimit ..) fun _ => ?_
        refine .bind (hbody (scope :: outer)) fun fields => ?_
        rw [Scope.map_shift (f := fun x => x.rename (indexedName x.name iteration)) (fun _ => rfl)]
        refine .bind (.addAll ..) fun joined => .bind (.checkProgress ..) fun _ => ?_
        exact ih (Nat.le_of_succ_le_succ hsteps) (iteration + 1) [fields] joined

/-! ### Bodies -/

mutual

theorem nodes (henter : Enters around context enter other) : ∀ (body : List Node),
    (∀ expression ∈ bodyExpressions body, around.Hides expression) →
      ∀ (outer : List Scope) (scope : Scope),
        Lifts around (Scope.shift around.front) (Decoder.nodes context enter body outer scope)
          (Decoder.nodes context other body (outer.map (Scope.shift around.front))
            (Scope.shift around.front scope))
  | [], _, _, _ => .pure rfl
  | head :: rest, hhides, outer, scope =>
    .bind (node henter head (fun e he => hhides e (mem_bodyExpressions_cons.2 (.inl he))) outer scope)
      fun added =>
        nodes henter rest (fun e he => hhides e (mem_bodyExpressions_cons.2 (.inr he))) outer added
termination_by structural body => body

theorem node (henter : Enters around context enter other) : ∀ (tree : Node),
    (∀ expression ∈ bodyExpressions [tree], around.Hides expression) →
      ∀ (outer : List Scope) (scope : Scope),
        Lifts around (Scope.shift around.front) (Decoder.node context enter tree outer scope)
          (Decoder.node context other tree (outer.map (Scope.shift around.front))
            (Scope.shift around.front scope))
  | .field declared, hhides, outer, scope =>
    .bind (field henter (fun _ h => hhides _ (length_mem_bodyExpressions h)) (scope :: outer))
      fun result => .add scope result
  | .block head body, hhides, outer, scope => by
    have hcondition := hhides _ (mem_bodyExpressions_block.2 (.inl rfl))
    have hinner (scopes : List Scope) :
        Lifts around (Scope.shift around.front) (Decoder.nodes context enter body scopes [])
          (Decoder.nodes context other body (scopes.map (Scope.shift around.front)) []) :=
      nodes henter body (fun e he => hhides e (mem_bodyExpressions_block.2 (.inr he))) scopes []
    unfold Decoder.node
    dsimp only
    refine .ite ⟨fun {r s _ _} hholds hwarnings hrun => ?_⟩ ?_
    · rw [get_bind] at hrun ⊢
      have hsteps : r.source.unread + 1 ≤ s.source.unread + 1 := by
        have hunread := hholds.unread
        omega
      exact (loop hcondition hinner outer hsteps 0 [] scope).run hholds hwarnings hrun
    · refine .bind (.entered hcondition (scope :: outer)) fun enters => .ite ?_ (.pure rfl)
      exact .bind (hinner _) fun fields => .addAll scope fields
termination_by structural tree => tree

end

/-- With more levels than they need, the bodies of structs are decoded alike. -/
theorem structBody {levels more : Nat} (hlevels : levels ≤ more)
    (hhides : ∀ type : StructDef, .struct type ∈ context.types.definitions →
      ∀ expression ∈ bodyExpressions type.body, around.Hides expression) :
    Enters around context (structBody context levels) (structBody context more) := by
  induction levels generalizing more with
  | zero => exact fun _ _ => .throw
  | succ levels ih =>
    cases more with
    | zero => exact absurd hlevels (Nat.not_succ_le_zero levels)
    | succ more =>
      intro type htype
      exact nodes (ih (Nat.le_of_succ_le_succ hlevels)) type.body (hhides type htype) [] []

theorem root (body : List Node) (hbody : ∀ expression ∈ bodyExpressions body, around.Hides expression)
    (hhides : ∀ type : StructDef, .struct type ∈ context.types.definitions →
      ∀ expression ∈ bodyExpressions type.body, around.Hides expression) :
    Lifts around (Scope.shift around.front) (root context body) (root context body) where
  run {r s _ _} hholds hwarnings hrun := by
    have hlevels : context.types.size * (r.source.unread + 1)
        ≤ context.types.size * (s.source.unread + 1) := by
      have hunread := hholds.unread
      exact Nat.mul_le_mul_left _ (by omega)
    exact (nodes (structBody hlevels hhides) body hbody [] []).run hholds hwarnings hrun

end Lifts

end Decoder

/-- A decode by a schema whose expressions see no difference comes to the same result inside the
surroundings, but for the offsets. -/
theorem Schema.decode_of_holds {schema : Schema} {options : Options} {around : Surroundings}
    (hhides : ∀ expression ∈ schema.expressions, around.Hides expression) {source other : Source}
    (hholds : around.Holds source other) {decoded : Decoded} {reading : Reading}
    (h : schema.decode options source = .ok decoded reading) :
    ∃ reached, schema.decode options other = .ok
      ⟨decoded.fields.shift around.front, decoded.consumed, decoded.warnings⟩ reached := by
  unfold decode at h ⊢
  cases hroot : schema.root with
  | none =>
    rw [hroot] at h
    cases h
  | some body =>
    rw [hroot] at h
    dsimp only at h ⊢
    have hlifts : Decoder.Lifts around (Scope.shift around.front)
        (Decoder.root ⟨schema.types, options⟩ body) (Decoder.root ⟨schema.types, options⟩ body) := by
      refine .root body (fun e he => hhides e ?_) fun type htype e he => hhides e ?_
      · exact List.mem_append_left _ (by rw [hroot]; exact he)
      · exact List.mem_append_right _ (List.mem_flatMap.2 ⟨_, htype, he⟩)
    cases hrun : Decoder.root ⟨schema.types, options⟩ body ⟨source, []⟩ with
    | error failure t =>
      rw [hrun] at h
      cases h
    | ok fields t =>
      rw [hrun] at h
      cases h
      obtain ⟨u, hother, hafter, hwarnings⟩ :=
        hlifts.run (r := ⟨source, []⟩) (s := ⟨other, []⟩) hholds rfl hrun
      have hconsumed : u.source.position - other.position = reading.source.position - source.position := by
        rw [hafter.position, hholds.position, Nat.add_sub_add_right]
      rw [hother]
      dsimp only
      rw [hconsumed, hwarnings]
      exact ⟨u, rfl⟩

theorem Source.holds_ofBytes (front bytes back : List UInt8) (chunk : Option Nat) :
    Surroundings.Holds ⟨front.length, back⟩ (.ofBytes bytes 0 chunk)
      (.ofBytes (front ++ bytes ++ back) front.length chunk) where
  position := (Nat.zero_add _).symm
  rest := by
    change (front ++ bytes ++ back).drop front.length = bytes ++ back
    rw [List.append_assoc, List.drop_left]
  chunk := rfl

/-- A decode by a schema without probes of the end and the size depends on nothing but the bytes that it
takes: it comes to the same result where these stand inside a longer input, but for the offsets. Probes
of the position are no hindrance if there is nothing in front. -/
theorem decode_inside {schema : Schema} {options : Options} {bytes : List UInt8} {chunk : Option Nat}
    (front back : List UInt8) (hend : ¬ schema.Probes "@eof") (hsize : ¬ schema.Probes "@size")
    (hposition : front = [] ∨ ¬ schema.Probes "@pos") {decoded : Decoded} {reading : Reading}
    (h : schema.decode options (.ofBytes bytes 0 chunk) = .ok decoded reading) :
    ∃ reached,
      schema.decode options (.ofBytes (front ++ bytes ++ back) front.length chunk) = .ok
        ⟨decoded.fields.shift front.length, decoded.consumed, decoded.warnings⟩ reached := by
  refine Schema.decode_of_holds (fun expression hmem => ?_)
    (Source.holds_ofBytes front bytes back chunk) h
  refine ⟨fun hprobes => hend ⟨_, hmem, hprobes⟩, fun hprobes => hsize ⟨_, hmem, hprobes⟩, ?_⟩
  rcases hposition with rfl | hposition
  · exact .inl rfl
  · exact .inr fun hprobes => hposition ⟨_, hmem, hprobes⟩

/-- Parts of an enum and a counted array, each behind a number, up to the number zero. -/
def Schema.parts : Schema where
  types := {
    definitions := [
      .enum ⟨"Level", .byte, [⟨"Low", 1⟩, ⟨"High", 2⟩], ⟨1, 1⟩⟩,
      .struct ⟨"Part", [
        .field { name := "level", type := .named .enum "Level", pos := ⟨2, 15⟩ },
        .field { name := "count", type := .primitive .byte, pos := ⟨2, 30⟩ },
        .field { name := "data", type := .primitive .byte, pos := ⟨2, 44⟩
                 length := some ⟨[⟨.name, "count", ⟨2, 56⟩⟩], ⟨2, 56⟩⟩ }], ⟨2, 1⟩⟩]
    frozen := true }
  root := some [
    .field { name := "n", type := .primitive .byte, pos := ⟨4, 3⟩ },
    .block ⟨⟨true, false⟩, ⟨[⟨.name, "n", ⟨5, 10⟩⟩], ⟨5, 10⟩⟩, ⟨5, 3⟩⟩ [
      .field { name := "part", type := .named .struct "Part", pos := ⟨6, 5⟩ },
      .field { name := "n", type := .primitive .byte, pos := ⟨7, 5⟩ }]]

theorem decode_inside_parts :
    ∃ decoded reading reached,
      Schema.parts.decode {} (.ofBytes [1, 9, 2, 5, 6, 0]) = .ok decoded reading ∧
        Schema.parts.decode {} (.ofBytes [1, 1, 1, 9, 2, 5, 6, 0, 1] 2) = .ok
          ⟨decoded.fields.shift 2, decoded.consumed, decoded.warnings⟩ reached := by
  have hcount : Schema.parts.consumed? {} (.ofBytes [1, 9, 2, 5, 6, 0]) = some 6 := by
    decide +kernel
  obtain ⟨decoded, reading, hrun, -⟩ := Schema.decode_of_consumed? hcount
  obtain ⟨reached, hreached⟩ := decode_inside [1, 1] [1] (by decide +kernel) (by decide +kernel)
    (.inr (by decide +kernel)) hrun
  exact ⟨decoded, reading, reached, hrun, hreached⟩

end BinarySchema
