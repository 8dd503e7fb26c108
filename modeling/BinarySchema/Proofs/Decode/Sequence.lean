import BinarySchema.Proofs.Decode.Inlining
import BinarySchema.Proofs.Decode.Progress

/-!
# One decode behind another

A body that is decoded where another one has ended comes to the same results as in one decode of both
bodies, if these have no name twice.

In the one decode the second body finds more than in a decode of its own: warnings that were given
before, further levels for structs within structs, and the results of the first body in the scope around
it. A decode that comes to a result makes nothing of either. It only adds to the warnings, it has not
used up the levels that it had, and each name that it has looked up was a name of its own, so that it
never went on to the scopes behind. `Continues` is this relation between the two decodes, kept by every
construct; that the results then go to the scope of the first body is `Decoder.Splices`.
-/

namespace BinarySchema

def Reading.behind (reading : Reading) (earlier : List UnlistedValue) : Reading :=
  { reading with warnings := earlier ++ reading.warnings }

/-! ### Longer chains -/

/-- That each name which means something in a chain of scopes means the same in another one. -/
def Scope.KeepsNames (chain other : List Scope) : Prop :=
  ∀ name result, resolve? chain name = some result → resolve? other name = some result

namespace Scope.KeepsNames

variable {chain other : List Scope}

theorem nil (other : List Scope) : KeepsNames [] other :=
  fun _ _ hfound => nomatch hfound

theorem cons (h : KeepsNames chain other) (scope : Scope) :
    KeepsNames (scope :: chain) (scope :: other) := by
  intro name result hfound
  rw [resolve?_cons, Option.or_eq_some_iff] at hfound ⊢
  exact hfound.imp_right fun ⟨hmissing, hbehind⟩ => ⟨hmissing, h name result hbehind⟩

theorem append (h : KeepsNames chain other) (front : List Scope) :
    KeepsNames (front ++ chain) (front ++ other) := by
  induction front with
  | nil => exact h
  | cons scope front ih => exact ih.cons scope

theorem carries (h : KeepsNames chain other) (source : Source) (types : TypeTable)
    (terms : List Term) :
    Expression.Carries ⟨source.position, source.size, chain, types⟩
      ⟨source.position, source.size, other, types⟩ terms :=
  fun _ _ _ hvalue => hvalue.transfer rfl rfl rfl fun name _ outer hfound _ => h name outer hfound

end Scope.KeepsNames

namespace Decoder

open Scope (KeepsNames Joins)

variable {α β : Type} {context : DecodeContext} {earlier : List UnlistedValue}

/-- That a decoder which comes to a result also does so behind earlier warnings, by another decoder: to
the same result, with the same bytes taken and the same warnings added. -/
structure Continues (earlier : List UnlistedValue) (x y : Decoder α) : Prop where
  run {r s : Reading} {a : α} : x r = .ok a s → y (r.behind earlier) = .ok a (s.behind earlier)

namespace Continues

theorem pure (a : α) : Continues earlier (Pure.pure a) (Pure.pure a) where
  run hrun := by
    obtain ⟨rfl, rfl⟩ := pure_ok_iff.1 hrun
    rfl

theorem throw {e : Failure} {y : Decoder α} : Continues earlier (MonadExcept.throw e) y where
  run hrun := (throw_ok_iff.1 hrun).elim

theorem refused {e : Failure} {f : β → Decoder α} {y : Decoder α} :
    Continues earlier (MonadExcept.throw e >>= f) y where
  run hrun := by
    obtain ⟨_, _, hthrow, -⟩ := bind_ok_iff.1 hrun
    exact (throw_ok_iff.1 hthrow).elim

theorem bind {x y : Decoder α} {f g : α → Decoder β} (hx : Continues earlier x y)
    (hf : ∀ a, Continues earlier (f a) (g a)) : Continues earlier (x >>= f) (y >>= g) where
  run hrun := by
    obtain ⟨a, t, hfirst, hrest⟩ := bind_ok_iff.1 hrun
    exact bind_ok_iff.2 ⟨a, _, hx.run hfirst, (hf a).run hrest⟩

theorem ite {c : Prop} [Decidable c] {x y v w : Decoder α} (hthen : Continues earlier x y)
    (helse : Continues earlier v w) :
    Continues earlier (if c then x else v) (if c then y else w) := by
  split
  · exact hthen
  · exact helse

/-! ### Single values -/

theorem position : Continues earlier position position where
  run hrun := by
    cases hrun
    rfl

theorem read (count : Nat) (label : String) :
    Continues earlier (read count label) (read count label) where
  run {r s bytes} hrun := by
    rw [read_run] at hrun ⊢
    dsimp only [Reading.behind]
    generalize r.source.read count = run at hrun ⊢
    obtain ⟨got, next⟩ := run
    cases got with
    | error available => cases hrun
    | ok taken =>
      cases hrun
      rfl

theorem readUntilNul (label : String) :
    Continues earlier (readUntilNul label) (readUntilNul label) where
  run {r s bytes} hrun := by
    rw [readUntilNul_run] at hrun ⊢
    dsimp only [Reading.behind]
    generalize r.source.readUntilNul = run at hrun ⊢
    obtain ⟨got, next⟩ := run
    cases got with
    | none => cases hrun
    | some taken =>
      cases hrun
      rfl

theorem evaluate {chain other : List Scope} (hkeeps : KeepsNames chain other)
    (expression : Expression) (label : String) (f : Number.Outcome → α) :
    Continues earlier
      (evaluate context chain label fun state => (expression.evaluate state).map f)
      (evaluate context other label fun state => (expression.evaluate state).map f) where
  run {r s a} hrun := by
    obtain ⟨rfl, hvalue⟩ := evaluate_ok hrun
    obtain ⟨v, hexpression, rfl⟩ := Except.map_ok_iff.1 hvalue
    have hother := Expression.evaluate_transfer hexpression
      (hkeeps.carries s.source context.types expression.terms)
    exact evaluate_of_ok (Except.map_ok_iff.2 ⟨v, hother, rfl⟩)

theorem entered {chain other : List Scope} (hkeeps : KeepsNames chain other) (head : BlockHead) :
    Continues earlier (entered context head chain) (entered context head other) where
  run {r s enters} hrun := by
    obtain rfl := entered_ok hrun
    exact entered_transfer hrun (hkeeps.carries s.source context.types _)

theorem ofCodec (text : Except Text.CodecFault α) :
    Continues earlier (ofCodec text) (ofCodec text) := by
  cases text with
  | ok value => exact .pure value
  | error fault => exact .throw

theorem warn (unlisted : UnlistedValue) : Continues earlier (warn unlisted) (warn unlisted) where
  run {r s u} hrun := by
    cases hrun
    have hwarnings : earlier ++ r.warnings ++ [unlisted] = earlier ++ (r.warnings ++ [unlisted]) :=
      List.append_assoc ..
    exact congrArg (fun warnings => EStateM.Result.ok () { r with warnings }) hwarnings

theorem add (scope : Scope) (result : Result) :
    Continues earlier (add scope result) (add scope result) := by
  unfold Decoder.add
  cases scope.add result with
  | ok added => exact .pure added
  | error duplicate => exact .throw

theorem addAll (scope : Scope) (results : List Result) :
    Continues earlier (addAll scope results) (addAll scope results) := by
  induction results generalizing scope with
  | nil => exact .pure scope
  | cons result rest ih => exact .bind (.add scope result) ih

theorem primitive (type : Primitive) (name : String) :
    Continues earlier (primitive context type name) (primitive context type name) := by
  unfold Decoder.primitive
  split
  · exact .bind (.readUntilNul name) fun bytes => .bind (.ofCodec _) fun value => .pure _
  · exact .bind (.read _ name) fun bytes => .bind (.ofCodec _) fun value => .pure _

theorem baseInteger (base : Primitive) (name : String) :
    Continues earlier (baseInteger context base name) (baseInteger context base name) := by
  unfold Decoder.baseInteger
  refine .bind .position fun offset => .bind (.primitive base name) ?_
  rintro ⟨value, size⟩
  dsimp only
  cases value.baseInteger? with
  | some n => exact .pure (n, size)
  | none => exact .throw

theorem checkListed (type : EnumDef) (name : String) (raw : Int) (offset : Nat) :
    Continues earlier (checkListed context type name raw offset)
      (checkListed context type name raw offset) :=
  .ite (.ite .throw (.warn _)) (.pure ())

theorem enum (type : EnumDef) (name : String) (comment : Option String) :
    Continues earlier (enum context type name comment) (enum context type name comment) := by
  rw [enum_eq]
  refine .bind .position fun offset => .bind (.baseInteger type.base name) ?_
  rintro ⟨raw, size⟩
  exact .bind (.checkListed type name raw offset) fun _ => .pure _

theorem bitfieldMembers (base : Primitive) (offset size : Nat) (members : List BitfieldMember)
    (bits : Int) (scope : Scope) :
    Continues earlier (bitfieldMembers base offset size members bits scope)
      (bitfieldMembers base offset size members bits scope) := by
  induction members generalizing bits scope with
  | nil => exact .pure scope
  | cons member rest ih =>
    -- The two refusals stand in front of the member, and neither of them is met.
    refine .ite .refused (.ite .refused ?_)
    exact .bind (.add scope _) fun added => ih _ added

theorem bitfield (type : BitfieldDef) (name : String) (comment : Option String) :
    Continues earlier (bitfield context type name comment)
      (bitfield context type name comment) := by
  unfold Decoder.bitfield
  refine .bind .position fun offset => .bind (.baseInteger type.base name) ?_
  rintro ⟨raw, size⟩
  exact .bind (.bitfieldMembers _ offset size _ raw []) fun members => .pure _

variable {enter another : List Node → Decoder Scope}

theorem value (henter : ∀ body, Continues earlier (enter body) (another body)) (type : TypeRef)
    (name : String) (comment : Option String) :
    Continues earlier (value context enter type name comment)
      (value context another type name comment) := by
  unfold Decoder.value
  refine .bind .position fun offset => ?_
  cases type with
  | primitive type => exact .bind (.primitive type name) fun _ => .pure _
  | named kind typeName =>
    cases kind with
    | primitive => exact .throw
    | array => exact .throw
    | struct =>
      dsimp only
      split
      · exact .bind (henter _) fun fields => .pure _
      · exact .throw
    | enum =>
      dsimp only
      split
      · exact .enum ..
      · exact .throw
    | bitfield =>
      dsimp only
      split
      · exact .bitfield ..
      · exact .throw

theorem elements {element other : String → Decoder Result}
    (helement : ∀ name, Continues earlier (element name) (other name)) (name : String)
    (count index : Nat) (done : List Result) :
    Continues earlier (elements element name count index done)
      (elements other name count index done) := by
  induction count generalizing index done with
  | zero => exact .pure done.reverse
  | succ count ih => exact .bind (helement _) fun result => ih _ (result :: done)

theorem field (henter : ∀ body, Continues earlier (enter body) (another body))
    {chain other : List Scope} (hkeeps : KeepsNames chain other) (declared : Field) :
    Continues earlier (field context enter declared chain)
      (field context another declared other) := by
  unfold Decoder.field
  cases declared.length with
  | none => exact value henter ..
  | some length =>
    dsimp only
    unfold array
    refine .bind .position fun offset => .bind (.evaluate hkeeps length _ _) fun count => .ite ?_ ?_
    · exact .bind (.read count _) fun bytes => .bind (.ofCodec _) fun text => .pure _
    · exact .bind (elements (fun name => value henter ..) _ count 0 []) fun items => .pure _

/-! ### Loops -/

theorem checkLimit (head : BlockHead) (iteration start : Nat) :
    Continues earlier (checkLimit context head iteration start)
      (checkLimit context head iteration start) := by
  unfold Decoder.checkLimit
  cases context.options.maxLoopIterations with
  | some limit => exact .ite .throw (.pure ())
  | none => exact .pure ()

theorem checkProgress (head : BlockHead) (start : Nat) :
    Continues earlier (checkProgress head start) (checkProgress head start) :=
  .bind .position fun _ => .ite .throw (.pure ())

theorem loop (head : BlockHead) {body next : List Scope → Decoder Scope}
    (hbody : ∀ {chain other}, KeepsNames chain other → Continues earlier (body chain) (next other))
    {outer around : List Scope} (hkeeps : KeepsNames outer around) (steps iteration : Nat)
    (visible : List Scope) (scope : Scope) :
    Continues earlier (loop context head body outer steps iteration visible scope)
      (loop context head next around steps iteration visible scope) := by
  induction steps generalizing iteration visible scope with
  | zero => exact .bind .position fun _ => .throw
  | succ steps ih =>
    rw [loop_succ, loop_succ]
    refine .bind (.entered ((hkeeps.cons scope).append visible) head) fun enters => .ite ?_ (.pure scope)
    refine .bind .position fun start => .bind (.checkLimit ..) fun _ => ?_
    refine .bind (hbody (hkeeps.cons scope)) fun fields => ?_
    refine .bind (.addAll ..) fun joined => .bind (.checkProgress ..) fun _ => ?_
    exact ih (iteration + 1) [fields] joined

/-! ### Bodies -/

mutual

theorem nodes (henter : ∀ body, Continues earlier (enter body) (another body)) :
    ∀ (body : List Node) {outer around : List Scope}, KeepsNames outer around → ∀ scope,
      Continues earlier (Decoder.nodes context enter body outer scope)
        (Decoder.nodes context another body around scope)
  | [], _, _, _, scope => .pure scope
  | head :: rest, _, _, hkeeps, scope =>
    .bind (node henter head hkeeps scope) fun added => nodes henter rest hkeeps added
termination_by structural body => body

theorem node (henter : ∀ body, Continues earlier (enter body) (another body)) :
    ∀ (tree : Node) {outer around : List Scope}, KeepsNames outer around → ∀ scope,
      Continues earlier (Decoder.node context enter tree outer scope)
        (Decoder.node context another tree around scope)
  | .field declared, _, _, hkeeps, scope =>
    .bind (field henter (hkeeps.cons scope) declared) fun result => .add scope result
  | .block head body, _, _, hkeeps, scope => by
    have hinner {chain other : List Scope} (h : KeepsNames chain other) :
        Continues earlier (Decoder.nodes context enter body chain [])
          (Decoder.nodes context another body other []) :=
      nodes henter body h []
    unfold Decoder.node
    dsimp only
    refine .ite ⟨fun {r s _} hrun => ?_⟩ ?_
    · rw [get_bind] at hrun ⊢
      exact (loop head hinner hkeeps (r.source.unread + 1) 0 [] scope).run hrun
    · refine .bind (.entered (hkeeps.cons scope) head) fun enters => .ite ?_ (.pure scope)
      exact .bind (hinner (hkeeps.cons scope)) fun fields => .addAll scope fields
termination_by structural tree => tree

end

/-- With more levels than they need, the bodies of structs are decoded alike. -/
theorem structBody {levels more : Nat} (hlevels : levels ≤ more) (body : List Node) :
    Continues earlier (structBody context levels body) (structBody context more body) := by
  induction levels generalizing more body with
  | zero => exact .throw
  | succ levels ih =>
    cases more with
    | zero => exact absurd hlevels (Nat.not_succ_le_zero levels)
    | succ more => exact nodes (ih (Nat.le_of_succ_le_succ hlevels)) body (.nil []) []

end Continues

/-! ### Two bodies -/

variable {enter : List Node → Decoder Scope} {r s t : Reading}

theorem nodes_append (first second : List Node) (outer : List Scope) (scope : Scope) :
    nodes context enter (first ++ second) outer scope
      = nodes context enter first outer scope >>= nodes context enter second outer := by
  induction first generalizing scope with
  | nil => exact (pure_bind scope _).symm
  | cons head rest ih =>
    change (node context enter head outer scope >>= nodes context enter (rest ++ second) outer)
      = (node context enter head outer scope >>= nodes context enter rest outer) >>= _
    rw [bind_assoc]
    exact congrArg _ (funext ih)

theorem nodes_distinct {body : List Node} {outer : List Scope} {fields : Scope}
    (h : nodes context enter body outer [] r = .ok fields s) : (Scope.names fields).Nodup := by
  have hsplices : Splices [] (nodes context enter body outer ([] ++ []))
      (nodes context enter body ([] :: outer) []) :=
    Splices.nodes body outer (Joins.nil [])
  obtain ⟨added, -, hjoins, rfl⟩ := (hsplices r fields s).1 h
  exact hjoins.1

/-- What a body comes to on its own, it adds to the results of a body before it, if it takes no name of
these. -/
theorem nodes_behind {body : List Node} {scope fields : Scope}
    (h : nodes context enter body [] [] r = .ok fields s)
    {another : List Node → Decoder Scope} (henter : ∀ type, Continues earlier (enter type) (another type))
    (hapart : ∀ name ∈ Scope.names fields, name ∉ Scope.names scope) :
    nodes context another body [] scope (r.behind earlier) = .ok (scope ++ fields) (s.behind earlier) := by
  have hinner : nodes context another body [scope] [] (r.behind earlier)
      = .ok fields (s.behind earlier) :=
    (Continues.nodes henter body (.nil [scope]) []).run h
  have hsplices : Splices scope (nodes context another body [] (scope ++ []))
      (nodes context another body [scope] []) :=
    Splices.nodes body [] (Joins.nil scope)
  rw [List.append_nil] at hsplices
  exact (hsplices _ _ _).2 ⟨fields, hinner, ⟨nodes_distinct h, hapart⟩, rfl⟩

end Decoder

theorem Schema.decode_ok_iff {schema : Schema} {body : List Node} (hroot : schema.root = some body)
    {options : Options} {source : Source} {decoded : Decoded} {reading : Reading} :
    schema.decode options source = .ok decoded reading ↔
      Decoder.root ⟨schema.types, options⟩ body ⟨source, []⟩ = .ok decoded.fields reading ∧
        decoded.consumed = reading.source.position - source.position ∧
        decoded.warnings = reading.warnings := by
  unfold decode
  rw [hroot]
  dsimp only
  cases Decoder.root ⟨schema.types, options⟩ body ⟨source, []⟩ with
  | error failure reached => simp
  | ok fields reached =>
    constructor
    · intro h
      cases h
      exact ⟨rfl, rfl, rfl⟩
    · obtain ⟨_, _, _⟩ := decoded
      rintro ⟨hfields, rfl, rfl⟩
      cases hfields
      rfl

/-- Decodes over one stream compose. If one root body is decoded and then another one where it ended, and
the two have no name in common, both are decoded as one root body: to the fields, the bytes and the
warnings of the first followed by those of the second. -/
theorem decode_append {schema : Schema} {options : Options} {source : Source}
    {first second : List Node} {start rest : Decoded} {middle last : Reading}
    (hfirst : { schema with root := some first }.decode options source = .ok start middle)
    (hsecond : { schema with root := some second }.decode options middle.source = .ok rest last)
    (hapart : ∀ name ∈ Scope.names start.fields, name ∉ Scope.names rest.fields) :
    { schema with root := some (first ++ second) }.decode options source = .ok
      ⟨start.fields ++ rest.fields, start.consumed + rest.consumed, start.warnings ++ rest.warnings⟩
      (last.behind start.warnings) := by
  obtain ⟨hconsumes, hmiddle⟩ := Schema.decode_consumes hfirst
  obtain ⟨-, hlast⟩ := Schema.decode_consumes hsecond
  obtain ⟨hfirst, -, hwarned⟩ := (Schema.decode_ok_iff rfl).1 hfirst
  obtain ⟨hsecond, -, hwarnings⟩ := (Schema.decode_ok_iff rfl).1 hsecond
  -- The second body was decoded with fewer levels, as there was less to read.
  have hunread : middle.source.unread ≤ source.unread := Source.unread_le_of_consumes ⟨_, hconsumes⟩
  have hlevels : schema.types.size * (middle.source.unread + 1)
      ≤ schema.types.size * (source.unread + 1) :=
    Nat.mul_le_mul_left _ (Nat.succ_le_succ hunread)
  have henter (body : List Node) : Decoder.Continues middle.warnings
      (Decoder.structBody ⟨schema.types, options⟩ (schema.types.size * (middle.source.unread + 1)) body)
      (Decoder.structBody ⟨schema.types, options⟩ (schema.types.size * (source.unread + 1)) body) :=
    .structBody hlevels body
  have hbehind := Decoder.nodes_behind hsecond henter fun name hname hmem => hapart name hmem hname
  have hstart : Reading.behind ⟨middle.source, []⟩ middle.warnings = middle := by
    rw [Reading.behind, List.append_nil]
  rw [hstart] at hbehind
  refine (Schema.decode_ok_iff rfl).2 ⟨?_, ?_, ?_⟩
  · change Decoder.nodes _ _ (first ++ second) [] [] _ = _
    rw [Decoder.nodes_append, hwarned]
    exact Decoder.bind_ok_iff.2 ⟨_, middle, hfirst, hbehind⟩
  · change start.consumed + rest.consumed = last.source.position - source.position
    omega
  · change start.warnings ++ rest.warnings = start.warnings ++ last.warnings
    rw [hwarnings]

/-- The body `level : Level; sample : byte;`, then `mode : Level; m : byte;` and a loop
`while (@pos < 7) { sample : byte; unless (sample = m) { extra : byte; } }`, in which the samples have the
name of the first one. Both levels are unlisted. -/
theorem decode_append_sampled :
    let name (text : String) : Term := ⟨.name, text, .first⟩
    let level (text : String) : Node :=
      .field { name := text, type := .named .enum "Level", pos := .first }
    let byte (text : String) : Node := .field { name := text, type := .primitive .byte, pos := .first }
    let block (repeats negated : Bool) (condition : List Term) (body : List Node) : Node :=
      .block ⟨⟨repeats, negated⟩, ⟨condition, .first⟩, .first⟩ body
    let first : List Node := [level "level", byte "sample"]
    let second : List Node := [
      level "mode",
      byte "m",
      block true false [⟨.probe, "@pos", .first⟩, ⟨.operator, "<", .first⟩, ⟨.number 7, "7", .first⟩] [
        byte "sample",
        block false true [name "sample", ⟨.operator, "=", .first⟩, name "m"] [byte "extra"]]]
    let schema : Schema := {
      types := { definitions := [.enum ⟨"Level", .byte, [⟨"Low", 1⟩], .first⟩], frozen := true } }
    let source (position : Nat) : Source := .ofBytes [9, 7, 3, 2, 5, 8, 2] position
    let entry (text : String) (offset value : Int) : Result :=
      { kind := .primitive, name := text, offset, size := 1, typeName := "byte", value := .int value }
    let unlisted (text : String) (offset raw : Int) : Result :=
      { kind := .enum, name := text, offset, size := 1, typeName := "Level", value := .null, raw }
    let start : Decoded := ⟨[unlisted "level" 0 9, entry "sample" 1 7], 2, [⟨"level", 9, "Level"⟩]⟩
    let rest : Decoded := ⟨[unlisted "mode" 2 3, entry "m" 3 2, entry "sample[0]" 4 5,
      entry "extra[0]" 5 8, entry "sample[1]" 6 2], 5, [⟨"mode", 3, "Level"⟩]⟩
    { schema with root := some first }.decode {} (source 0)
        = .ok start ⟨source 2, start.warnings⟩ ∧
      { schema with root := some second }.decode {} (source 2)
        = .ok rest ⟨source 7, rest.warnings⟩ ∧
      { schema with root := some (first ++ second) }.decode {} (source 0) = .ok
        ⟨start.fields ++ rest.fields, 7, start.warnings ++ rest.warnings⟩
        ⟨source 7, start.warnings ++ rest.warnings⟩ := by
  intro name level byte block first second schema source entry unlisted start rest
  have hfirst : { schema with root := some first }.decode {} (source 0)
      = .ok start ⟨source 2, start.warnings⟩ := by
    rfl
  have hsecond : { schema with root := some second }.decode {} (source 2)
      = .ok rest ⟨source 7, rest.warnings⟩ := by
    rfl
  exact ⟨hfirst, hsecond, decode_append hfirst hsecond (by decide)⟩

end BinarySchema
