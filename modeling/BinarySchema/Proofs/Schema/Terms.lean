import BinarySchema.Proofs.Schema.Print
import BinarySchema.Proofs.Schema.References
import BinarySchema.Proofs.Token.Lexemes

/-!
# The expressions of compiled schemas

Every length and condition of a compiled schema is a row of the terms that there are words for, and it is
not empty. So whoever evaluates them only meets numbers that are not negative, the operators of the
source language, the three probes, identifiers, and identifiers with points between them.

The tokens of a source are well spelled, and a reader leaves no others behind than it found. `Yields` says
this together with what is known of the result, and composes along the readers of the grammar.
-/

namespace BinarySchema

/-! ### Bodies -/

/-- That the lengths and the conditions of a body are plain. -/
structure PlainTerms (body : List Node) : Prop where
  lengths : ∀ declared ∈ bodyFields body, ∀ length ∈ declared.length, length.Plain
  conditions : ∀ head ∈ bodyHeads body, head.condition.Plain

def Definition.PlainTerms : Definition → Prop
  | .struct d => BinarySchema.PlainTerms d.body
  | .enum _ | .bitfield _ => True

namespace PlainTerms

theorem nil : PlainTerms [] where
  lengths := nofun
  conditions := nofun

theorem fields {declared : List Field} (h : ∀ field ∈ declared, ∀ length ∈ field.length, length.Plain) :
    PlainTerms (declared.map Node.field) where
  lengths := by rwa [bodyFields_map_field]
  conditions := by rw [bodyHeads_map_field]; nofun

theorem append {left right : List Node} (hleft : PlainTerms left) (hright : PlainTerms right) :
    PlainTerms (left ++ right) where
  lengths := by
    rw [bodyFields_append]
    exact List.forall_mem_append.2 ⟨hleft.lengths, hright.lengths⟩
  conditions := by
    rw [bodyHeads_append]
    exact List.forall_mem_append.2 ⟨hleft.conditions, hright.conditions⟩

theorem block {head : BlockHead} {body : List Node} (hhead : head.condition.Plain)
    (hbody : PlainTerms body) : PlainTerms [.block head body] where
  lengths := by
    rw [bodyFields_cons, Node.fields_block, bodyFields_nil, List.append_nil]
    exact hbody.lengths
  conditions := by
    rw [bodyHeads_cons, Node.heads_block, bodyHeads_nil, List.append_nil]
    exact List.forall_mem_cons.2 ⟨hhead, hbody.conditions⟩

end PlainTerms

/-- That the terms of all definitions are plain. -/
def TypeTable.PlainTerms (types : TypeTable) : Prop :=
  ∀ definition ∈ types.definitions, definition.PlainTerms

namespace TypeTable

theorem PlainTerms.define {types : TypeTable} (h : types.PlainTerms) {definition : Definition}
    (hdefinition : definition.PlainTerms) :
    (Reader.changeTypes (types.define definition) types).PlainTerms :=
  Reader.forall_define h hdefinition

theorem PlainTerms.reserve {types : TypeTable} (h : types.PlainTerms) (name : String)
    (kind : FieldKind) : (Reader.changeTypes (types.reserve name kind) types).PlainTerms := by
  unfold PlainTerms
  rwa [Reader.definitions_reserve]

end TypeTable

structure Draft.PlainTerms (draft : Draft) : Prop where
  types : draft.types.PlainTerms
  root : ∀ body ∈ draft.root, BinarySchema.PlainTerms body

/-! ### Readers -/

namespace Cursor

def WellSpelled (cursor : Cursor) : Prop :=
  ∀ token ∈ cursor.tokens, token.piece.WellSpelled

variable {c d : Cursor} {token : Token}

theorem WellSpelled.skipComments (h : c.WellSpelled) : c.skipComments.WellSpelled :=
  fun token htoken => h token ((List.dropWhile_sublist _).subset htoken)

theorem WellSpelled.peekRaw (h : c.WellSpelled) (hstep : c.peekRaw = (.ok token, d)) :
    d.WellSpelled ∧ token.piece.WellSpelled := by
  unfold Cursor.peekRaw at hstep
  split at hstep
  · rename_i head rest htokens
    cases hstep
    exact ⟨h, h token (by rw [htokens]; exact List.mem_cons_self)⟩
  · split at hstep <;> cases hstep
    exact ⟨h, trivial⟩

theorem WellSpelled.nextRaw (h : c.WellSpelled) (hstep : c.nextRaw = (.ok token, d)) :
    d.WellSpelled ∧ token.piece.WellSpelled := by
  unfold Cursor.nextRaw at hstep
  split at hstep
  · rename_i head rest htokens
    cases hstep
    unfold WellSpelled at h
    rw [htokens] at h
    exact (List.forall_mem_cons.1 h).symm
  · exact h.peekRaw hstep

end Cursor

namespace Reader

variable {α β : Type} {p : α → Prop} {q : β → Prop}

/-- That a reader of well spelled tokens leaves well spelled ones, and comes to a result with a
property. -/
structure Yields (x : Reader α) (p : α → Prop) : Prop where
  of_ok {c d : Cursor} {a : α} : c.WellSpelled → x c = .ok (a, d) → d.WellSpelled ∧ p a

namespace Yields

theorem pure {a : α} (h : p a) : Yields (Pure.pure a) p where
  of_ok hc hrun := by
    obtain ⟨rfl, rfl⟩ := pure_ok_iff.1 hrun
    exact ⟨hc, h⟩

theorem throw (e : CompileError) : Yields (MonadExcept.throw e) p where
  of_ok _ hrun := (throw_ok_iff.1 hrun).elim

theorem bind {x : Reader α} {f : α → Reader β} (hx : Yields x p)
    (hf : ∀ a, p a → Yields (f a) q) : Yields (x >>= f) q where
  of_ok hc hrun := by
    obtain ⟨a, between, hfirst, hsecond⟩ := bind_ok_iff.1 hrun
    obtain ⟨hbetween, ha⟩ := hx.of_ok hc hfirst
    exact (hf a ha).of_ok hbetween hsecond

theorem ite {c : Prop} [Decidable c] {x y : Reader α} (hx : c → Yields x p)
    (hy : ¬ c → Yields y p) : Yields (if c then x else y) p := by
  split
  · rename_i hc
    exact hx hc
  · rename_i hc
    exact hy hc

theorem refuse {c : Prop} [Decidable c] {e : CompileError} {f : α → Reader β} {y : Reader β}
    (hy : Yields y q) : Yields (if c then MonadExcept.throw e >>= f else y) q :=
  ite (fun _ => bind (throw e) fun _ (h : False) => h.elim) fun _ => hy

/-! ### Tokens -/

theorem ofStep {step : Cursor → Except CursorError Token × Cursor}
    (h : ∀ {c d : Cursor} {token : Token}, c.WellSpelled → step c = (.ok token, d) →
      d.WellSpelled ∧ token.piece.WellSpelled) :
    Yields (ofStep step) (·.piece.WellSpelled) where
  of_ok {c d token} hc hrun := by
    unfold Reader.ofStep at hrun
    split at hrun
    · rename_i hstep
      cases hrun
      exact h hc hstep
    · cases hrun

theorem next : Yields next (·.piece.WellSpelled) :=
  ofStep fun hc hstep => hc.skipComments.nextRaw hstep

theorem nextRaw : Yields nextRaw (·.piece.WellSpelled) :=
  ofStep fun hc hstep => hc.nextRaw hstep

theorem peek : Yields peek (·.piece.WellSpelled) :=
  ofStep fun hc hstep => hc.skipComments.peekRaw hstep

theorem peekRaw : Yields peekRaw (·.piece.WellSpelled) :=
  ofStep fun hc hstep => hc.peekRaw hstep

theorem remaining : Yields remaining (fun _ => True) where
  of_ok hc hrun := by
    cases hrun
    exact ⟨hc, trivial⟩

theorem unexpectedEnd (expected : String) : Yields (unexpectedEnd expected) p :=
  bind peek fun _ _ => throw _

theorem expectPunctuation (text : String) : Yields (expectPunctuation text) (fun _ => True) :=
  bind next fun _ _ => ite (fun _ => pure trivial) fun _ => throw _

theorem expectName (what : String) : Yields (expectName what) (fun _ => True) :=
  bind next fun _ _ => ite (fun _ => pure trivial) fun _ => throw _

theorem numberValue (token : Token) : Yields (numberValue token) (fun _ => True) := by
  unfold Reader.numberValue
  split
  · exact pure trivial
  · exact throw _
  · exact throw _

theorem expectNumber : Yields expectNumber (fun _ => True) :=
  bind next fun token _ => ite (fun _ => numberValue token) fun _ => throw _

theorem documentation : Yields documentation (fun _ => True) :=
  bind peekRaw fun _ _ => ite (fun _ => bind nextRaw fun _ _ => pure trivial) fun _ => pure trivial

/-! ### Expressions -/

theorem term (closer : String) {token : Token} (h : token.piece.WellSpelled) :
    Yields (term closer token) Term.Plain := by
  unfold Reader.term
  obtain ⟨kind, text, pos⟩ := token
  cases kind with
  | number => exact bind (numberValue _) fun value _ => pure (Int.natCast_nonneg value)
  | operator => exact pure h
  | word =>
    refine ite (fun hat => ite (fun hprobe => pure (List.contains_iff_mem.1 hprobe)) fun _ => throw _)
      fun hat => ?_
    have hword : Piece.BeginsWord text := h.resolve_right hat
    refine ite (fun hpoint => pure ?_) fun hpoint => pure ?_
    · exact Piece.isDotted_of_beginsWord hword (List.contains_iff_mem.1 hpoint)
    · exact Piece.isIdentifier_of_beginsWord hword fun hmem => hpoint (List.contains_iff_mem.2 hmem)
  | string | punctuation | comment | endOfInput => exact throw _

theorem terms (closer : String) (steps : Nat) :
    Yields (terms closer steps) (fun read => ∀ t ∈ read, t.Plain) := by
  induction steps with
  | zero => exact unexpectedEnd _
  | succ steps ih =>
    refine bind next fun token htoken => ite (fun _ => pure nofun) fun _ => ?_
    refine bind (term closer htoken) fun head hhead => bind ih fun read hread => ?_
    exact pure (List.forall_mem_cons.2 ⟨hhead, hread⟩)

theorem expression (closer : String) : Yields (expression closer) Expression.Plain := by
  refine bind peek fun _ _ => bind remaining fun count _ => bind (terms closer _) fun read hread => ?_
  refine ite (fun _ => throw _) fun hempty => pure ⟨?_, hread⟩
  exact fun hnil => hempty (List.isEmpty_iff.2 hnil)

/-! ### Bodies -/

theorem typeRef (types : TypeTable) (token : Token) :
    Yields (typeRef types token) (fun _ => True) := by
  unfold Reader.typeRef
  split
  · exact pure trivial
  · split
    · exact pure trivial
    · exact throw _

theorem moreNames (steps : Nat) : Yields (moreNames steps) (fun _ => True) := by
  induction steps with
  | zero => exact unexpectedEnd _
  | succ steps ih =>
    refine bind next fun _ _ => ite (fun _ => pure trivial) fun _ => refuse ?_
    exact bind (expectName _) fun _ _ => bind ih fun _ _ => pure trivial

theorem lengthAndEnd : Yields lengthAndEnd (fun read => ∀ length ∈ read, length.Plain) := by
  refine bind next fun _ _ => ite (fun _ => ?_) fun _ => ite (fun _ => pure nofun) fun _ => throw _
  refine bind (expression _) fun length hlength => bind (expectPunctuation _) fun _ _ => pure ?_
  rintro _ ⟨⟩
  exact hlength

theorem fieldDeclaration (types : TypeTable) (first : Token) :
    Yields (fieldDeclaration types first)
      (fun fields => ∀ field ∈ fields, ∀ length ∈ field.length, length.Plain) := by
  refine refuse (bind remaining fun _ _ => bind (moreNames _) fun more _ => bind next fun _ _ => ?_)
  refine refuse (bind (typeRef types _) fun type _ => bind lengthAndEnd fun length hlength => ?_)
  refine bind documentation fun comment _ => pure fun field hfield => ?_
  obtain ⟨name, -, rfl⟩ := List.mem_map.1 hfield
  exact hlength

theorem blockHead (control : Control) (keyword : Token) :
    Yields (blockHead control keyword) (·.condition.Plain) :=
  bind (expectPunctuation _) fun _ _ => bind (expression _) fun _ h => pure h

theorem nodes (types : TypeTable) (steps : Nat) : Yields (nodes types steps) PlainTerms := by
  induction steps with
  | zero => exact unexpectedEnd _
  | succ steps ih =>
    refine bind next fun token _ => ite (fun _ => pure .nil) fun _ => refuse ?_
    split
    · refine bind (blockHead _ _) fun head hhead => bind (expectPunctuation _) fun _ _ => ?_
      refine bind ih fun inner hinner => bind ih fun rest hrest => pure ?_
      exact (PlainTerms.block hhead hinner).append hrest
    · refine bind (fieldDeclaration types token) fun fields hfields => bind ih fun rest hrest => pure ?_
      exact (PlainTerms.fields hfields).append hrest

theorem body (types : TypeTable) : Yields (body types) PlainTerms :=
  bind (expectPunctuation _) fun _ _ => bind remaining fun _ _ => nodes types _

/-! ### Declarations -/

theorem freshName (types : TypeTable) : Yields (freshName types) (fun _ => True) :=
  bind (expectName _) fun _ _ => refuse (pure trivial)

theorem baseType : Yields baseType (fun _ => True) := by
  refine bind next fun _ _ => ?_
  split
  · exact pure trivial
  · exact throw _

theorem enumValue : Yields enumValue (fun _ => True) := by
  refine bind peek fun _ _ => ite (fun _ => ?_) fun _ => ?_
  · exact bind next fun _ _ => bind expectNumber fun _ _ => pure trivial
  · exact bind expectNumber fun _ _ => pure trivial

theorem enumMembers (steps : Nat) (value : Int) (token : Token) :
    Yields (enumMembers steps value token) (fun _ => True) := by
  induction steps generalizing value token with
  | zero => exact unexpectedEnd _
  | succ steps ih =>
    refine ite (fun _ => pure trivial) fun _ => refuse (bind next fun mark _ => ?_)
    -- The value is written or counted; what follows it is read in the same way.
    refine ite (fun _ => bind enumValue fun own _ => bind next fun mark _ => ?_) fun _ => ?_
    all_goals
      rw [pure_bind]
      refine ite (fun _ => ?_) fun _ => ite (fun _ => ?_) fun _ => ?_
      · exact bind next fun _ _ => bind (ih _ _) fun _ _ => pure trivial
      · rw [pure_bind]
        exact pure trivial
      · exact bind (throw _) fun _ (h : False) => h.elim

theorem bitfieldMembers (steps : Nat) : Yields (bitfieldMembers steps) (fun _ => True) := by
  induction steps with
  | zero => exact unexpectedEnd _
  | succ steps ih =>
    refine bind next fun _ _ => ite (fun _ => pure trivial) fun _ => refuse ?_
    refine bind (expectPunctuation _) fun _ _ => bind expectNumber fun _ _ => ?_
    refine bind (expectPunctuation _) fun _ _ => bind documentation fun _ _ => ?_
    exact bind ih fun _ _ => pure trivial

variable {types : TypeTable}

theorem structDeclaration (h : types.PlainTerms) :
    Yields (structDeclaration types) TypeTable.PlainTerms :=
  bind (freshName types) fun name _ => bind (body _) fun _ hbody =>
    pure ((h.reserve name.text .struct).define hbody)

theorem enumDeclaration (h : types.PlainTerms) :
    Yields (enumDeclaration types) TypeTable.PlainTerms := by
  refine bind (freshName types) fun _ _ => bind (expectPunctuation _) fun _ _ => ?_
  refine bind baseType fun _ _ => bind (expectPunctuation _) fun _ _ => bind remaining fun _ _ => ?_
  exact bind next fun _ _ => bind (enumMembers _ _ _) fun _ _ => pure (h.define trivial)

theorem bitfieldDeclaration (h : types.PlainTerms) :
    Yields (bitfieldDeclaration types) TypeTable.PlainTerms := by
  refine bind (freshName types) fun _ _ => bind (expectPunctuation _) fun _ _ => ?_
  refine bind baseType fun _ _ => bind (expectPunctuation _) fun _ _ => bind remaining fun _ _ => ?_
  exact bind (bitfieldMembers _) fun _ _ => pure (h.define trivial)

/-! ### Sources -/

theorem lift (x : Except CompileError α) : Yields (liftM x) (fun a => x = .ok a) where
  of_ok hc hrun := by
    obtain ⟨hx, rfl⟩ := lift_ok_iff.1 hrun
    exact ⟨hc, hx⟩

theorem includeDirective : Yields Draft.includeDirective (fun _ => True) := by
  refine bind next fun token _ => ?_
  split
  · rw [pure_bind]
    exact bind (expectPunctuation _) fun _ _ => pure trivial
  · rw [pure_bind]
    exact bind (expectPunctuation _) fun _ _ => pure trivial
  · exact bind (throw _) fun _ (h : False) => h.elim

/-- The declarations of a source keep terms plain if those of the included ones do. -/
theorem declarations {fs : FileSystem}
    {enter : Standing → Cursor → Draft → Except CompileError Draft} {standing : Standing}
    (henter : ∀ {standing : Standing} {text : String} {draft after : Draft},
      enter standing (.scan text) draft = .ok after → draft.PlainTerms → after.PlainTerms)
    (steps : Nat) {draft : Draft} (h : draft.PlainTerms) :
    Yields (Draft.declarations fs enter standing steps draft) Draft.PlainTerms := by
  induction steps generalizing draft with
  | zero => exact pure h
  | succ steps ih =>
    refine bind next fun keyword _ => ite (fun _ => pure h) fun _ => ite (fun _ => ?_) fun _ => ?_
    · refine bind includeDirective fun _ _ => bind (lift _) fun target _ => ?_
      split
      · exact ih h
      · refine bind (lift _) fun after hafter => ih ?_
        exact henter hafter ⟨h.types, h.root⟩
    refine ite (fun _ => ?_) fun _ => ite (fun _ => ?_) fun _ => ite (fun _ => ?_) fun _ =>
      ite (fun _ => ?_) fun _ => bind (throw _) fun _ (h : False) => h.elim
    · exact bind (structDeclaration h.types) fun _ htypes => ih ⟨htypes, h.root⟩
    · exact bind (enumDeclaration h.types) fun _ htypes => ih ⟨htypes, h.root⟩
    · exact bind (bitfieldDeclaration h.types) fun _ htypes => ih ⟨htypes, h.root⟩
    · refine bind (body _) fun root hroot => ite (fun _ => ih h) fun _ => refuse (ih ⟨h.types, ?_⟩)
      rintro _ ⟨⟩
      exact hroot

end Yields

end Reader

/-! ### Compiled schemas -/

theorem Draft.plainTerms_read {fs : FileSystem} {levels : Nat} {standing : Standing} {text : String}
    {draft after : Draft} (h : read fs levels standing (.scan text) draft = .ok after)
    (hdraft : draft.PlainTerms) : after.PlainTerms := by
  induction levels generalizing standing text draft after with
  | zero =>
    cases h
    exact hdraft
  | succ levels ih =>
    obtain ⟨⟨_, d⟩, hrun, rfl⟩ := Except.map_ok_iff.1 h
    exact ((Reader.Yields.declarations ih _ hdraft).of_ok (TokenStream.wellSpelled_scan text) hrun).2

theorem Schema.Compiled.plainTerms {schema : Schema} (h : schema.Compiled) :
    schema.types.PlainTerms ∧ ∀ body ∈ schema.root, BinarySchema.PlainTerms body := by
  obtain ⟨fs, levels, standing, text, included, draft, source, hread, rfl⟩ := h.exists_read
  have hempty : Draft.PlainTerms { included } := ⟨nofun, nofun⟩
  have hdraft := Draft.plainTerms_read hread hempty
  exact ⟨hdraft.types, hdraft.root⟩

def Schema.heads (schema : Schema) : List BlockHead :=
  bodyHeads (schema.root.getD []) ++ schema.types.definitions.flatMap Definition.heads

theorem Schema.Compiled.plain_condition {schema : Schema} (h : schema.Compiled) {head : BlockHead}
    (hhead : head ∈ schema.heads) : head.condition.Plain := by
  obtain ⟨htypes, hroot⟩ := h.plainTerms
  rcases List.mem_append.1 hhead with hinside | hinside
  · cases hbody : schema.root with
    | none =>
      rw [hbody] at hinside
      cases hinside
    | some body =>
      rw [hbody] at hinside
      exact (hroot body hbody).conditions head hinside
  · obtain ⟨definition, hdefinition, hmem⟩ := List.mem_flatMap.1 hinside
    have hplain := htypes definition hdefinition
    cases definition with
    | struct type => exact hplain.conditions head hmem
    | enum type => cases hmem
    | bitfield type => cases hmem

end BinarySchema
