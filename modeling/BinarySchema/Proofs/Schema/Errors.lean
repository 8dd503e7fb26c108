import BinarySchema.Proofs.Schema.Declarations

/-!
# Errors of the grammar

What stands behind a keyword is read from one text, and when this fails the error is about that text: no
other source is named in it. So the errors about included sources come from include directives alone,
after their grammar was right.

An error about a text is found in its tokens or at their end. The readers meet no numeral but those of
their own tokens, and where the tokens end with a fault they do not go on behind it. `Draws` says so of a
reader; its rules follow the grammar.
-/

namespace BinarySchema

/-! ### Readers -/

/-- What a reader of some tokens with an end can fail with. -/
inductive CompileError.Arises (source : Token → Prop) (ending : Ending) : CompileError → Prop
  | lexical {error : LexicalError} (hending : ending = .fault error) :
      Arises source ending (.lexical error)
  | unexpected (expected : String) (found : Token) : Arises source ending (.unexpected expected found)
  | alreadyDeclared (name : Token) : Arises source ending (.alreadyDeclared name)
  | unknownType (name : String) (pos : Position) : Arises source ending (.unknownType name pos)
  | numberTooLong {token : Token} {digits : Nat} (htoken : source token)
      (hkind : token.kind = .number)
      (hread : Number.readNumeral token.text.toList = .error (.tooLong digits)) :
      Arises source ending (.numberTooLong digits)
  | spent (hending : ending = .spent) : Arises source ending .spent

/-- That a cursor stands in front of some tokens and an end. -/
structure Cursor.Holds (source : Token → Prop) (ending : Ending) (c : Cursor) : Prop where
  tokens : ∀ token ∈ c.tokens, source token
  ending : c.ending = ending

theorem Cursor.Holds.skipComments {source : Token → Prop} {ending : Ending} {c : Cursor}
    (h : c.Holds source ending) : Cursor.Holds source ending c.skipComments where
  tokens token hmem := h.tokens token ((List.dropWhile_suffix _).subset hmem)
  ending := h.ending

namespace Reader

variable {α β : Type} {source : Token → Prop} {ending : Ending} {p : α → Prop} {q : β → Prop}

/-- That a reader of some tokens leaves such tokens and comes to a result with a property, or fails for a
reason that is found in them. -/
structure Draws (source : Token → Prop) (ending : Ending) (p : α → Prop) (x : Reader α) : Prop where
  of_ok {c d : Cursor} {a : α} : c.Holds source ending → x c = .ok (a, d) → d.Holds source ending ∧ p a
  of_error {c : Cursor} {e : CompileError} : c.Holds source ending → x c = .error e →
    e.Arises source ending

def Any (_ : α) : Prop := True

/-- The token of an end, or one of some tokens. -/
def Drawn (source : Token → Prop) (token : Token) : Prop :=
  token.kind = .endOfInput ∨ source token

namespace Draws

theorem pure {a : α} (h : p a) : Draws source ending p (Pure.pure a) where
  of_ok hc hrun := by
    obtain ⟨rfl, rfl⟩ := pure_ok_iff.1 hrun
    exact ⟨hc, h⟩
  of_error _ hrun := nomatch hrun

theorem throw {e : CompileError} (h : e.Arises source ending) :
    Draws source ending p (MonadExcept.throw e : Reader α) where
  of_ok _ hrun := (throw_ok_iff.1 hrun).elim
  of_error _ hrun := by
    cases hrun
    exact h

theorem bind {x : Reader α} {f : α → Reader β} (hx : Draws source ending p x)
    (hf : ∀ a, p a → Draws source ending q (f a)) : Draws source ending q (x >>= f) where
  of_ok hc hrun := by
    obtain ⟨a, between, hfirst, hsecond⟩ := bind_ok_iff.1 hrun
    obtain ⟨hbetween, ha⟩ := hx.of_ok hc hfirst
    exact (hf a ha).of_ok hbetween hsecond
  of_error {c e} hc hrun := by
    rw [bind_run] at hrun
    cases hfirst : x c with
    | error other =>
      rw [hfirst] at hrun
      cases hrun
      exact hx.of_error hc hfirst
    | ok result =>
      rw [hfirst] at hrun
      obtain ⟨hbetween, ha⟩ := hx.of_ok hc hfirst
      exact (hf _ ha).of_error hbetween hrun

/-- Where the result of the first reader does not matter. -/
theorem andThen {x : Reader α} {f : α → Reader β} (hx : Draws source ending p x)
    (hf : ∀ a, Draws source ending q (f a)) : Draws source ending q (x >>= f) :=
  bind hx fun a _ => hf a

theorem ite {c : Prop} [Decidable c] {x y : Reader α} (hx : c → Draws source ending p x)
    (hy : Draws source ending p y) : Draws source ending p (if c then x else y) := by
  split
  · rename_i hc
    exact hx hc
  · exact hy

theorem refuse {c : Prop} [Decidable c] {e : CompileError} {f : α → Reader β} {y : Reader β}
    (he : e.Arises source ending) (hy : Draws source ending q y) :
    Draws source ending q (if c then (MonadExcept.throw e : Reader α) >>= f else y) :=
  ite (fun _ => bind (throw (p := fun _ => False) he) fun _ h => h.elim) hy

/-! ### Steps -/

theorem peekRaw : Draws source ending (Drawn source) peekRaw where
  of_ok {c d token} hc hrun := by
    obtain ⟨tokens, last⟩ := c
    obtain rfl : last = ending := hc.ending
    cases tokens with
    | nil =>
      cases last <;> cases hrun
      exact ⟨hc, .inl rfl⟩
    | cons head rest =>
      cases hrun
      exact ⟨hc, .inr (hc.tokens _ List.mem_cons_self)⟩
  of_error {c e} hc hrun := by
    obtain ⟨tokens, last⟩ := c
    obtain rfl : last = ending := hc.ending
    cases tokens with
    | nil =>
      cases last with
      | finished pos => cases hrun
      | fault error =>
        cases hrun
        exact .lexical rfl
      | spent =>
        cases hrun
        exact .spent rfl
    | cons head rest => cases hrun

theorem nextRaw : Draws source ending (Drawn source) nextRaw where
  of_ok {c d token} hc hrun := by
    obtain ⟨tokens, last⟩ := c
    cases tokens with
    | nil => exact peekRaw.of_ok hc hrun
    | cons head rest =>
      cases hrun
      obtain ⟨hhead, hrest⟩ := List.forall_mem_cons.1 hc.tokens
      exact ⟨⟨hrest, hc.ending⟩, .inr hhead⟩
  of_error {c e} hc hrun := by
    obtain ⟨tokens, last⟩ := c
    cases tokens with
    | nil => exact peekRaw.of_error hc hrun
    | cons head rest => cases hrun

theorem peek : Draws source ending (Drawn source) peek where
  of_ok hc hrun := peekRaw.of_ok hc.skipComments hrun
  of_error hc hrun := peekRaw.of_error hc.skipComments hrun

theorem next : Draws source ending (Drawn source) next where
  of_ok hc hrun := nextRaw.of_ok hc.skipComments hrun
  of_error hc hrun := nextRaw.of_error hc.skipComments hrun

theorem remaining : Draws source ending Any remaining where
  of_ok hc hrun := by
    cases hrun
    exact ⟨hc, trivial⟩
  of_error _ hrun := nomatch hrun

theorem unexpected (expected : String) (found : Token) :
    Draws source ending p (unexpected expected found : Reader α) :=
  throw (.unexpected expected found)

theorem unexpectedEnd (expected : String) :
    Draws source ending p (unexpectedEnd expected : Reader α) :=
  andThen peek fun _ => unexpected _ _

theorem expectPunctuation (text : String) : Draws source ending Any (expectPunctuation text) :=
  andThen next fun _ => ite (fun _ => pure trivial) (unexpected _ _)

theorem expectName (what : String) : Draws source ending Any (expectName what) :=
  andThen next fun _ => ite (fun _ => pure trivial) (unexpected _ _)

/-- A numeral is read from one of the tokens, since that of an end is none. -/
theorem numberValue {token : Token} (htoken : Drawn source token) (hkind : token.kind = .number) :
    Draws source ending Any (numberValue token) := by
  unfold Reader.numberValue
  split
  · exact pure trivial
  · rename_i digits hread
    rcases htoken with hend | htoken
    · rw [hkind] at hend
      cases hend
    · exact throw (.numberTooLong htoken hkind hread)
  · exact unexpected _ _

theorem expectNumber : Draws source ending Any expectNumber :=
  bind next fun _ htoken => ite (numberValue htoken) (unexpected _ _)

theorem documentation : Draws source ending Any documentation :=
  andThen peekRaw fun _ => ite (fun _ => andThen nextRaw fun _ => pure trivial) (pure trivial)

/-! ### Expressions -/

theorem term (closer : String) {token : Token} (htoken : Drawn source token) :
    Draws source ending Any (term closer token) := by
  unfold Reader.term
  split
  · rename_i hkind
    exact andThen (numberValue htoken hkind) fun _ => pure trivial
  · exact pure trivial
  · refine ite (fun _ => ite (fun _ => pure trivial) (unexpected _ _)) ?_
    exact ite (fun _ => pure trivial) (pure trivial)
  · exact unexpected _ _

theorem terms (closer : String) (steps : Nat) : Draws source ending Any (terms closer steps) := by
  induction steps with
  | zero => exact unexpectedEnd _
  | succ steps ih =>
    refine bind next fun token htoken => ite (fun _ => pure trivial) ?_
    exact andThen (term closer htoken) fun _ => andThen ih fun _ => pure trivial

theorem expression (closer : String) : Draws source ending Any (expression closer) :=
  andThen peek fun _ => andThen remaining fun _ => andThen (terms closer _) fun _ =>
    refuse (.unexpected _ _) (pure trivial)

/-! ### Bodies -/

variable (types : TypeTable)

theorem typeRef (token : Token) : Draws source ending Any (typeRef types token) := by
  unfold Reader.typeRef
  split
  · exact pure trivial
  · split
    · exact pure trivial
    · exact throw (.unknownType _ _)

theorem moreNames (steps : Nat) : Draws source ending Any (moreNames steps) := by
  induction steps with
  | zero => exact unexpectedEnd _
  | succ steps ih =>
    refine andThen next fun _ => ite (fun _ => pure trivial) (refuse (.unexpected _ _) ?_)
    exact andThen (expectName _) fun _ => andThen ih fun _ => pure trivial

theorem lengthAndEnd : Draws source ending Any lengthAndEnd := by
  refine andThen next fun _ => ite (fun _ => ?_) (ite (fun _ => pure trivial) (unexpected _ _))
  exact andThen (expression _) fun _ => andThen (expectPunctuation _) fun _ => pure trivial

theorem fieldDeclaration (first : Token) :
    Draws source ending Any (fieldDeclaration types first) := by
  refine refuse (.unexpected _ _) (andThen remaining fun _ => andThen (moreNames _) fun _ => ?_)
  refine andThen next fun _ => refuse (.unexpected _ _) (andThen (typeRef types _) fun _ => ?_)
  exact andThen lengthAndEnd fun _ => andThen documentation fun _ => pure trivial

theorem blockHead (control : Control) (keyword : Token) :
    Draws source ending Any (blockHead control keyword) :=
  andThen (expectPunctuation _) fun _ => andThen (expression _) fun _ => pure trivial

theorem nodes (steps : Nat) : Draws source ending Any (nodes types steps) := by
  induction steps with
  | zero => exact unexpectedEnd _
  | succ steps ih =>
    refine andThen next fun token => ite (fun _ => pure trivial) (refuse (.unexpected _ _) ?_)
    split
    · refine andThen (blockHead _ _) fun _ => andThen (expectPunctuation _) fun _ => ?_
      exact andThen ih fun _ => andThen ih fun _ => pure trivial
    · exact andThen (fieldDeclaration types token) fun _ => andThen ih fun _ => pure trivial

theorem body : Draws source ending Any (body types) :=
  andThen (expectPunctuation _) fun _ => andThen remaining fun _ => nodes types _

/-! ### Declarations -/

theorem freshName : Draws source ending Any (freshName types) :=
  andThen (expectName _) fun _ => refuse (.alreadyDeclared _) (pure trivial)

theorem baseType : Draws source ending Any baseType := by
  refine andThen next fun _ => ?_
  split
  · exact pure trivial
  · exact unexpected _ _

theorem enumValue : Draws source ending Any enumValue := by
  refine andThen peek fun _ => ite (fun _ => ?_) ?_
  · exact andThen next fun _ => andThen expectNumber fun _ => pure trivial
  · exact andThen expectNumber fun _ => pure trivial

theorem enumMembers (steps : Nat) (value : Int) (token : Token) :
    Draws source ending Any (enumMembers steps value token) := by
  induction steps generalizing value token with
  | zero => exact unexpectedEnd _
  | succ steps ih =>
    refine ite (fun _ => pure trivial) (refuse (.unexpected _ _) (andThen next fun _ => ?_))
    refine ite (fun _ => andThen enumValue fun _ => andThen next fun _ => ?_) ?_
    all_goals
      rw [pure_bind]
      refine ite (fun _ => andThen next fun _ => andThen (ih _ _) fun _ => pure trivial) ?_
      refine ite (fun _ => ?_) ?_
      · rw [pure_bind]
        exact pure trivial
      · exact andThen (unexpected (p := Any) _ _) fun _ => pure trivial

theorem bitfieldMembers (steps : Nat) : Draws source ending Any (bitfieldMembers steps) := by
  induction steps with
  | zero => exact unexpectedEnd _
  | succ steps ih =>
    refine andThen next fun _ => ite (fun _ => pure trivial) (refuse (.unexpected _ _) ?_)
    refine andThen (expectPunctuation _) fun _ => andThen expectNumber fun _ => ?_
    refine andThen (expectPunctuation _) fun _ => andThen documentation fun _ => ?_
    exact andThen ih fun _ => pure trivial

theorem structDefinition : Draws source ending Any (structDefinition types) :=
  andThen (freshName types) fun _ => andThen (body _) fun _ => pure trivial

theorem enumDefinition : Draws source ending Any (enumDefinition types) := by
  refine andThen (freshName types) fun _ => andThen (expectPunctuation _) fun _ => ?_
  refine andThen baseType fun _ => andThen (expectPunctuation _) fun _ => ?_
  refine andThen remaining fun _ => andThen next fun _ => ?_
  exact andThen (enumMembers _ _ _) fun _ => pure trivial

theorem bitfieldDefinition : Draws source ending Any (bitfieldDefinition types) := by
  refine andThen (freshName types) fun _ => andThen (expectPunctuation _) fun _ => ?_
  refine andThen baseType fun _ => andThen (expectPunctuation _) fun _ => ?_
  exact andThen remaining fun _ => andThen (bitfieldMembers _) fun _ => pure trivial

theorem includeDirective : Draws source ending Any Draft.includeDirective := by
  refine andThen next fun token => ?_
  have hmark (name : String) : Draws source ending Any
      (Reader.expectPunctuation ";" >>= fun _ => Pure.pure (token, name)) :=
    andThen (expectPunctuation _) fun _ => pure trivial
  dsimp only
  split
  · exact andThen (pure (p := Any) trivial) hmark
  · exact andThen (pure (p := Any) trivial) hmark
  · exact andThen (unexpected (p := Any) _ _) hmark

theorem declaration (keyword : Token) : Draws source ending Any (declaration types keyword) := by
  refine ite (fun _ => andThen includeDirective fun _ => pure trivial) ?_
  refine ite (fun _ => andThen (structDefinition types) fun _ => pure trivial) ?_
  refine ite (fun _ => andThen (enumDefinition types) fun _ => pure trivial) ?_
  refine ite (fun _ => andThen (bitfieldDefinition types) fun _ => pure trivial) ?_
  exact ite (fun _ => andThen (body types) fun _ => pure trivial) (unexpected _ _)

theorem declaration? : Draws source ending Any (declaration? types) := by
  refine andThen next fun keyword => ite (fun _ => pure trivial) ?_
  exact andThen (declaration types keyword) fun _ => pure trivial

end Draws

end Reader

end BinarySchema
