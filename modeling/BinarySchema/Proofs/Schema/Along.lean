import BinarySchema.Proofs.Schema.Limits

/-!
# Declarations along the tokens of their sources

The readers take tokens from the front, so what is left is always a suffix of a source's tokens. What a
declaration has to do with the tokens it is read from is therefore a fact about a suffix, and holds of the
source. `Root.compile_tells` lifts it to schemas: a fact that each declaration has by its reader, each
definition has by the tokens of a source that the root leads to, and the root by those of its own text.
-/

namespace BinarySchema

namespace Reader

variable {types : TypeTable} {c d : Cursor} {token : Token}

/-! ### Tokens that are read -/

theorem next_ok (h : next c = .ok (token, d)) (hkind : token.kind ≠ .endOfInput) :
    token.kind ≠ .comment ∧
      ∃ comments, Remarks comments ∧ c = ⟨comments ++ token :: d.tokens, d.ending⟩ := by
  obtain ⟨tokens, ending⟩ := c
  obtain ⟨comments, hcomments, rfl | ⟨head, tail, hhead, rfl⟩⟩ := Cursor.exists_remarks tokens
  · rw [next_end hcomments] at h
    obtain ⟨pos, -, heq⟩ := Except.map_ok_iff.1 h
    cases heq
    exact absurd rfl hkind
  · rw [next_token hcomments hhead] at h
    cases h
    exact ⟨hhead, comments, hcomments, rfl⟩

theorem next_taken (h : next c = .ok (token, d)) (hkind : token.kind ≠ .endOfInput) :
    ∃ comments, Remarks comments ∧ c.tokens = comments ++ token :: d.tokens := by
  obtain ⟨-, comments, hcomments, rfl⟩ := next_ok h hkind
  exact ⟨comments, hcomments, rfl⟩

theorem next_suffix (h : next c = .ok (token, d)) (hkind : token.kind ≠ .endOfInput) :
    token :: d.tokens <:+ c.tokens := by
  obtain ⟨comments, -, hc⟩ := next_taken h hkind
  exact ⟨comments, hc.symm⟩

theorem kind_of_isPlainName (h : isPlainName token = true) : token.kind = .word := by
  rw [isPlainName, Bool.and_eq_true, decide_eq_true_eq] at h
  exact h.1

theorem piece_of_isPlainName (h : isPlainName token = true) : token.piece = .word token.text :=
  Token.piece_of_word (kind_of_isPlainName h)

theorem expectName_taken {what : String} (h : expectName what c = .ok (token, d)) :
    isPlainName token = true ∧ ∃ comments, Remarks comments ∧ c.tokens = comments ++ token :: d.tokens := by
  obtain ⟨read, between, hnext, hread⟩ := bind_ok_iff.1 h
  by_cases hname : isPlainName read = true
  · rw [if_pos hname] at hread
    obtain ⟨rfl, rfl⟩ := pure_ok_iff.1 hread
    exact ⟨hname, next_taken hnext (by rw [kind_of_isPlainName hname]; nofun)⟩
  · rw [if_neg hname] at hread
    exact (throw_ok_iff.1 hread).elim

theorem freshName_taken (h : freshName types c = .ok (token, d)) :
    isPlainName token = true ∧ ∃ comments, Remarks comments ∧ c.tokens = comments ++ token :: d.tokens := by
  obtain ⟨name, between, hname, h⟩ := bind_ok_iff.1 h
  obtain ⟨-, h⟩ := refuse_ok_iff.1 h
  obtain ⟨rfl, rfl⟩ := pure_ok_iff.1 h
  exact expectName_taken hname

/-- That declarations have something to do with the tokens of the source that they are read from. -/
def Tells (tells : List Token → Declaration → Prop) : Prop :=
  ∀ {text : String} {types : TypeTable} {c d : Cursor} {keyword : Token} {declared : Declaration},
    c.tokens <:+ (TokenStream.scan text).tokens →
      declaration? types c = .ok (some (keyword, declared), d) →
        tells (TokenStream.scan text).tokens declared

/-- What has to be shown of declarations is about the readers behind the keywords. -/
theorem Tells.of_readers {tells : List Token → Declaration → Prop}
    (hinclusion : ∀ tokens token name, tells tokens (.inclusion token name))
    (hdefinition : ∀ {text : String} {types : TypeTable} {c d : Cursor} {definition : Definition},
      c.tokens <:+ (TokenStream.scan text).tokens →
        structDefinition types c = .ok (definition, d) ∨ enumDefinition types c = .ok (definition, d) ∨
          bitfieldDefinition types c = .ok (definition, d) →
            tells (TokenStream.scan text).tokens (.definition definition))
    (hroot : ∀ {text : String} {types : TypeTable} {c d : Cursor} {nodes : List Node},
      c.tokens <:+ (TokenStream.scan text).tokens → body types c = .ok (nodes, d) →
        tells (TokenStream.scan text).tokens (.root nodes)) : Tells tells := by
  intro text types c d keyword declared hsuffix h
  obtain ⟨between, hnext, hend, hread⟩ := declaration?_some_iff.1 h
  have hbehind : between.tokens <:+ (TokenStream.scan text).tokens :=
    ((List.suffix_cons _ _).trans (next_suffix hnext hend)).trans hsuffix
  obtain ⟨directive, rfl, -⟩ | ⟨definition, rfl, hread'⟩ | ⟨nodes, rfl, hread'⟩ := declaration_cases hread
  · exact hinclusion _ _ _
  · exact hdefinition hbehind hread'
  · exact hroot hbehind hread'

end Reader

namespace Root

open Reader (Declaration declaration?)

variable {fs : FileSystem} {root : Root} {place : Option Path} {text : String} {standing : Standing}
  {draft after : Draft} {c d : Cursor} {keyword : Token} {declared : Declaration} {met : List Path}
  {tells : List Token → Declaration → Prop}

/-- That a root leads to a source which declares a definition, and that the tokens of the source tell
something of it. -/
def Declares (fs : FileSystem) (root : Root) (tells : List Token → Declaration → Prop)
    (definition : Definition) : Prop :=
  ∃ directory text, root.LeadsTo fs directory text ∧
    definition.name ∈ declaredNames (TokenStream.scan text).tokens ∧
      tells (TokenStream.scan text).tokens (.definition definition)

/-- What is known along the tokens of a source: those that are left are at its end, and what they declare
is declared by the source. -/
structure Along (fs : FileSystem) (root : Root) (place : Option Path) (text : String)
    (standing : Standing) (c : Cursor) : Prop extends root.Amid fs place text standing c where
  suffix : c.tokens <:+ (TokenStream.scan text).tokens
  declares : declaredNames c.tokens ⊆ declaredNames (TokenStream.scan text).tokens

theorem Along.start (h : root.readText fs = .ok text) :
    root.Along fs (root.path? fs) text (root.standing fs) (.scan text) :=
  ⟨.start h, List.suffix_refl _, List.Subset.refl _⟩

namespace Along

variable (h : root.Along fs place text standing c)

include h

section

variable (hread : declaration? draft.types c = .ok (some (keyword, declared), d))

include hread

theorem rest : root.Along fs place text standing d where
  toAmid := h.toAmid.rest hread
  suffix := by
    obtain ⟨used, rfl, -⟩ := Reader.declaration?_some hread
    exact (List.suffix_append _ _).trans h.suffix
  declares := by
    intro name hname
    apply h.declares
    rw [Reader.declaredNames_of_some hread]
    exact List.mem_append_right _ hname

theorem enter {path : Path} {inner : String}
    (heffect : Draft.effect fs standing draft keyword declared = .ok (.enters path inner)) :
    root.Along fs (some path) inner (standing.inside path) (.scan inner) :=
  ⟨h.toAmid.enter hread heffect, List.suffix_refl _, List.Subset.refl _⟩

/-- What a declaration adds to a draft is told where it stands. -/
theorem of_goes (htells : Reader.Tells tells)
    (heffect : Draft.effect fs standing draft keyword declared = .ok (.goes after)) :
    (∀ definition ∈ after.types.definitions,
      definition ∈ draft.types.definitions ∨ root.Declares fs tells definition) ∧
    ∀ body ∈ after.root, body ∈ draft.root ∨ standing.outermost = true ∧
      tells (TokenStream.scan text).tokens (.root body) := by
  have hdeclared := htells h.suffix hread
  cases declared with
  | definition definition =>
    cases heffect
    refine ⟨fun other hother => ?_, fun body hbody => .inl hbody⟩
    rcases List.mem_append.1 hother with hold | hnew
    · exact .inl hold
    · obtain rfl := List.mem_singleton.1 hnew
      refine .inr ⟨_, _, h.leadsTo, h.declares ?_, hdeclared⟩
      rw [Reader.declaredNames_of_some hread]
      exact List.mem_cons_self
  | root body =>
    unfold Draft.effect at heffect
    dsimp only at heffect
    split at heffect
    · cases heffect
      exact ⟨fun _ hold => .inl hold, fun _ hold => .inl hold⟩
    rename_i houtermost
    split at heffect
    · cases heffect
    · cases heffect
      refine ⟨fun _ hold => .inl hold, ?_⟩
      rintro _ ⟨⟩
      exact .inr ⟨by simpa using houtermost, hdeclared⟩
  | inclusion token name =>
    obtain ⟨target, -, hgoes⟩ := Except.map_ok_iff.1 heffect
    cases target with
    | some file => cases hgoes
    | none =>
      cases hgoes
      exact ⟨fun _ hold => .inl hold, fun _ hold => .inl hold⟩

end

/-- All that a run adds to a draft is told by the source that it stands in. -/
theorem of_run (htells : Reader.Tells tells) (hrun : Draft.Run fs standing draft c met (.ok after)) :
    (∀ definition ∈ after.types.definitions,
      definition ∈ draft.types.definitions ∨ root.Declares fs tells definition) ∧
    ∀ body ∈ after.root, body ∈ draft.root ∨ standing.outermost = true ∧
      tells (TokenStream.scan text).tokens (.root body) := by
  generalize hresult : (Except.ok after : Except CompileError Draft) = result at hrun
  induction hrun generalizing place text after with
  | failed | refused | broken => cases hresult
  | ended hread =>
    cases hresult
    exact ⟨fun _ hold => .inl hold, fun _ hold => .inl hold⟩
  | went hread heffect rest ih =>
    obtain ⟨hdefinitions, hroot⟩ := h.of_goes hread htells heffect
    obtain ⟨hdefinitions', hroot'⟩ := ih (h.rest hread) hresult
    constructor
    · intro definition hmem
      exact (hdefinitions' definition hmem).elim (hdefinitions definition) .inr
    · intro body hmem
      exact (hroot' body hmem).elim (hroot body) .inr
  | entered hread heffect inside rest ih ih' =>
    obtain ⟨hdefinitions, hroot⟩ := ih (h.enter hread heffect) rfl
    obtain ⟨hdefinitions', hroot'⟩ := ih' (h.rest hread) hresult
    constructor
    · intro definition hmem
      exact (hdefinitions' definition hmem).elim (hdefinitions definition) .inr
    · intro body hmem
      rcases hroot' body hmem with hbetween | hnew
      · -- Included sources do not change the root.
        rcases hroot body hbetween with hold | ⟨houtermost, -⟩
        · exact .inl hold
        · cases houtermost
      · exact .inr hnew

end Along

/-- What declarations have to do with the tokens they are read from, those of a compiled schema have with
the tokens of their sources. -/
theorem compile_tells {schema : Schema} (htells : Reader.Tells tells) (h : root.compile fs = .ok schema) :
    (∃ text, root.readText fs = .ok text ∧
      ∀ body ∈ schema.root, tells (TokenStream.scan text).tokens (.root body)) ∧
    ∀ definition ∈ schema.types.definitions, root.Declares fs tells definition := by
  cases htext : root.readText fs with
  | error e =>
    rw [Root.compile_of_error htext] at h
    cases h
  | ok text =>
    obtain ⟨met, result, hrun, hcompile⟩ := Root.exists_run htext
    rw [hcompile] at h
    cases result with
    | error e => cases h
    | ok draft =>
      cases h
      obtain ⟨hdefinitions, hroot⟩ := (Along.start htext).of_run htells hrun
      refine ⟨⟨text, rfl, fun body hbody => ?_⟩, fun definition hmem => ?_⟩
      · rcases hroot body hbody with hold | ⟨-, hnew⟩
        · cases hold
        · exact hnew
      · rcases hdefinitions definition hmem with hold | hnew
        · cases hold
        · exact hnew

end Root

end BinarySchema
