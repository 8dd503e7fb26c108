import BinarySchema.Proofs.Schema.Step
import BinarySchema.Proofs.Token.Cursor

/-!
# Declarations one by one

The declarations of a source are read in two parts. The first is grammar: behind a keyword stands a
definition, a schema block or the name of a source, and what is read depends on the tokens and on the
kinds that the type table has for names, but on nothing else. The second is what a declaration does to
the draft, or the source that has to be read before the draft goes on.

`Draft.declarations_succ` puts the two parts together again. Statements about sources take them one at
a time: those about tokens are about `Reader.declaration?`, those about included sources about
`Draft.effect`.
-/

namespace BinarySchema

/-! ### Tables between two declarations -/

namespace TypeTable

/-- That a table can still grow and promises nothing. -/
structure Open (types : TypeTable) : Prop where
  frozen : types.frozen = false
  reserved : types.reserved = []

theorem Open.empty : ({} : TypeTable).Open := ⟨rfl, rfl⟩

theorem Open.grow {types : TypeTable} (h : types.Open) (definition : Definition) :
    (types.grow definition).Open := ⟨h.frozen, rfl⟩

/-- The table while a struct of its own is read. -/
def promising (types : TypeTable) (name : String) : TypeTable :=
  { types with reserved := [(name, .struct)] }

/-- That two tables have the same kinds for all names. -/
def Agrees (types other : TypeTable) : Prop :=
  ∀ name, types.kindOf? name = other.kindOf? name

theorem declares_eq (types : TypeTable) (name : String) :
    types.declares name = (types.kindOf? name).isSome := by
  unfold declares contains kindOf?
  cases types.find? name <;> rfl

theorem Agrees.declares {types other : TypeTable} (h : types.Agrees other) (name : String) :
    types.declares name = other.declares name := by
  rw [declares_eq, declares_eq, h name]

/-- The names and kinds of the definitions decide what an open table has for a name. -/
theorem agrees_of_signatures {types other : TypeTable} (hopen : types.Open) (hother : other.Open)
    (h : types.definitions.map (fun d => (d.name, d.kind))
      = other.definitions.map (fun d => (d.name, d.kind))) : types.Agrees other := by
  intro name
  have hkind (table : TypeTable) (htable : table.Open) : table.kindOf? name
      = ((table.definitions.map (fun d => (d.name, d.kind))).find? (·.1 = name)).map Prod.snd := by
    unfold kindOf? reservedKind? find?
    rw [htable.reserved, List.find?_map]
    simp only [Function.comp_def]
    cases table.definitions.find? (·.name = name) <;> rfl
  rw [hkind types hopen, hkind other hother, h]

theorem Agrees.promising {types other : TypeTable} (h : types.Agrees other) (hopen : types.Open)
    (hother : other.Open) (struct : String) :
    (types.promising struct).Agrees (other.promising struct) := by
  intro name
  have hkind (table : TypeTable) (htable : table.Open) : (table.promising struct).kindOf? name
      = (table.kindOf? name).or
          (((([(struct, .struct)] : List (String × FieldKind)).find? (·.1 = name)).map Prod.snd)) := by
    have hfind : (table.promising struct).find? name = table.find? name := rfl
    unfold kindOf? reservedKind?
    rw [hfind, htable.reserved]
    cases table.find? name <;> rfl
  rw [hkind types hopen, hkind other hother, h name]

end TypeTable

namespace Reader

variable {α β : Type} {c : Cursor}

/-! ### The grammar of a declaration -/

theorem bind_run (x : Reader α) (f : α → Reader β) (c : Cursor) :
    (x >>= f) c = (x c >>= fun result => f result.1 result.2) := rfl

theorem bind_of_ok {x : Reader α} {f : α → Reader β} {a : α} {d : Cursor} (h : x c = .ok (a, d)) :
    (x >>= f) c = f a d := by
  rw [bind_run, h]
  rfl

theorem bind_congr_ok {x : Reader α} {f g : α → Reader β}
    (h : ∀ a d, x c = .ok (a, d) → f a d = g a d) : (x >>= f) c = (x >>= g) c := by
  rw [bind_run, bind_run]
  cases hx : x c with
  | error e => rfl
  | ok result => exact h result.1 result.2 hx

def structDefinition (types : TypeTable) : Reader Definition := do
  let name ← freshName types
  let members ← body (types.promising name.text)
  return .struct ⟨name.text, members, name.pos⟩

def enumDefinition (types : TypeTable) : Reader Definition := do
  let name ← freshName types
  let _ ← expectPunctuation ":"
  let base ← baseType
  let _ ← expectPunctuation "\x7b"
  let members ← enumMembers ((← remaining) + 1) 0 (← next)
  return .enum ⟨name.text, base, members, name.pos⟩

def bitfieldDefinition (types : TypeTable) : Reader Definition := do
  let name ← freshName types
  let _ ← expectPunctuation ":"
  let base ← baseType
  let _ ← expectPunctuation "\x7b"
  let members ← bitfieldMembers ((← remaining) + 1)
  return .bitfield ⟨name.text, base, members, name.pos⟩

section

variable {types : TypeTable} (h : types.Open)

include h

theorem changeTypes_define (definition : Definition) (hnew : definition.name ∉ types.names) :
    changeTypes (types.define definition) types = types.grow definition :=
  define_of_new definition h.frozen (by simp [h.reserved]) hnew types

theorem structDeclaration_eq :
    structDeclaration types = structDefinition types >>= fun d => pure (types.grow d) := by
  unfold structDeclaration structDefinition
  rw [bind_assoc]
  funext c
  refine bind_congr_ok fun name d hname => ?_
  have hreserve : changeTypes (types.reserve name.text .struct) types
      = types.promising name.text := by
    unfold TypeTable.reserve TypeTable.promising
    rw [h.frozen, h.reserved]
    rfl
  rw [hreserve, bind_assoc]
  refine bind_congr_ok fun members e _ => ?_
  let definition : Definition := .struct ⟨name.text, members, name.pos⟩
  let promising := types.promising name.text
  have hopen : promising.frozen = false := h.frozen
  have hpromised : ∀ entry ∈ promising.reserved, entry.1 = definition.name := by
    simp [promising, TypeTable.promising, definition, Definition.name]
  have hnew : definition.name ∉ types.names := freshName_ok hname
  have hgrown : changeTypes (promising.define definition) promising = types.grow definition :=
    define_of_new definition hopen hpromised hnew promising
  rw [pure_bind, ← hgrown]

theorem enumDeclaration_eq :
    enumDeclaration types = enumDefinition types >>= fun d => pure (types.grow d) := by
  unfold enumDeclaration enumDefinition
  simp only [bind_assoc, pure_bind]
  funext c
  refine bind_congr_ok fun name d hname => ?_
  have hgrown (base : Primitive) (members : List EnumMember) :=
    changeTypes_define h (.enum ⟨name.text, base, members, name.pos⟩) (freshName_ok hname)
  simp only [hgrown]

theorem bitfieldDeclaration_eq :
    bitfieldDeclaration types = bitfieldDefinition types >>= fun d => pure (types.grow d) := by
  unfold bitfieldDeclaration bitfieldDefinition
  simp only [bind_assoc, pure_bind]
  funext c
  refine bind_congr_ok fun name d hname => ?_
  have hgrown (base : Primitive) (members : List BitfieldMember) :=
    changeTypes_define h (.bitfield ⟨name.text, base, members, name.pos⟩) (freshName_ok hname)
  simp only [hgrown]

end

/-- A value that is looked at before it is read begins with the token that is shown. -/
theorem enumValue_eq : enumValue = next >>= fun token =>
    if token.isOperator "-" then expectNumber >>= fun n => pure (-(n : Int))
    else if token.kind = .number then numberValue token >>= fun n => pure (n : Int)
    else unexpected "numerical value" token := by
  funext c
  obtain ⟨tokens, ending⟩ := c
  unfold enumValue
  obtain ⟨comments, hcomments, rfl | ⟨token, rest, htoken, rfl⟩⟩ := Cursor.exists_remarks tokens
  · rw [bind_run, bind_run, peek_end hcomments, next_end hcomments]
    cases ending <;> rfl
  · have hnext : next ⟨token :: rest, ending⟩ = .ok (token, ⟨rest, ending⟩) := next_cons htoken
    rw [bind_of_ok (peek_token hcomments htoken), bind_of_ok (next_token hcomments htoken)]
    by_cases hsign : token.isOperator "-" = true
    · rw [if_pos hsign, if_pos hsign, bind_of_ok hnext]
    · rw [if_neg hsign, if_neg hsign, expectNumber, bind_assoc, bind_of_ok hnext]
      by_cases hnumber : token.kind = .number
      · rw [if_pos hnumber, if_pos hnumber]
      · rw [if_neg hnumber, if_neg hnumber]
        rfl

inductive Declaration where
  | definition (definition : Definition)
  | root (body : List Node)
  | inclusion (token : Token) (name : String)

def declaration (types : TypeTable) (keyword : Token) : Reader Declaration :=
  if keyword.isWord "include" then
    Draft.includeDirective >>= fun directive => pure (.inclusion directive.1 directive.2)
  else if keyword.isWord "struct" then structDefinition types >>= fun d => pure (.definition d)
  else if keyword.isWord "enum" then enumDefinition types >>= fun d => pure (.definition d)
  else if keyword.isWord "bitfield" then bitfieldDefinition types >>= fun d => pure (.definition d)
  else if keyword.isWord "schema" then body types >>= fun nodes => pure (.root nodes)
  else unexpected "[include, struct, enum, bitfield, schema]" keyword

/-- The next declaration with its keyword; none at the end of the source. -/
def declaration? (types : TypeTable) : Reader (Option (Token × Declaration)) := do
  let keyword ← next
  if keyword.kind = .endOfInput then return none
  let declared ← declaration types keyword
  return some (keyword, declared)

/-- What stands behind a keyword. -/
theorem declaration_cases {types : TypeTable} {keyword : Token} {declared : Declaration} {d : Cursor}
    (h : declaration types keyword c = .ok (declared, d)) :
    (∃ directive, declared = .inclusion directive.1 directive.2 ∧
      Draft.includeDirective c = .ok (directive, d)) ∨
    (∃ definition, declared = .definition definition ∧
      (structDefinition types c = .ok (definition, d) ∨ enumDefinition types c = .ok (definition, d) ∨
        bitfieldDefinition types c = .ok (definition, d))) ∨
    ∃ read, declared = .root read ∧ body types c = .ok (read, d) := by
  unfold declaration at h
  split at h
  · obtain ⟨directive, _, hdirective, hlast⟩ := bind_ok_iff.1 h
    obtain ⟨rfl, rfl⟩ := pure_ok_iff.1 hlast
    exact .inl ⟨directive, rfl, hdirective⟩
  split at h
  · obtain ⟨definition, _, hstruct, hlast⟩ := bind_ok_iff.1 h
    obtain ⟨rfl, rfl⟩ := pure_ok_iff.1 hlast
    exact .inr (.inl ⟨definition, rfl, .inl hstruct⟩)
  split at h
  · obtain ⟨definition, _, henum, hlast⟩ := bind_ok_iff.1 h
    obtain ⟨rfl, rfl⟩ := pure_ok_iff.1 hlast
    exact .inr (.inl ⟨definition, rfl, .inr (.inl henum)⟩)
  split at h
  · obtain ⟨definition, _, hbitfield, hlast⟩ := bind_ok_iff.1 h
    obtain ⟨rfl, rfl⟩ := pure_ok_iff.1 hlast
    exact .inr (.inl ⟨definition, rfl, .inr (.inr hbitfield)⟩)
  split at h
  · obtain ⟨nodes, _, hnodes, hlast⟩ := bind_ok_iff.1 h
    obtain ⟨rfl, rfl⟩ := pure_ok_iff.1 hlast
    exact .inr (.inr ⟨nodes, rfl, hnodes⟩)
  · exact (throw_ok_iff.1 h).elim

theorem declaration?_some_iff {types : TypeTable} {keyword : Token} {declared : Declaration} {d : Cursor} :
    declaration? types c = .ok (some (keyword, declared), d) ↔
      ∃ between, next c = .ok (keyword, between) ∧ keyword.kind ≠ .endOfInput ∧
        declaration types keyword between = .ok (declared, d) := by
  unfold declaration?
  rw [bind_ok_iff]
  constructor
  · rintro ⟨token, between, hnext, h⟩
    by_cases hend : token.kind = .endOfInput
    · rw [if_pos hend] at h
      exact nomatch (pure_ok_iff.1 h).1
    rw [if_neg hend] at h
    obtain ⟨read, behind, hread, h⟩ := bind_ok_iff.1 h
    obtain ⟨heq, rfl⟩ := pure_ok_iff.1 h
    cases heq
    exact ⟨between, hnext, hend, hread⟩
  · rintro ⟨between, hnext, hend, hread⟩
    refine ⟨keyword, between, hnext, ?_⟩
    rw [if_neg hend]
    exact bind_ok_iff.2 ⟨declared, d, hread, rfl⟩

/-! ### Tables that agree -/

section

variable {types other : TypeTable} (h : types.Agrees other)

include h

theorem fieldDeclaration_congr (first : Token) :
    fieldDeclaration types first = fieldDeclaration other first := by
  have htype (token : Token) : typeRef types token = typeRef other token := by
    unfold typeRef
    rw [h token.text]
  unfold fieldDeclaration
  simp only [htype]

theorem nodes_congr (steps : Nat) : nodes types steps = nodes other steps := by
  induction steps with
  | zero => rfl
  | succ steps ih =>
    unfold nodes
    simp only [ih, fieldDeclaration_congr h]

theorem body_congr : body types = body other := by
  unfold body
  simp only [nodes_congr h]

theorem freshName_congr : freshName types = freshName other := by
  unfold freshName
  simp only [h.declares]

theorem declaration_congr (hopen : types.Open) (hother : other.Open) (keyword : Token) :
    declaration types keyword = declaration other keyword := by
  have hbody (name : String) : body (types.promising name) = body (other.promising name) :=
    body_congr (h.promising hopen hother name)
  unfold declaration structDefinition enumDefinition bitfieldDefinition
  simp only [freshName_congr h, body_congr h, hbody]

theorem declaration?_congr (hopen : types.Open) (hother : other.Open) :
    declaration? types = declaration? other := by
  unfold declaration?
  simp only [declaration_congr h hopen hother]

end

end Reader

/-! ### What a declaration does -/

def Standing.inside (standing : Standing) (path : Path) : Standing :=
  ⟨path.parent, path :: standing.active, false⟩

namespace Draft

open Reader (Declaration)

/-- The draft when a source is met. -/
def meets (draft : Draft) (path : Path) : Draft :=
  { draft with included := path :: draft.included }

/-- What follows a declaration: the rest of its source with a draft, or first another source. -/
inductive Effect where
  | goes (after : Draft)
  | enters (path : Path) (text : String)

def effect (fs : FileSystem) (standing : Standing) (draft : Draft) (keyword : Token) :
    Declaration → Except CompileError Effect
  | .definition d => .ok (.goes { draft with types := draft.types.grow d })
  | .root body =>
    if standing.outermost = false then .ok (.goes draft)
    else if draft.root.isSome then .error (.secondRoot keyword)
    else .ok (.goes { draft with root := some body })
  | .inclusion token name =>
    (includeTarget fs standing draft token name).map fun
      | none => .goes draft
      | some (path, text) => .enters path text

/-- The draft behind a declaration, where `enter` reads included sources. -/
def carry (enter : Standing → Cursor → Draft → Except CompileError Draft) (standing : Standing)
    (draft : Draft) : Effect → Except CompileError Draft
  | .goes after => .ok after
  | .enters path text => enter (standing.inside path) (.scan text) (draft.meets path)

variable {fs : FileSystem} {enter : Standing → Cursor → Draft → Except CompileError Draft}
  {standing : Standing} {draft : Draft}

/-- The declarations of a source are its first one and the rest. -/
theorem declarations_succ (h : draft.types.Open) (steps : Nat) :
    declarations fs enter standing (steps + 1) draft =
      (Reader.declaration? draft.types >>= fun
        | none => pure draft
        | some (keyword, declared) =>
          liftM (effect fs standing draft keyword declared >>= carry enter standing draft)
            >>= declarations fs enter standing steps) := by
  unfold declarations Reader.declaration?
  rw [bind_assoc]
  refine bind_congr fun keyword => ?_
  by_cases hend : keyword.kind = .endOfInput
  · rw [if_pos hend, if_pos hend, pure_bind]
  rw [if_neg hend, if_neg hend, bind_assoc]
  simp only [pure_bind]
  unfold Reader.declaration
  by_cases hinclude : keyword.isWord "include" = true
  · rw [if_pos hinclude, if_pos hinclude, bind_assoc]
    refine bind_congr fun directive => ?_
    obtain ⟨token, name⟩ := directive
    rw [pure_bind]
    dsimp only [effect]
    cases includeTarget fs standing draft token name with
    | error e => rfl
    | ok target =>
      cases target with
      | none => rfl
      | some file => rfl
  rw [if_neg hinclude, if_neg hinclude]
  by_cases hstruct : keyword.isWord "struct" = true
  · rw [if_pos hstruct, if_pos hstruct, Reader.structDeclaration_eq h, bind_assoc, bind_assoc]
    refine bind_congr fun definition => ?_
    simp only [pure_bind]
    rfl
  rw [if_neg hstruct, if_neg hstruct]
  by_cases henum : keyword.isWord "enum" = true
  · rw [if_pos henum, if_pos henum, Reader.enumDeclaration_eq h, bind_assoc, bind_assoc]
    refine bind_congr fun definition => ?_
    simp only [pure_bind]
    rfl
  rw [if_neg henum, if_neg henum]
  by_cases hbitfield : keyword.isWord "bitfield" = true
  · rw [if_pos hbitfield, if_pos hbitfield, Reader.bitfieldDeclaration_eq h, bind_assoc, bind_assoc]
    refine bind_congr fun definition => ?_
    simp only [pure_bind]
    rfl
  rw [if_neg hbitfield, if_neg hbitfield]
  by_cases hschema : keyword.isWord "schema" = true
  · rw [if_pos hschema, if_pos hschema, bind_assoc]
    refine bind_congr fun body => ?_
    rw [pure_bind]
    dsimp only [effect]
    cases standing.outermost with
    | false => rfl
    | true => cases draft.root <;> rfl
  · rw [if_neg hschema, if_neg hschema]
    rfl

end Draft

end BinarySchema
