import BinarySchema.Proofs.Definition.Table
import BinarySchema.Schema

/-!
# Steps of a compilation

What the readers of a schema did if they came to a result. A declaration that is read adds one
definition with a new name to the type table; the fields of a body that is read have types that were
declared before it, or are reserved while it is read.

The declarations of a source are taken apart one by one: `Draft.Step` lists what one of them can do to
the draft, and whatever all of these keep, a whole source keeps.
-/

namespace BinarySchema

namespace Reader

variable {α β : Type} {c d : Cursor}

/-! ### Sequencing -/

theorem bind_ok_iff {x : Reader α} {f : α → Reader β} {b : β} :
    (x >>= f) c = .ok (b, d) ↔ ∃ a between, x c = .ok (a, between) ∧ f a between = .ok (b, d) := by
  change Except.bind (x c) (fun result => f result.1 result.2) = _ ↔ _
  cases x c with
  | error e => simp [Except.bind]
  | ok result =>
    constructor
    · intro h
      exact ⟨result.1, result.2, rfl, h⟩
    · rintro ⟨a, between, heq, h⟩
      cases heq
      exact h

theorem pure_ok_iff {a b : α} : (pure a : Reader α) c = .ok (b, d) ↔ a = b ∧ c = d := by
  change Except.ok (a, c) = _ ↔ _
  simp

theorem throw_ok_iff {e : CompileError} {b : α} :
    (throw e : Reader α) c = .ok (b, d) ↔ False := by
  change Except.error e = _ ↔ _
  simp

theorem lift_ok_iff {x : Except CompileError α} {b : α} :
    (liftM x : Reader α) c = .ok (b, d) ↔ x = .ok b ∧ c = d := by
  cases x with
  | error e =>
    change Except.error e = _ ↔ _
    simp
  | ok a =>
    change Except.ok (a, c) = _ ↔ _
    simp

theorem unexpectedEnd_ok_iff {expected : String} {b : α} :
    (unexpectedEnd expected : Reader α) c = .ok (b, d) ↔ False := by
  unfold unexpectedEnd
  simp only [bind_ok_iff, unexpected, throw_ok_iff, and_false, exists_false]

/-- A reader goes on only where it refuses nothing. -/
theorem refuse_ok_iff {refused : Prop} [Decidable refused] {e : CompileError} {f : α → Reader β}
    {next : Reader β} {b : β} :
    (if refused then throw e >>= f else next) c = .ok (b, d) ↔
      ¬ refused ∧ next c = .ok (b, d) := by
  by_cases h : refused
  · simp only [h, if_true, bind_ok_iff, throw_ok_iff, false_and, exists_false, not_true]
  · simp only [h, if_false, not_false_eq_true, true_and]

/-! ### Bodies -/

/-- That the types of fields are primitives, or names under the kinds that the table has for them. -/
def DeclaredIn (types : TypeTable) (fields : List Field) : Prop :=
  ∀ field ∈ fields, ∀ kind name, field.type = .named kind name → types.kindOf? name = some kind

variable {types : TypeTable}

theorem typeRef_ok {token : Token} {type : TypeRef} (h : typeRef types token c = .ok (type, d))
    {kind : FieldKind} {name : String} (hnamed : type = .named kind name) :
    types.kindOf? name = some kind := by
  unfold typeRef at h
  cases hword : Primitive.ofWord? token.text with
  | some primitive =>
    simp only [hword, pure_ok_iff] at h
    rw [hnamed] at h
    cases h.1
  | none =>
    cases hkind : types.kindOf? token.text with
    | none => simp only [hword, hkind, throw_ok_iff] at h
    | some known =>
      simp only [hword, hkind, pure_ok_iff] at h
      rw [hnamed] at h
      cases h.1
      exact hkind

theorem fieldDeclaration_ok {first : Token} {fields : List Field}
    (h : fieldDeclaration types first c = .ok (fields, d)) : DeclaredIn types fields := by
  unfold fieldDeclaration at h
  obtain ⟨-, hnames⟩ := refuse_ok_iff.1 h
  obtain ⟨steps, c₁, -, hmore⟩ := bind_ok_iff.1 hnames
  obtain ⟨more, c₂, -, htoken⟩ := bind_ok_iff.1 hmore
  obtain ⟨token, c₃, -, hword⟩ := bind_ok_iff.1 htoken
  obtain ⟨-, htype⟩ := refuse_ok_iff.1 hword
  obtain ⟨type, c₄, hread, hlength⟩ := bind_ok_iff.1 htype
  obtain ⟨length, c₅, -, hcomment⟩ := bind_ok_iff.1 hlength
  obtain ⟨comment, c₆, -, hpure⟩ := bind_ok_iff.1 hcomment
  obtain ⟨rfl, -⟩ := pure_ok_iff.1 hpure
  intro field hfield kind name hnamed
  obtain ⟨_, -, rfl⟩ := List.mem_map.1 hfield
  exact typeRef_ok hread hnamed

/-- What holds of the fields of every declaration holds of the fields of a whole body. -/
theorem nodes_fields {p : Field → Prop}
    (hdeclaration : ∀ {first : Token} {c d : Cursor} {fields : List Field},
      fieldDeclaration types first c = .ok (fields, d) → ∀ field ∈ fields, p field)
    {steps : Nat} {body : List Node} (h : nodes types steps c = .ok (body, d)) :
    ∀ field ∈ bodyFields body, p field := by
  induction steps generalizing c body d with
  | zero => exact (unexpectedEnd_ok_iff.1 h).elim
  | succ steps ih =>
    unfold nodes at h
    obtain ⟨token, c₁, -, hclose⟩ := bind_ok_iff.1 h
    by_cases hbrace : token.isPunctuation "\x7d" = true
    · rw [if_pos hbrace] at hclose
      obtain ⟨rfl, -⟩ := pure_ok_iff.1 hclose
      nofun
    rw [if_neg hbrace] at hclose
    obtain ⟨-, hword⟩ := refuse_ok_iff.1 hclose
    cases hcontrol : Control.ofWord? token.text with
    | some control =>
      simp only [hcontrol] at hword
      obtain ⟨head, c₂, -, hbrace⟩ := bind_ok_iff.1 hword
      obtain ⟨brace, c₃, -, hinner⟩ := bind_ok_iff.1 hbrace
      obtain ⟨inner, c₄, hbody, hrest⟩ := bind_ok_iff.1 hinner
      obtain ⟨rest, c₅, hnodes, hpure⟩ := bind_ok_iff.1 hrest
      obtain ⟨rfl, -⟩ := pure_ok_iff.1 hpure
      intro field hfield
      rw [bodyFields_cons, Node.fields_block, List.mem_append] at hfield
      exact hfield.elim (ih hbody field) (ih hnodes field)
    | none =>
      simp only [hcontrol] at hword
      obtain ⟨fields, c₂, hfields, hrest⟩ := bind_ok_iff.1 hword
      obtain ⟨rest, c₃, hnodes, hpure⟩ := bind_ok_iff.1 hrest
      obtain ⟨rfl, -⟩ := pure_ok_iff.1 hpure
      intro field hfield
      rw [bodyFields_append, bodyFields_map_field, List.mem_append] at hfield
      exact hfield.elim (hdeclaration hfields field) (ih hnodes field)

theorem body_fields {p : Field → Prop}
    (hdeclaration : ∀ {first : Token} {c d : Cursor} {fields : List Field},
      fieldDeclaration types first c = .ok (fields, d) → ∀ field ∈ fields, p field)
    {nodes : List Node} (h : body types c = .ok (nodes, d)) : ∀ field ∈ bodyFields nodes, p field := by
  obtain ⟨brace, c₁, -, hsteps⟩ := bind_ok_iff.1 h
  obtain ⟨steps, c₂, -, hnodes⟩ := bind_ok_iff.1 hsteps
  exact nodes_fields hdeclaration hnodes

theorem body_ok {nodes : List Node} (h : body types c = .ok (nodes, d)) :
    DeclaredIn types (bodyFields nodes) :=
  body_fields fieldDeclaration_ok h

/-! ### Declarations -/

theorem freshName_ok {token : Token} (h : freshName types c = .ok (token, d)) :
    token.text ∉ types.names := by
  obtain ⟨name, c₁, -, hfree⟩ := bind_ok_iff.1 h
  obtain ⟨hnew, hpure⟩ := refuse_ok_iff.1 hfree
  obtain ⟨rfl, -⟩ := pure_ok_iff.1 hpure
  simp only [Bool.or_eq_true, not_or, Bool.not_eq_true] at hnew
  exact TypeTable.find?_eq_none_iff.1 (TypeTable.declares_eq_false hnew.1).1

/-- A definition with a new name grows a table that is not frozen and reserves no other name. -/
theorem define_of_new (definition : Definition) (hfrozen : types.frozen = false)
    (hreserved : ∀ entry ∈ types.reserved, entry.1 = definition.name)
    (hnew : definition.name ∉ types.names) (otherwise : TypeTable) :
    changeTypes (types.define definition) otherwise = types.grow definition := by
  have hkept : types.reserved.filter (·.1 ≠ definition.name) = [] := by
    simpa using hreserved
  unfold TypeTable.define
  rw [hfrozen, if_neg Bool.false_ne_true, hkept, TypeTable.insert_of_new hnew]
  change (⟨_, _, false⟩ : TypeTable) = ⟨_, _, types.frozen⟩
  rw [hfrozen]

/-- What holds of every definition still does when one more is defined. -/
theorem forall_define {p : Definition → Prop} (h : ∀ other ∈ types.definitions, p other)
    {definition : Definition} (hdefinition : p definition) :
    ∀ other ∈ (changeTypes (types.define definition) types).definitions, p other := by
  unfold TypeTable.define
  split
  · exact h
  · intro other hother
    rcases TypeTable.mem_insert hother with rfl | hold
    · exact hdefinition
    · exact h other hold

theorem definitions_reserve (types : TypeTable) (name : String) (kind : FieldKind) :
    (changeTypes (types.reserve name kind) types).definitions = types.definitions := by
  unfold TypeTable.reserve
  split <;> rfl

/-- A struct is added with fields that are declared in the table, or are structs of its own name. -/
theorem structDeclaration_ok {after : TypeTable} (hfrozen : types.frozen = false)
    (hreserved : types.reserved = []) (h : structDeclaration types c = .ok (after, d)) :
    ∃ type : StructDef, type.name ∉ types.names ∧ after = types.grow (.struct type) ∧
      DeclaredIn { types with reserved := [(type.name, .struct)] } (bodyFields type.body) := by
  obtain ⟨name, c₁, hname, hbody⟩ := bind_ok_iff.1 h
  obtain ⟨members, c₂, hmembers, hpure⟩ := bind_ok_iff.1 hbody
  have hnew := freshName_ok hname
  have hreserve : changeTypes (types.reserve name.text .struct) types
      = { types with reserved := [(name.text, .struct)] } := by
    unfold TypeTable.reserve
    rw [hfrozen, hreserved]
    rfl
  rw [hreserve] at hmembers hpure
  obtain ⟨rfl, -⟩ := pure_ok_iff.1 hpure
  refine ⟨⟨name.text, members, name.pos⟩, hnew, ?_, body_ok hmembers⟩
  -- Defining the struct takes its own reservation back, so nothing stays reserved.
  let type : StructDef := ⟨name.text, members, name.pos⟩
  let reserved : TypeTable := { types with reserved := [(name.text, .struct)] }
  have hpromised : ∀ entry ∈ reserved.reserved, entry.1 = type.name := by simp [reserved, type]
  have hgrown : changeTypes (reserved.define (.struct type)) reserved
      = reserved.grow (.struct type) :=
    define_of_new (.struct type) (show reserved.frozen = false from hfrozen) hpromised hnew reserved
  exact hgrown

theorem enumDeclaration_defines {after : TypeTable}
    (h : enumDeclaration types c = .ok (after, d)) :
    ∃ type : EnumDef, type.name ∉ types.names ∧
      after = changeTypes (types.define (.enum type)) types := by
  obtain ⟨name, c₁, hname, hcolon⟩ := bind_ok_iff.1 h
  obtain ⟨colon, c₂, -, hbase⟩ := bind_ok_iff.1 hcolon
  obtain ⟨base, c₃, -, hbrace⟩ := bind_ok_iff.1 hbase
  obtain ⟨brace, c₄, -, hsteps⟩ := bind_ok_iff.1 hbrace
  obtain ⟨steps, c₅, -, hfirst⟩ := bind_ok_iff.1 hsteps
  obtain ⟨first, c₆, -, hmembers⟩ := bind_ok_iff.1 hfirst
  obtain ⟨members, c₇, -, hpure⟩ := bind_ok_iff.1 hmembers
  obtain ⟨rfl, -⟩ := pure_ok_iff.1 hpure
  exact ⟨⟨name.text, base, members, name.pos⟩, freshName_ok hname, rfl⟩

theorem bitfieldDeclaration_defines {after : TypeTable}
    (h : bitfieldDeclaration types c = .ok (after, d)) :
    ∃ type : BitfieldDef, type.name ∉ types.names ∧
      after = changeTypes (types.define (.bitfield type)) types := by
  obtain ⟨name, c₁, hname, hcolon⟩ := bind_ok_iff.1 h
  obtain ⟨colon, c₂, -, hbase⟩ := bind_ok_iff.1 hcolon
  obtain ⟨base, c₃, -, hbrace⟩ := bind_ok_iff.1 hbase
  obtain ⟨brace, c₄, -, hsteps⟩ := bind_ok_iff.1 hbrace
  obtain ⟨steps, c₅, -, hmembers⟩ := bind_ok_iff.1 hsteps
  obtain ⟨members, c₆, -, hpure⟩ := bind_ok_iff.1 hmembers
  obtain ⟨rfl, -⟩ := pure_ok_iff.1 hpure
  exact ⟨⟨name.text, base, members, name.pos⟩, freshName_ok hname, rfl⟩

theorem enumDeclaration_ok {after : TypeTable} (hfrozen : types.frozen = false)
    (hreserved : types.reserved = []) (h : enumDeclaration types c = .ok (after, d)) :
    ∃ type : EnumDef, type.name ∉ types.names ∧ after = types.grow (.enum type) := by
  obtain ⟨type, hnew, rfl⟩ := enumDeclaration_defines h
  have hnone : ∀ entry ∈ types.reserved, entry.1 = type.name := by simp [hreserved]
  exact ⟨type, hnew, define_of_new (.enum type) hfrozen hnone hnew types⟩

theorem bitfieldDeclaration_ok {after : TypeTable} (hfrozen : types.frozen = false)
    (hreserved : types.reserved = []) (h : bitfieldDeclaration types c = .ok (after, d)) :
    ∃ type : BitfieldDef, type.name ∉ types.names ∧ after = types.grow (.bitfield type) := by
  obtain ⟨type, hnew, rfl⟩ := bitfieldDeclaration_defines h
  have hnone : ∀ entry ∈ types.reserved, entry.1 = type.name := by simp [hreserved]
  exact ⟨type, hnew, define_of_new (.bitfield type) hfrozen hnone hnew types⟩

end Reader

/-! ### Sources -/

namespace Draft

/-- What the declaration behind a keyword does to a draft. -/
inductive Step (fs : FileSystem)
    (enter : Standing → Cursor → Draft → Except CompileError Draft) (standing : Standing)
    (draft : Draft) (keyword : Token) (c : Cursor) : Draft → Cursor → Prop
  | included {d : Cursor} {token : Token} {name : String} (word : keyword.isWord "include" = true)
      (directive : includeDirective c = .ok ((token, name), d))
      (target : includeTarget fs standing draft token name = .ok none) :
      Step fs enter standing draft keyword c draft d
  | entered {d : Cursor} {token : Token} {name text : String} {path : Path} {after : Draft}
      (word : keyword.isWord "include" = true)
      (directive : includeDirective c = .ok ((token, name), d))
      (target : includeTarget fs standing draft token name = .ok (some (path, text)))
      (run : enter ⟨path.parent, path :: standing.active, false⟩ (.scan text)
        { draft with included := path :: draft.included } = .ok after) :
      Step fs enter standing draft keyword c after d
  | struct {d : Cursor} {types : TypeTable} (word : keyword.isWord "struct" = true)
      (run : Reader.structDeclaration draft.types c = .ok (types, d)) :
      Step fs enter standing draft keyword c { draft with types } d
  | enum {d : Cursor} {types : TypeTable} (word : keyword.isWord "enum" = true)
      (run : Reader.enumDeclaration draft.types c = .ok (types, d)) :
      Step fs enter standing draft keyword c { draft with types } d
  | bitfield {d : Cursor} {types : TypeTable} (word : keyword.isWord "bitfield" = true)
      (run : Reader.bitfieldDeclaration draft.types c = .ok (types, d)) :
      Step fs enter standing draft keyword c { draft with types } d
  | checked {d : Cursor} {root : List Node} (word : keyword.isWord "schema" = true)
      (inner : standing.outermost = false)
      (run : Reader.body draft.types c = .ok (root, d)) :
      Step fs enter standing draft keyword c draft d
  | root {d : Cursor} {root : List Node} (word : keyword.isWord "schema" = true)
      (outer : standing.outermost = true) (first : draft.root = none)
      (run : Reader.body draft.types c = .ok (root, d)) :
      Step fs enter standing draft keyword c { draft with root := some root } d

variable {fs : FileSystem} {enter : Standing → Cursor → Draft → Except CompileError Draft}
  {standing : Standing} {draft after : Draft} {c d : Cursor}

/-- A source is at its end, or a declaration stands in front of the rest of it. -/
theorem declarations_ok {steps : Nat}
    (h : declarations fs enter standing (steps + 1) draft c = .ok (after, d)) :
    ∃ keyword behind, Reader.next c = .ok (keyword, behind) ∧
      (keyword.kind = .endOfInput ∧ after = draft ∨
        ∃ between middle, Step fs enter standing draft keyword behind between middle ∧
          declarations fs enter standing steps between middle = .ok (after, d)) := by
  unfold declarations at h
  obtain ⟨keyword, behind, hkeyword, hdeclaration⟩ := Reader.bind_ok_iff.1 h
  refine ⟨keyword, behind, hkeyword, ?_⟩
  by_cases hend : keyword.kind = .endOfInput
  · rw [if_pos hend] at hdeclaration
    obtain ⟨rfl, -⟩ := Reader.pure_ok_iff.1 hdeclaration
    exact .inl ⟨hend, rfl⟩
  rw [if_neg hend] at hdeclaration
  right
  by_cases hinclude : keyword.isWord "include" = true
  · rw [if_pos hinclude] at hdeclaration
    obtain ⟨⟨token, name⟩, c₁, hdirective, hread⟩ := Reader.bind_ok_iff.1 hdeclaration
    obtain ⟨target, c₂, hlift, hafter⟩ := Reader.bind_ok_iff.1 hread
    obtain ⟨htarget, rfl⟩ := Reader.lift_ok_iff.1 hlift
    cases target with
    | none => exact ⟨draft, c₁, .included hinclude hdirective htarget, hafter⟩
    | some file =>
      obtain ⟨path, text⟩ := file
      obtain ⟨entered, c₃, hlifted, hrest⟩ := Reader.bind_ok_iff.1 hafter
      obtain ⟨hrun, rfl⟩ := Reader.lift_ok_iff.1 hlifted
      exact ⟨entered, c₁, .entered hinclude hdirective htarget hrun, hrest⟩
  rw [if_neg hinclude] at hdeclaration
  by_cases hstruct : keyword.isWord "struct" = true
  · rw [if_pos hstruct] at hdeclaration
    obtain ⟨types, c₁, hrun, hrest⟩ := Reader.bind_ok_iff.1 hdeclaration
    exact ⟨_, c₁, .struct hstruct hrun, hrest⟩
  rw [if_neg hstruct] at hdeclaration
  by_cases henum : keyword.isWord "enum" = true
  · rw [if_pos henum] at hdeclaration
    obtain ⟨types, c₁, hrun, hrest⟩ := Reader.bind_ok_iff.1 hdeclaration
    exact ⟨_, c₁, .enum henum hrun, hrest⟩
  rw [if_neg henum] at hdeclaration
  by_cases hbitfield : keyword.isWord "bitfield" = true
  · rw [if_pos hbitfield] at hdeclaration
    obtain ⟨types, c₁, hrun, hrest⟩ := Reader.bind_ok_iff.1 hdeclaration
    exact ⟨_, c₁, .bitfield hbitfield hrun, hrest⟩
  rw [if_neg hbitfield] at hdeclaration
  by_cases hschema : keyword.isWord "schema" = true
  · rw [if_pos hschema] at hdeclaration
    obtain ⟨root, c₁, hrun, hstanding⟩ := Reader.bind_ok_iff.1 hdeclaration
    cases houter : standing.outermost with
    | false =>
      simp only [houter, Bool.not_false, if_true] at hstanding
      exact ⟨draft, c₁, .checked hschema houter hrun, hstanding⟩
    | true =>
      simp only [houter, Bool.not_true, Bool.false_eq_true, if_false] at hstanding
      obtain ⟨hfirst, hrest⟩ := Reader.refuse_ok_iff.1 hstanding
      have hnone : draft.root = none := by simpa using hfirst
      exact ⟨_, c₁, .root hschema houter hnone hrun, hrest⟩
  · rw [if_neg hschema] at hdeclaration
    obtain ⟨_, _, hthrow, -⟩ := Reader.bind_ok_iff.1 hdeclaration
    exact (Reader.throw_ok_iff.1 hthrow).elim

/-- What every declaration keeps, a source keeps with all that it includes. -/
theorem read_keeps {fs : FileSystem} {invariant : Draft → Prop}
    (hstep : ∀ {enter : Standing → Cursor → Draft → Except CompileError Draft}
      {standing : Standing} {draft after : Draft} {keyword : Token} {c d : Cursor},
      (∀ {standing : Standing} {c : Cursor} {draft after : Draft},
        enter standing c draft = .ok after → invariant draft → invariant after) →
      Step fs enter standing draft keyword c after d → invariant draft → invariant after)
    {levels : Nat} {standing : Standing} {c : Cursor} {draft after : Draft}
    (h : read fs levels standing c draft = .ok after) (hdraft : invariant draft) :
    invariant after := by
  -- Induction on the levels of inclusion, and inside it on the declarations of one source.
  induction levels generalizing standing c draft after with
  | zero =>
    cases h
    exact hdraft
  | succ levels ih =>
    have hdeclarations (steps : Nat) (c d : Cursor) (draft after : Draft)
        (h : declarations fs (read fs levels) standing steps draft c = .ok (after, d))
        (hdraft : invariant draft) : invariant after := by
      induction steps generalizing c draft with
      | zero =>
        obtain ⟨rfl, -⟩ := Reader.pure_ok_iff.1 h
        exact hdraft
      | succ steps ih' =>
        obtain ⟨keyword, behind, -, ⟨-, rfl⟩ | ⟨between, middle, hone, hrest⟩⟩ :=
          declarations_ok h
        · exact hdraft
        · exact ih' middle between hrest (hstep ih hone hdraft)
    unfold read at h
    cases hrun : declarations fs (read fs levels) standing (c.tokens.length + 1) draft c with
    | error e =>
      rw [hrun] at h
      cases h
    | ok result =>
      rw [hrun] at h
      cases h
      exact hdeclarations _ _ _ _ _ hrun hdraft

end Draft

end BinarySchema
