import BinarySchema.Proofs.Except
import BinarySchema.Proofs.Schema.Grammar

/-!
# Compiling printed schemas

Compiling undoes printing: the source text that a schema is printed as compiles to the same definitions
in the same order and to the same root, comments included. What the source cannot keep is only what bare
forms leave out, the places of the declarations and the spelling of numbers.

Between two declarations the table holds the definitions that were printed so far. Lookup goes by names
and kinds, so it cannot tell these definitions from the ones that were read again, and each declaration is
read in the scope that the references of the printed one need.
-/

namespace BinarySchema

/-- That a schema can be written as a source: its names are told apart, and what a declaration refers to
stands before it. -/
structure Printable (definitions : List Definition) (root : Option (List Node)) : Prop where
  identifiers : ∀ definition ∈ definitions, Lexeme.isIdentifier definition.name.toList = true
  noPrimitives : ∀ definition ∈ definitions, Primitive.ofWord? definition.name = none
  distinct : (definitions.map Definition.name).Nodup
  plain : ∀ definition ∈ definitions, definition.Plain
  references : ∀ (i : Nat) (definition : Definition), definitions[i]? = some definition →
    ∀ declared ∈ definition.fields, declared.type.ResolvesUpTo { definitions } i
  rootPlain : ∀ body ∈ root, PlainBody body
  rootReferences : ∀ body ∈ root, ∀ declared ∈ bodyFields body,
    declared.type.Resolves { definitions }

/-! ### Names -/

@[simp] theorem Definition.name_bare (definition : Definition) :
    definition.bare.name = definition.name := by
  cases definition <;> rfl

@[simp] theorem Definition.kind_bare (definition : Definition) :
    definition.bare.kind = definition.kind := by
  cases definition <;> rfl

namespace Printable

variable {definitions : List Definition} {root : Option (List Node)}

theorem name_of_resolves (h : Printable definitions root) {kind : FieldKind} {name : String}
    (hresolves : (TypeRef.named kind name).Resolves { definitions }) :
    Lexeme.isIdentifier name.toList = true ∧ Primitive.ofWord? name = none := by
  obtain ⟨definition, hfound, -⟩ := hresolves
  have hmem := TypeTable.mem_of_find? hfound
  rw [← TypeTable.name_of_find? hfound]
  exact ⟨h.identifiers definition hmem, h.noPrimitives definition hmem⟩

theorem isIdentifier_type (h : Printable definitions root) {type : TypeRef}
    (hresolves : type.Resolves { definitions }) :
    Lexeme.isIdentifier type.name.toList = true := by
  cases type with
  | primitive type => exact isIdentifier_keyword type
  | named kind name => exact (h.name_of_resolves hresolves).1

theorem scannable (h : Printable definitions root) :
    ∀ piece ∈ definitions.flatMap Definition.pieces ++ rootPieces root, piece.Scannable := by
  refine scannable_append (scannable_flatMap fun definition hmem => ?_) ?_
  · obtain ⟨i, hi⟩ := List.mem_iff_getElem?.1 hmem
    refine (h.plain definition hmem).scannable (h.identifiers definition hmem) ?_
    intro declared hdeclared
    exact h.isIdentifier_type (h.references i definition hi declared hdeclared).resolves
  · cases hroot : root with
    | none => exact List.forall_mem_nil _
    | some body =>
      have htypes : ∀ declared ∈ bodyFields body,
          Lexeme.isIdentifier declared.type.name.toList = true :=
        fun declared hdeclared => h.isIdentifier_type (h.rootReferences body hroot declared hdeclared)
      exact scannable_word_cons (by decide) (scannable_mark_cons (by decide)
        (scannable_append (PlainBody.scannable body (h.rootPlain body hroot) htypes)
          (scannable_close (by decide))))

end Printable

/-! ### Tables -/

/-- A table between two declarations, with definitions of the same bare forms as the printed ones. -/
structure TypeTable.Holds (types : TypeTable) (printed : List Definition) : Prop where
  frozen : types.frozen = false
  reserved : types.reserved = []
  definitions : types.definitions.map Definition.bare = printed.map Definition.bare

namespace TypeTable.Holds

variable {types : TypeTable} {printed : List Definition}

theorem names (h : types.Holds printed) : types.names = printed.map Definition.name := by
  have hnames := congrArg (List.map Definition.name) h.definitions
  simpa only [TypeTable.names, List.map_map, Function.comp_def, Definition.name_bare] using hnames

theorem find?_kind (h : types.Holds printed) (name : String) :
    (types.find? name).map Definition.kind
      = (find? { definitions := printed } name).map Definition.kind := by
  have hkind (table : TypeTable) : (table.find? name).map Definition.kind
      = ((table.definitions.map Definition.bare).find? (·.name = name)).map Definition.kind := by
    simp only [find?, List.find?_map, Option.map_map, Function.comp_def, Definition.name_bare,
      Definition.kind_bare]
  rw [hkind types, h.definitions, ← hkind { definitions := printed }]

theorem kindOf?_of_find? (h : types.Holds printed) {name : String} {definition : Definition}
    (hfound : find? { definitions := printed } name = some definition)
    (reserved : List (String × FieldKind)) :
    kindOf? { types with reserved } name = some definition.kind := by
  have hsame := h.find?_kind name
  rw [hfound] at hsame
  obtain ⟨read, hread, hkind⟩ := Option.map_eq_some_iff.1 hsame
  have hreserved : find? { types with reserved } name = some read := hread
  rw [kindOf?, hreserved, ← hkind]

theorem grow (h : types.Holds printed) {definition read : Definition}
    (hread : read.bare = definition.bare) : (types.grow read).Holds (printed ++ [definition]) where
  frozen := h.frozen
  reserved := rfl
  definitions := by
    rw [TypeTable.grow, List.map_append, List.map_append, h.definitions, List.map_singleton,
      List.map_singleton, hread]

theorem declares_eq_false (h : types.Holds printed) {name : String}
    (hnew : name ∉ printed.map Definition.name) : types.declares name = false := by
  have hfind : types.find? name = none := by
    rw [find?_eq_none_iff, h.names]
    exact hnew
  rw [declares, contains, hfind, reservedKind?, h.reserved]
  rfl

end TypeTable.Holds

/-! ### Scopes -/

namespace Printable

variable {definitions : List Definition} {root : Option (List Node)} {types : TypeTable}

theorem knownIn_of_resolves (h : Printable definitions root) {type : TypeRef}
    (hresolves : type.Resolves { definitions })
    (hkind : ∀ kind name, type = .named kind name → types.kindOf? name = some kind) :
    type.KnownIn types := by
  cases type with
  | primitive _ => trivial
  | named kind name => exact ⟨(h.name_of_resolves hresolves).2, hkind kind name rfl⟩

theorem knownIn_root (h : Printable definitions root) (htypes : types.Holds definitions)
    {body : List Node} (hbody : body ∈ root) :
    ∀ declared ∈ bodyFields body, declared.type.KnownIn types := by
  intro declared hdeclared
  have hresolves := h.rootReferences body hbody declared hdeclared
  refine h.knownIn_of_resolves hresolves fun kind name htype => ?_
  rw [htype] at hresolves
  obtain ⟨definition, hfound, rfl⟩ := hresolves
  exact htypes.kindOf?_of_find? hfound types.reserved

/-- The fields of a definition have types that are known behind the definitions before it, where the name
of a struct is reserved. -/
theorem knownIn_scope {before rest : List Definition} {definition : Definition}
    (h : Printable (before ++ definition :: rest) root) (htypes : types.Holds before) :
    ∀ declared ∈ definition.fields,
      declared.type.KnownIn { types with reserved := [(definition.name, .struct)] } := by
  intro declared hdeclared
  have hplace : (before ++ definition :: rest)[before.length]? = some definition := by simp
  have hresolves := h.references before.length definition hplace declared hdeclared
  refine h.knownIn_of_resolves hresolves.resolves fun kind name htype => ?_
  rw [htype] at hresolves
  obtain ⟨i, found, hi, hfound, rfl, hposition⟩ := hresolves
  cases hbefore : TypeTable.find? { definitions := before } name with
  | some earlier =>
    have hsame : TypeTable.find? { definitions := before ++ definition :: rest } name
        = some earlier := by
      have hearlier : before.find? (·.name = name) = some earlier := hbefore
      rw [TypeTable.find?, List.find?_append, hearlier]
      rfl
    rw [hsame] at hfound
    cases hfound
    exact htypes.kindOf?_of_find? hbefore _
  | none =>
    -- A name that does not stand before the definition can only be its own.
    have hname := TypeTable.name_of_find? hfound
    have hnew : name ∉ before.map Definition.name := TypeTable.find?_eq_none_iff.1 hbefore
    rcases hposition with hearlier | ⟨rfl, hstruct⟩
    · rw [List.getElem?_append_left hearlier] at hi
      exact absurd (List.mem_map.2 ⟨found, List.mem_of_getElem? hi, hname⟩) hnew
    · rw [hplace] at hi
      cases hi
      have hnone : TypeTable.find? { types with reserved := [(definition.name, .struct)] } name
          = none := by
        rw [← htypes.names] at hnew
        exact TypeTable.find?_eq_none_iff.2 hnew
      rw [TypeTable.kindOf?, hnone, TypeTable.reservedKind?, hname, hstruct]
      simp

theorem isNew {before rest : List Definition} {definition : Definition}
    (h : Printable (before ++ definition :: rest) root) (htypes : types.Holds before) :
    types.declares definition.name = false := by
  have hdistinct := h.distinct
  rw [List.map_append, List.map_cons, List.nodup_append] at hdistinct
  exact htypes.declares_eq_false fun hmem => hdistinct.2.2 _ hmem _ (by simp) rfl

end Printable

namespace Reader.Reads

/-! ### Sources -/

/-- Behind the last token. -/
def AtEnd (cursor : Cursor) : Prop :=
  ∃ pos, cursor = ⟨[], .finished pos⟩

theorem next_end_bind {β : Type} {f : Token → Reader β} {q : β → Prop}
    (hf : ∀ token : Token, token.kind = .endOfInput → Reads AtEnd [] (f token) q) :
    Reads AtEnd [] (Reader.next >>= f) q := by
  rintro tokens htokens rest ⟨pos, rfl⟩
  obtain rfl := List.map_eq_nil_iff.1 htokens
  obtain ⟨b, hrun, hb⟩ :=
    hf (TokenStream.endToken pos) rfl [] rfl ⟨[], .finished pos⟩ ⟨pos, rfl⟩
  exact ⟨b, bind_ok_iff.2 ⟨_, _, rfl, hrun⟩, hb⟩

variable {fs : FileSystem} {enter : Standing → Cursor → Draft → Except CompileError Draft}
  {standing : Standing} {definitions : List Definition} {root : Option (List Node)}

theorem declarations_end (draft : Draft) (steps : Nat) :
    Reads AtEnd [] (Draft.declarations fs enter standing steps draft) (· = draft) := by
  cases steps with
  | zero => exact pure rfl
  | succ steps =>
    refine next_end_bind fun token htoken => ?_
    rw [if_pos htoken]
    exact pure rfl

theorem word_ne_end {token : Token} {word : String} (h : token.piece = .word word) :
    ¬ token.kind = .endOfInput := by
  rw [(Piece.mk.inj h).1]
  nofun

/-- One definition grows the table by itself. -/
theorem definition_bind {before rest : List Definition} {definition : Definition}
    (h : Printable (before ++ definition :: rest) root) {draft : Draft}
    (htypes : draft.types.Holds before) {steps : Nat} {back : List Piece} {q : Draft → Prop}
    (hback : ∀ types : TypeTable, types.Holds (before ++ [definition]) →
      Reads AtEnd back (Draft.declarations fs enter standing steps { draft with types }) q) :
    Reads AtEnd (definition.pieces ++ back)
      (Draft.declarations fs enter standing (steps + 1) draft) q := by
  have hmem : definition ∈ before ++ definition :: rest := by simp
  have hplain := h.plain definition hmem
  have hname := h.identifiers definition hmem
  have hword := h.noPrimitives definition hmem
  have hnew := h.isNew htypes
  have hgrow : ∀ after, GrowsBy draft.types definition after →
      Reads AtEnd back (Draft.declarations fs enter standing steps { draft with types := after }) q := by
    rintro _ ⟨read, hread, rfl⟩
    exact hback _ (htypes.grow hread)
  cases definition with
  | struct d =>
    refine next_bind nofun fun token htoken => ?_
    simp only [word_ne_end htoken, Token.isWord_of_word htoken, String.reduceEq, decide_true,
      decide_false, Bool.false_eq_true, if_false, if_true, pure_bind]
    have hknown := h.knownIn_scope htypes
    exact bind (structDeclaration htypes.frozen htypes.reserved hplain hknown hname hword hnew) hgrow
  | enum d =>
    refine next_bind nofun fun token htoken => ?_
    simp only [word_ne_end htoken, Token.isWord_of_word htoken, String.reduceEq, decide_true,
      decide_false, Bool.false_eq_true, if_false, if_true, pure_bind]
    exact bind (enumDeclaration htypes.frozen htypes.reserved hplain hname hword hnew) hgrow
  | bitfield d =>
    refine next_bind nofun fun token htoken => ?_
    simp only [word_ne_end htoken, Token.isWord_of_word htoken, String.reduceEq, decide_true,
      decide_false, Bool.false_eq_true, if_false, if_true, pure_bind]
    exact bind (bitfieldDeclaration htypes.frozen htypes.reserved hplain hname hword hnew) hgrow

theorem declarations_root (h : Printable definitions root) (houtermost : standing.outermost = true)
    {draft : Draft} (htypes : draft.types.Holds definitions) (hroot : draft.root = none) {steps : Nat}
    (hsteps : (rootPieces root).length < steps) :
    Reads AtEnd (rootPieces root) (Draft.declarations fs enter standing steps draft)
      (fun after => after.types.Holds definitions ∧ after.root.map bareBody = root.map bareBody) := by
  obtain ⟨steps, rfl⟩ : ∃ fewer, steps = fewer + 1 := ⟨steps - 1, by omega⟩
  cases root with
  | none =>
    refine next_end_bind fun token htoken => ?_
    rw [if_pos htoken]
    exact pure ⟨htypes, by rw [hroot]⟩
  | some members =>
    refine next_bind nofun fun token htoken => ?_
    simp only [word_ne_end htoken, Token.isWord_of_word htoken, String.reduceEq, decide_true,
      decide_false, Bool.false_eq_true, if_false, if_true, pure_bind, houtermost, hroot,
      Bool.not_true, Option.isSome_none]
    refine bind_last (body (h.rootPlain members rfl) (h.knownIn_root htypes rfl)) fun read hread => ?_
    intro tokens htokens rest hrest
    obtain ⟨after, hrun, rfl⟩ := declarations_end _ steps tokens htokens rest hrest
    exact ⟨_, hrun, htypes, by rw [Option.map_some, Option.map_some, hread]⟩

theorem declarations (h : Printable definitions root) (houtermost : standing.outermost = true)
    {before rest : List Definition} (hsplit : definitions = before ++ rest) {draft : Draft}
    (htypes : draft.types.Holds before) (hroot : draft.root = none) {steps : Nat}
    (hsteps : (rest.flatMap Definition.pieces ++ rootPieces root).length < steps) :
    Reads AtEnd (rest.flatMap Definition.pieces ++ rootPieces root)
      (Draft.declarations fs enter standing steps draft)
      (fun after => after.types.Holds definitions ∧ after.root.map bareBody = root.map bareBody) := by
  induction rest generalizing before draft steps with
  | nil =>
    rw [List.append_nil] at hsplit
    subst hsplit
    exact declarations_root h houtermost htypes hroot hsteps
  | cons definition rest ih =>
    obtain ⟨steps, rfl⟩ : ∃ fewer, steps = fewer + 1 := ⟨steps - 1, by omega⟩
    have hlength : 0 < definition.pieces.length := by cases definition <;> exact Nat.succ_pos _
    rw [List.flatMap_cons, List.append_assoc] at hsteps ⊢
    rw [List.length_append] at hsteps
    rw [hsplit] at h
    refine definition_bind h htypes fun types hgrown => ?_
    refine ih (hsplit.trans (List.append_cons before definition rest)) ?_ ?_ (by omega)
    · exact hgrown
    · exact hroot

end Reader.Reads

/-- A schema without places and spellings of numbers. -/
def Schema.bare (schema : Schema) : Schema :=
  { schema with
    types := { schema.types with definitions := schema.types.definitions.map Definition.bare }
    root := schema.root.map bareBody }

theorem TypeTable.Holds.finish {draft : Draft} {definitions : List Definition}
    {root : Option (List Node)} (h : draft.types.Holds definitions)
    (hroot : draft.root.map bareBody = root.map bareBody) :
    (draft.finish none).bare = Schema.bare ⟨{ definitions, frozen := true }, root, none⟩ := by
  simp only [Draft.finish, Schema.bare, TypeTable.freeze, h.definitions, hroot]

theorem Draft.read_printSchema (fs : FileSystem) (levels : Nat) {standing : Standing}
    (houtermost : standing.outermost = true) {definitions : List Definition}
    {root : Option (List Node)} (h : Printable definitions root) :
    ∃ draft, read fs (levels + 1) standing (.scan (printSchema definitions root)) {} = .ok draft ∧
      draft.types.Holds definitions ∧ draft.root.map bareBody = root.map bareBody := by
  obtain ⟨tokens, last, hscan, htokens⟩ := Piece.scan_layout h.scannable
  have hsteps : (definitions.flatMap Definition.pieces ++ rootPieces root).length
      < tokens.length + 1 := by
    rw [← htokens, List.length_map]
    exact Nat.lt_succ_self _
  have hempty : ({} : Draft).types.Holds [] := ⟨rfl, rfl, rfl⟩
  have hreads : Reader.Reads Reader.Reads.AtEnd
      (definitions.flatMap Definition.pieces ++ rootPieces root)
      (declarations fs (read fs levels) standing (tokens.length + 1) {})
      (fun after => after.types.Holds definitions ∧ after.root.map bareBody = root.map bareBody) :=
    Reader.Reads.declarations h houtermost (List.nil_append definitions).symm hempty rfl hsteps
  obtain ⟨draft, hrun, hdraft⟩ := hreads tokens htokens ⟨[], .finished last⟩ ⟨last, rfl⟩
  rw [List.append_nil] at hrun
  refine ⟨draft, ?_, hdraft⟩
  rw [read, printSchema, hscan]
  exact Except.map_ok_iff.2 ⟨_, hrun, rfl⟩

/-- Compiling undoes printing. -/
theorem compile_printSchema (fs : FileSystem) (directory : Option String)
    {definitions : List Definition} {root : Option (List Node)} (h : Printable definitions root) :
    ∃ schema, Schema.compile fs (printSchema definitions root) directory = .ok schema ∧
      schema.bare = Schema.bare ⟨{ definitions, frozen := true }, root, none⟩ := by
  have hread (base : Path) : ∃ draft,
      Draft.read fs (fs.files.length + 1) ⟨base, [], true⟩ (.scan (printSchema definitions root)) {}
          = .ok draft ∧
        (draft.finish none).bare = Schema.bare ⟨{ definitions, frozen := true }, root, none⟩ := by
    have houtermost : (⟨base, [], true⟩ : Standing).outermost = true := rfl
    obtain ⟨draft, hrun, htypes, hroot⟩ := Draft.read_printSchema fs fs.files.length houtermost h
    exact ⟨draft, hrun, htypes.finish hroot⟩
  cases directory with
  | none =>
    obtain ⟨draft, hrun, hbare⟩ := hread fs.workingDirectory
    exact ⟨_, Except.bind_ok_iff.2 ⟨draft, hrun, rfl⟩, hbare⟩
  | some name =>
    obtain ⟨draft, hrun, hbare⟩ := hread (Path.resolve fs.workingDirectory name)
    exact ⟨_, Except.bind_ok_iff.2 ⟨draft, hrun, rfl⟩, hbare⟩

/-- An enum, a bitfield, and a struct that holds trees of its own. -/
def treeDefinitions : List Definition :=
  [.enum ⟨"Kind", .byte, [⟨"Leaf", -1⟩, ⟨"Node", 26⟩], .first⟩,
   .bitfield ⟨"Flags", .ushort, [⟨"low", 4, some "spare"⟩, ⟨"high", 12, none⟩], .first⟩,
   .struct ⟨"Tree",
    [.field ⟨"kind", .named .enum "Kind", .first, none, some "leaf or node"⟩,
     .block ⟨⟨false, false⟩, ⟨[⟨.name, "kind", .first⟩, ⟨.operator, "=", .first⟩,
       ⟨.constant, "Kind.Node", .first⟩], .first⟩, .first⟩
       [.block ⟨⟨true, true⟩, ⟨[⟨.probe, "@eof", .first⟩], .first⟩, .first⟩
         [.field ⟨"flags", .named .bitfield "Flags", .first, none, none⟩,
          .field ⟨"trees", .named .struct "Tree", .first,
            some ⟨[⟨.number 2, "2", .first⟩, ⟨.operator, "*", .first⟩,
              ⟨.name, "kind", .first⟩], .first⟩, none⟩]]],
    .first⟩]

def treeRoot : Option (List Node) :=
  some [.field ⟨"tree", .named .struct "Tree", .first, none, none⟩]

theorem treeDefinitions_printable : Printable treeDefinitions treeRoot where
  identifiers := by decide +kernel
  noPrimitives := by decide +kernel
  distinct := by decide +kernel
  plain := by decide +kernel
  references := by
    intro i definition hi declared hdeclared
    match i with
    | 0 =>
      cases hi
      cases hdeclared
    | 1 =>
      cases hi
      cases hdeclared
    | 2 =>
      cases hi
      have hfields : declared.type = .named .enum "Kind" ∨ declared.type = .named .bitfield "Flags" ∨
          declared.type = .named .struct "Tree" := by
        revert declared
        decide +kernel
      rcases hfields with htype | htype | htype <;> rw [htype]
      · exact ⟨0, _, rfl, rfl, rfl, .inl (by decide)⟩
      · exact ⟨1, _, rfl, rfl, rfl, .inl (by decide)⟩
      · exact ⟨2, _, rfl, rfl, rfl, .inr ⟨rfl, rfl⟩⟩
    | i + 3 => cases hi
  rootPlain := by decide +kernel
  rootReferences := by
    rintro _ ⟨⟩ declared hdeclared
    obtain rfl := List.mem_singleton.1 hdeclared
    exact ⟨_, rfl, rfl⟩

theorem compile_printSchema_trees :
    Printable treeDefinitions treeRoot ∧
      ∃ schema, Schema.compile {} (printSchema treeDefinitions treeRoot) none = .ok schema ∧
        schema.bare
          = Schema.bare ⟨{ definitions := treeDefinitions, frozen := true }, treeRoot, none⟩ := by
  have h := treeDefinitions_printable
  exact ⟨h, compile_printSchema {} none h⟩

end BinarySchema
