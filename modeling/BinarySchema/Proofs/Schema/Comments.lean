import BinarySchema.Proofs.Schema.Quiet
import BinarySchema.Proofs.Schema.Run
import BinarySchema.Proofs.Token.Lexemes

/-!
# Comments are inert

Compiling a text without its comments gives what compiling it with them does, error or schema, and the
schema has no documentation for what the text itself declares. Included sources keep their comments, so
along a run the documentation is dropped for the names that the outermost source has declared so far.
-/

namespace BinarySchema

/-! ### Without documentation -/

section

variable (names : List String)

def Definition.undocumented (definition : Definition) : Definition :=
  if definition.name ∈ names then definition.view .undocumented else definition

def TypeTable.undocumented (types : TypeTable) : TypeTable :=
  { types with definitions := types.definitions.map (Definition.undocumented names) }

/-- A schema without the comments of its root and of the definitions with some names. -/
def Schema.undocumented (schema : Schema) : Schema :=
  { schema with
    types := schema.types.undocumented names
    root := schema.root.map (bodyView .undocumented) }

def Draft.undocumented (draft : Draft) : Draft :=
  { draft with
    types := draft.types.undocumented names
    root := draft.root.map (bodyView .undocumented) }

def Draft.Effect.undocumented : Draft.Effect → Draft.Effect
  | .goes after => .goes (after.undocumented names)
  | .enters path text => .enters path text

end

namespace TypeTable

variable {names : List String} {types : TypeTable} {definition : Definition}

theorem undocumented_agrees (h : types.Open) : types.Agrees (types.undocumented names) := by
  have hsignature (definition : Definition) :
      ((definition.undocumented names).name, (definition.undocumented names).kind)
        = (definition.name, definition.kind) := by
    unfold Definition.undocumented
    split
    · rw [Definition.name_view, Definition.kind_view]
    · rfl
  refine agrees_of_signatures h ⟨h.frozen, h.reserved⟩ ?_
  rw [undocumented, List.map_map]
  exact (List.map_congr_left fun definition _ => hsignature definition).symm

theorem undocumented_grow_of_not_mem (h : definition.name ∉ names) :
    (types.grow definition).undocumented names = (types.undocumented names).grow definition := by
  unfold undocumented grow
  rw [List.map_append, List.map_singleton, Definition.undocumented, if_neg h]

theorem undocumented_grow_self (hnew : definition.name ∉ types.names) :
    (types.grow definition).undocumented (names ++ [definition.name])
      = (types.undocumented names).grow (definition.view .undocumented) := by
  have hold : ∀ other ∈ types.definitions,
      other.undocumented (names ++ [definition.name]) = other.undocumented names := by
    intro other hother
    have hne : other.name ≠ definition.name := by
      intro hname
      exact hnew (hname ▸ List.mem_map_of_mem hother)
    have hmem : other.name ∈ names ++ [definition.name] ↔ other.name ∈ names := by
      rw [List.mem_append, List.mem_singleton, or_iff_left hne]
    unfold Definition.undocumented
    simp only [hmem]
  have hself : definition.undocumented (names ++ [definition.name])
      = definition.view .undocumented := by
    unfold Definition.undocumented
    rw [if_pos (by simp)]
  unfold undocumented grow
  rw [List.map_append, List.map_singleton, hself, List.map_congr_left hold]

end TypeTable

/-! ### Declarations of new names -/

namespace Reader

variable {types : TypeTable} {c d : Cursor} {keyword : Token} {definition : Definition}

theorem structDefinition_new (h : structDefinition types c = .ok (definition, d)) :
    definition.name ∉ types.names := by
  obtain ⟨name, _, hname, hrest⟩ := bind_ok_iff.1 h
  obtain ⟨_, _, -, hpure⟩ := bind_ok_iff.1 hrest
  obtain ⟨rfl, -⟩ := pure_ok_iff.1 hpure
  exact freshName_ok hname

theorem enumDefinition_new (h : enumDefinition types c = .ok (definition, d)) :
    definition.name ∉ types.names := by
  obtain ⟨name, _, hname, hcolon⟩ := bind_ok_iff.1 h
  obtain ⟨_, _, -, hbase⟩ := bind_ok_iff.1 hcolon
  obtain ⟨base, _, -, hopen⟩ := bind_ok_iff.1 hbase
  obtain ⟨_, _, -, hcount⟩ := bind_ok_iff.1 hopen
  obtain ⟨_, _, -, hfirst⟩ := bind_ok_iff.1 hcount
  obtain ⟨_, _, -, hmembers⟩ := bind_ok_iff.1 hfirst
  obtain ⟨_, _, -, hpure⟩ := bind_ok_iff.1 hmembers
  obtain ⟨rfl, -⟩ := pure_ok_iff.1 hpure
  exact freshName_ok hname

theorem bitfieldDefinition_new (h : bitfieldDefinition types c = .ok (definition, d)) :
    definition.name ∉ types.names := by
  obtain ⟨name, _, hname, hcolon⟩ := bind_ok_iff.1 h
  obtain ⟨_, _, -, hbase⟩ := bind_ok_iff.1 hcolon
  obtain ⟨base, _, -, hopen⟩ := bind_ok_iff.1 hbase
  obtain ⟨_, _, -, hcount⟩ := bind_ok_iff.1 hopen
  obtain ⟨_, _, -, hmembers⟩ := bind_ok_iff.1 hcount
  obtain ⟨_, _, -, hpure⟩ := bind_ok_iff.1 hmembers
  obtain ⟨rfl, -⟩ := pure_ok_iff.1 hpure
  exact freshName_ok hname

theorem declaration?_new {declared : Declaration}
    (h : declaration? types c = .ok (some (keyword, declared), d)) :
    ∀ name ∈ declared.declared?, name ∉ types.names := by
  obtain ⟨between, -, -, hread⟩ := declaration?_some_iff.1 h
  obtain ⟨directive, rfl, -⟩ | ⟨definition, rfl, hdefinition⟩ | ⟨body, rfl, -⟩ :=
    declaration_cases hread
  · exact nofun
  · rintro name ⟨⟩
    rcases hdefinition with hstruct | henum | hbitfield
    · exact structDefinition_new hstruct
    · exact enumDefinition_new henum
    · exact bitfieldDefinition_new hbitfield
  · exact nofun

end Reader

namespace Draft

open Reader (Declaration declaration?)

variable {fs : FileSystem} {standing : Standing} {draft : Draft} {names : List String}
  {keyword : Token} {declared : Declaration}

theorem declaration?_undocumented (h : draft.types.Open) :
    declaration? (draft.undocumented names).types = declaration? draft.types :=
  (Reader.declaration?_congr (TypeTable.undocumented_agrees h) h ⟨h.frozen, h.reserved⟩).symm

/-- A declaration of the outermost source goes without comments. -/
theorem effect_undocumented (hnew : ∀ name ∈ declared.declared?, name ∉ draft.types.names) :
    effect fs standing (draft.undocumented names) keyword (declared.view .undocumented)
      = (effect fs standing draft keyword declared).map
          (Effect.undocumented (names ++ declared.declared?.toList)) := by
  cases declared with
  | definition definition =>
    have hgrow : (draft.types.grow definition).undocumented (names ++ [definition.name]) = _ :=
      TypeTable.undocumented_grow_self (hnew _ rfl)
    dsimp only [effect, Declaration.view, Declaration.declared?, Option.toList, Except.map,
      Effect.undocumented, undocumented]
    rw [hgrow]
  | root body =>
    obtain ⟨types, root, included⟩ := draft
    dsimp only [effect, Declaration.view, Declaration.declared?, Option.toList]
    rw [List.append_nil]
    split
    · rfl
    · cases root <;> rfl
  | inclusion token name =>
    dsimp only [effect, Declaration.view, Declaration.declared?, Option.toList]
    rw [List.append_nil]
    change (includeTarget fs standing draft token name).map _ = _
    cases includeTarget fs standing draft token name with
    | error e => rfl
    | ok target => cases target <;> rfl

theorem effect_undocumented_inside (houter : standing.outermost = false)
    (hother : ∀ name ∈ declared.declared?, name ∉ names) :
    effect fs standing (draft.undocumented names) keyword declared
      = (effect fs standing draft keyword declared).map (Effect.undocumented names) := by
  cases declared with
  | definition definition =>
    have hgrow : (draft.types.grow definition).undocumented names = _ :=
      TypeTable.undocumented_grow_of_not_mem (hother _ rfl)
    dsimp only [effect, Except.map, Effect.undocumented, undocumented]
    rw [hgrow]
  | root body =>
    dsimp only [effect]
    rw [if_pos houter, if_pos houter]
    rfl
  | inclusion token name =>
    dsimp only [effect]
    change (includeTarget fs standing draft token name).map _ = _
    cases includeTarget fs standing draft token name with
    | error e => rfl
    | ok target => cases target <;> rfl

theorem effect_names {after : Draft}
    (h : effect fs standing draft keyword declared = .ok (.goes after)) :
    after.types.names = draft.types.names ++ declared.declared?.toList := by
  cases declared with
  | definition definition =>
    cases h
    exact List.map_append
  | root body =>
    unfold effect at h
    dsimp only at h
    split at h
    · cases h
      exact (List.append_nil _).symm
    · split at h <;> cases h
      exact (List.append_nil _).symm
  | inclusion token name =>
    obtain ⟨target, -, hgoes⟩ := Except.map_ok_iff.1 h
    cases target <;> cases hgoes
    exact (List.append_nil _).symm

namespace Run

variable {c : Cursor} {met : List Path} {result : Except CompileError Draft}

theorem names_subset {after : Draft} (h : Run fs standing draft c met (.ok after)) :
    draft.types.names ⊆ after.types.names := by
  generalize hresult : (Except.ok after : Except CompileError Draft) = result at h
  induction h generalizing after with
  | failed | refused | broken => cases hresult
  | ended =>
    cases hresult
    exact List.Subset.refl _
  | went read effect rest ih =>
    have hnames := effect_names effect
    exact fun name hname => ih hresult (hnames ▸ List.mem_append_left _ hname)
  | entered read effect inside rest ih ih' =>
    exact fun name hname => ih' hresult (ih rfl hname)

/-- A run over an included source keeps its comments. -/
theorem undocumented_inside (h : Run fs standing draft c met result)
    (houter : standing.outermost = false) (hopen : draft.types.Open)
    (hnames : names ⊆ draft.types.names) :
    Run fs standing (draft.undocumented names) c met (result.map (undocumented names)) := by
  have hread {draft : Draft} {c : Cursor} (hopen : draft.types.Open) :
      declaration? (draft.undocumented names).types c = declaration? draft.types c :=
    congrFun (declaration?_undocumented hopen) c
  have heffect {standing : Standing} {draft : Draft} {c d : Cursor} {keyword : Token}
      {declared : Declaration} (houter : standing.outermost = false)
      (hnames : names ⊆ draft.types.names)
      (read : declaration? draft.types c = .ok (some (keyword, declared), d)) :
      effect fs standing (draft.undocumented names) keyword declared
        = (effect fs standing draft keyword declared).map (Effect.undocumented names) :=
    effect_undocumented_inside houter fun name hname hmem =>
      Reader.declaration?_new read name hname (hnames hmem)
  induction h with
  | failed read => exact .failed ((hread hopen).trans read)
  | ended read => exact .ended ((hread hopen).trans read)
  | refused read effect =>
    refine .refused ((hread hopen).trans read) ?_
    rw [heffect houter hnames read, effect]
    rfl
  | went read effect rest ih =>
    have hkept := effect_names effect
    refine .went ((hread hopen).trans read) ?_ (ih houter (effect_goes effect hopen).1 ?_)
    · rw [heffect houter hnames read, effect]
      rfl
    · exact fun name hname => hkept ▸ List.mem_append_left _ (hnames hname)
  | broken read effect inside ih =>
    refine .broken ((hread hopen).trans read) ?_ (ih rfl hopen hnames)
    rw [heffect houter hnames read, effect]
    rfl
  | entered read effect inside rest ih ih' =>
    have hkept := names_subset inside
    refine .entered ((hread hopen).trans read) ?_ (ih rfl hopen hnames)
      (ih' houter (ok_included inside hopen).1 fun name hname => hkept (hnames hname))
    rw [heffect houter hnames read, effect]
    rfl

/-- A run over the outermost source without its comments. The names are those that it has declared. -/
theorem undocumented_quiet (h : Run fs standing draft c met result)
    (hc : ∀ token ∈ c.tokens, token.kind ≠ .endOfInput) (hopen : draft.types.Open)
    (hnames : names ⊆ draft.types.names) :
    Run fs standing (draft.undocumented names) c.quiet met
      (result.map (undocumented (names ++ declaredNames c.tokens))) := by
  have hread (names : List String) {draft : Draft} {c : Cursor} {result}
      (hopen : draft.types.Open) (read : declaration? draft.types c = result) :
      declaration? (draft.undocumented names).types c.quiet = result.map
        (Prod.map (Option.map (Prod.map id (Declaration.view .undocumented))) TokenStream.quiet) := by
    rw [declaration?_undocumented hopen, ← read]
    exact Reader.declaration?_quiet draft.types c
  have hrest {types : TypeTable} {c d : Cursor} {keyword : Token} {declared : Declaration}
      (hc : ∀ token ∈ c.tokens, token.kind ≠ .endOfInput)
      (read : declaration? types c = .ok (some (keyword, declared), d)) :
      ∀ token ∈ d.tokens, token.kind ≠ .endOfInput := by
    obtain ⟨used, rfl, -⟩ := Reader.declaration?_some read
    exact fun token htoken => hc token (List.mem_append_right _ htoken)
  have heffect {names : List String} {standing : Standing} {draft : Draft} {c d : Cursor}
      {keyword : Token} {declared : Declaration} {outcome}
      (read : declaration? draft.types c = .ok (some (keyword, declared), d))
      (effect : effect fs standing draft keyword declared = outcome) :
      Draft.effect fs standing (draft.undocumented names) keyword (declared.view .undocumented)
        = outcome.map (Effect.undocumented (names ++ declared.declared?.toList)) := by
    rw [effect_undocumented (Reader.declaration?_new read), effect]
  induction h generalizing names with
  | failed read => exact .failed (hread names hopen read)
  | ended read =>
    obtain ⟨hremarks, -⟩ := Reader.declaration?_none hc read
    rw [Reader.declaredNames_of_remarks hremarks, List.append_nil]
    exact .ended (hread names hopen read)
  | refused read effect => exact .refused (hread names hopen read) (heffect read effect)
  | went read effect rest ih =>
    have hkept := effect_names effect
    refine .went (hread names hopen read) (heffect read effect) ?_
    rw [Reader.declaredNames_of_some read, ← List.append_assoc]
    refine ih (hrest hc read) (effect_goes effect hopen).1 ?_
    rw [hkept]
    exact List.append_subset.2 ⟨fun name hname => List.mem_append_left _ (hnames hname),
      List.subset_append_right _ _⟩
  | broken read effect inside ih =>
    exact .broken (hread names hopen read) (heffect read effect)
      (undocumented_inside inside rfl hopen hnames)
  | entered read effect inside rest ih ih' =>
    have hkept := names_subset inside
    obtain ⟨token, name, rfl, -⟩ := effect_enters effect
    refine .entered (hread names hopen read) (heffect read effect)
      (undocumented_inside inside rfl hopen hnames) ?_
    rw [Reader.declaredNames_of_some read]
    exact ih' (hrest hc read) (ok_included inside hopen).1 fun name hname => hkept (hnames hname)

end Run

end Draft

/-- A text compiles without its comments as with them, apart from the documentation of its root and of
what it declares. -/
theorem compile_blankComments (fs : FileSystem) (text : String) (directory : Option String) :
    Schema.compile fs (blankComments text) directory
      = (Schema.compile fs text directory).map
          (Schema.undocumented (declaredNames (TokenStream.scan text).tokens)) := by
  obtain ⟨met, result, hrun, hcompile⟩ := Schema.exists_run fs text directory
  obtain ⟨met', result', hrun', hcompile'⟩ := Schema.exists_run fs (blankComments text) directory
  have hquiet := hrun.undocumented_quiet (TokenStream.kind_ne_scan text) .empty (List.nil_subset _)
  rw [← TokenStream.scan_blankComments, List.nil_append] at hquiet
  have hnothing : Draft.undocumented [] {} = {} := rfl
  rw [hnothing] at hquiet
  rw [hcompile, hcompile', (hrun'.unique hquiet).2]
  cases result <;> rfl

end BinarySchema
