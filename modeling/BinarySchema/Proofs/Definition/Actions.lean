import BinarySchema.Proofs.Definition.Table

/-!
# Actions on type tables

A table keeps its definitions, the names that are only reserved, and whether it is frozen. All that it
shows is told by the actions in front of the first freeze, whatever was tried behind it: the definitions
are the last ones of their names, in the order in which the names were first defined, and a name without
one has the kind that it was last reserved with. `Tells` is this as an invariant; each action keeps it, and
so it holds of every run of actions on an empty table.
-/

namespace BinarySchema.TypeTable

/-- What can be done to a table. -/
inductive Action where
  | reserve (name : String) (kind : FieldKind)
  | define (definition : Definition)
  | freeze

namespace Action

def isFreeze : Action → Bool
  | .freeze => true
  | _ => false

def definition? : Action → Option Definition
  | .define definition => some definition
  | _ => none

/-- The name that an action is about, and the kind that it gives to it. -/
def subject? : Action → Option (String × FieldKind)
  | .reserve name kind => some (name, kind)
  | .define definition => some (definition.name, definition.kind)
  | .freeze => none

/-- The actions that a table takes: those in front of the first freeze. -/
def taken (actions : List Action) : List Action :=
  actions.takeWhile (!·.isFreeze)

/-- The definitions that a table takes, in order. -/
def defined (actions : List Action) : List Definition :=
  (taken actions).filterMap definition?

/-- The names that are reserved or defined in a table, in order. -/
def subjects (actions : List Action) : List (String × FieldKind) :=
  (taken actions).filterMap subject?

@[simp] theorem defined_reserve (name : String) (kind : FieldKind) :
    defined [.reserve name kind] = [] := rfl

@[simp] theorem defined_define (definition : Definition) :
    defined [.define definition] = [definition] := rfl

@[simp] theorem defined_freeze : defined [.freeze] = [] := rfl

@[simp] theorem subjects_reserve (name : String) (kind : FieldKind) :
    subjects [.reserve name kind] = [(name, kind)] := rfl

@[simp] theorem subjects_define (definition : Definition) :
    subjects [.define definition] = [(definition.name, definition.kind)] := rfl

variable {actions : List Action}

theorem taken_append_of_freeze (h : actions.any isFreeze = true) (more : List Action) :
    taken (actions ++ more) = taken actions := by
  induction actions with
  | nil => cases h
  | cons action rest ih =>
    unfold taken at ih ⊢
    cases hfreeze : action.isFreeze with
    | true => simp [hfreeze]
    | false =>
      rw [List.any_cons, hfreeze, Bool.false_or] at h
      simp [hfreeze, ih h]

theorem taken_append (h : actions.any isFreeze = false) (more : List Action) :
    taken (actions ++ more) = taken actions ++ taken more := by
  induction actions with
  | nil => rfl
  | cons action rest ih =>
    rw [List.any_cons, Bool.or_eq_false_iff] at h
    unfold taken at ih ⊢
    simp [h.1, ih h.2]

theorem defined_append (h : actions.any isFreeze = false) (more : List Action) :
    defined (actions ++ more) = defined actions ++ defined more := by
  unfold defined
  rw [taken_append h, List.filterMap_append]

theorem subjects_append (h : actions.any isFreeze = false) (more : List Action) :
    subjects (actions ++ more) = subjects actions ++ subjects more := by
  unfold subjects
  rw [taken_append h, List.filterMap_append]

end Action

/-- The outcome of an action. -/
def attempt (table : TypeTable) : Action → Except TableError TypeTable
  | .reserve name kind => table.reserve name kind
  | .define definition => table.define definition
  | .freeze => .ok table.freeze

/-- The table behind an action, which is the same as before if the action is refused. -/
def act (table : TypeTable) (action : Action) : TypeTable :=
  match table.attempt action with
  | .ok changed => changed
  | .error _ => table

/-- The table behind actions that begin with an empty one. -/
def after (actions : List Action) : TypeTable :=
  actions.foldl act .empty

variable {table : TypeTable} {actions : List Action} {definition : Definition} {name : String}

/-! ### Replacing a definition -/

theorem map_name_insert (definition : Definition) (definitions : List Definition) :
    (insert definition definitions).map Definition.name
      = if definition.name ∈ definitions.map Definition.name then definitions.map Definition.name
        else definitions.map Definition.name ++ [definition.name] := by
  induction definitions with
  | nil => rfl
  | cons head rest ih =>
    rw [insert]
    by_cases hhead : head.name = definition.name
    · simp [hhead]
    · rw [if_neg hhead, List.map_cons, ih, List.map_cons]
      have hmem : definition.name ∈ head.name :: rest.map Definition.name
          ↔ definition.name ∈ rest.map Definition.name := by
        simp [Ne.symm hhead]
      by_cases hrest : definition.name ∈ rest.map Definition.name
      · rw [if_pos hrest, if_pos (hmem.2 hrest)]
      · rw [if_neg hrest, if_neg (mt hmem.1 hrest), List.cons_append]

theorem find?_insert_self (definition : Definition) (definitions : List Definition) :
    (insert definition definitions).find? (·.name = definition.name) = some definition := by
  induction definitions with
  | nil => simp [insert]
  | cons head rest ih =>
    rw [insert]
    by_cases hhead : head.name = definition.name
    · simp [hhead]
    · rw [if_neg hhead, List.find?_cons_of_neg (by simpa using hhead), ih]

theorem find?_define_self {changed : TypeTable} (h : table.define definition = .ok changed) :
    changed.find? definition.name = some definition := by
  unfold define at h
  split at h
  · cases h
  · cases h
    exact find?_insert_self definition table.definitions

theorem names_act_define (hopen : table.frozen = false) (definition : Definition) :
    (table.act (.define definition)).names
      = if definition.name ∈ table.names then table.names else table.names ++ [definition.name] := by
  have hact : table.act (.define definition) = { table with
      definitions := insert definition table.definitions
      reserved := table.reserved.filter (·.1 ≠ definition.name) } := by
    simp [act, attempt, define, hopen]
  rw [hact]
  exact map_name_insert definition table.definitions

theorem eraseDups_append_singleton (names : List String) (name : String) :
    (names ++ [name]).eraseDups
      = if name ∈ names.eraseDups then names.eraseDups else names.eraseDups ++ [name] := by
  rw [List.eraseDups_append]
  by_cases hname : name ∈ names
  · rw [if_pos (List.mem_eraseDups.2 hname)]
    simp [List.removeAll, hname]
  · rw [if_neg (mt List.mem_eraseDups.1 hname)]
    simp [List.removeAll, hname, List.eraseDups_cons]

theorem find?_filter_ne (reserved : List (String × FieldKind)) {name other : String}
    (h : name ≠ other) :
    (reserved.filter (·.1 ≠ other)).find? (·.1 = name) = reserved.find? (·.1 = name) := by
  rw [List.find?_filter]
  congr 1
  funext entry
  by_cases hname : entry.1 = name
  · simp [hname, h]
  · simp [hname]

/-! ### What actions tell about a table -/

/-- The definition that was last made under a name. -/
def lastDefinition? (actions : List Action) (name : String) : Option Definition :=
  (Action.defined actions).reverse.find? (·.name = name)

/-- The kind that a name was last given. -/
def lastKind? (actions : List Action) (name : String) : Option FieldKind :=
  ((Action.subjects actions).reverse.find? (·.1 = name)).map Prod.snd

/-- That a table is what actions have made of an empty one. -/
structure Tells (actions : List Action) (table : TypeTable) : Prop where
  frozen : table.frozen = actions.any Action.isFreeze
  names : table.names = ((Action.defined actions).map Definition.name).eraseDups
  distinct : table.names.Nodup
  found : ∀ name, table.find? name = lastDefinition? actions name
  promised : table.frozen = false → ∀ name, table.find? name = none →
    table.reservedKind? name = lastKind? actions name
  forgotten : table.frozen = true → table.reserved = []

theorem tells_empty : Tells [] .empty where
  frozen := rfl
  names := rfl
  distinct := List.nodup_nil
  found _ := rfl
  promised _ _ _ := rfl
  forgotten h := nomatch h

namespace Tells

/-! ### Frozen tables -/

theorem act_of_frozen (h : Tells actions table) (hfrozen : table.frozen = true) (action : Action) :
    table.act action = table := by
  have hreserved := h.forgotten hfrozen
  cases action with
  | reserve name kind => simp [act, attempt, reserve, hfrozen]
  | define definition => simp [act, attempt, define, hfrozen]
  | freeze =>
    change table.freeze = table
    unfold freeze
    rw [← hreserved, ← hfrozen]

theorem step_frozen (h : Tells actions table) (hfrozen : table.frozen = true) (action : Action) :
    Tells (actions ++ [action]) (table.act action) := by
  have hfreeze : actions.any Action.isFreeze = true := h.frozen ▸ hfrozen
  have htaken := Action.taken_append_of_freeze hfreeze [action]
  rw [h.act_of_frozen hfrozen]
  constructor
  case frozen => rw [hfrozen, List.any_append, hfreeze, Bool.true_or]
  case names =>
    unfold Action.defined
    rw [htaken]
    exact h.names
  case distinct => exact h.distinct
  case found =>
    unfold lastDefinition? Action.defined
    rw [htaken]
    exact h.found
  case promised => exact fun hopen => absurd (hopen.symm.trans hfrozen) Bool.false_ne_true
  case forgotten => exact h.forgotten

/-! ### Open tables -/

section

variable (h : Tells actions table) (hopen : table.frozen = false)

include h hopen

theorem lastDefinition?_append (more : List Action) (name : String) :
    lastDefinition? (actions ++ more) name
      = (lastDefinition? more name).or (table.find? name) := by
  rw [h.found]
  unfold lastDefinition?
  rw [Action.defined_append (h.frozen ▸ hopen), List.reverse_append, List.find?_append]

theorem lastKind?_append (more : List Action) (name : String) :
    lastKind? (actions ++ more) name = (lastKind? more name).or (lastKind? actions name) := by
  unfold lastKind?
  rw [Action.subjects_append (h.frozen ▸ hopen), List.reverse_append, List.find?_append,
    Option.map_or]

theorem step_reserve (name : String) (kind : FieldKind) :
    Tells (actions ++ [.reserve name kind]) (table.act (.reserve name kind)) := by
  have hact : table.act (.reserve name kind)
      = { table with reserved := (name, kind) :: table.reserved.filter (·.1 ≠ name) } := by
    simp [act, attempt, reserve, hopen]
  rw [hact]
  constructor
  case frozen => simp [h.frozen, Action.isFreeze]
  case names =>
    rw [Action.defined_append (h.frozen ▸ hopen), Action.defined_reserve, List.append_nil]
    exact h.names
  case distinct => exact h.distinct
  case found =>
    intro other
    rw [h.lastDefinition?_append hopen]
    rfl
  case promised =>
    intro _ other hother
    rw [h.lastKind?_append hopen, ← h.promised hopen other hother]
    unfold reservedKind?
    by_cases hname : name = other
    · subst hname
      rw [List.find?_cons_of_pos (by simp)]
      simp [lastKind?]
    · have hlast : lastKind? [.reserve name kind] other = none := by simp [lastKind?, hname]
      rw [List.find?_cons_of_neg (by simpa using hname), find?_filter_ne _ (Ne.symm hname), hlast,
        Option.none_or]
  case forgotten => exact fun hfrozen => absurd (hopen.symm.trans hfrozen) Bool.false_ne_true

theorem step_define (definition : Definition) :
    Tells (actions ++ [.define definition]) (table.act (.define definition)) := by
  obtain ⟨changed, hdefine⟩ : ∃ changed, table.define definition = .ok changed := by
    simp [define, hopen]
  have hact : table.act (.define definition) = changed := by
    simp [act, attempt, hdefine]
  have hchanged : changed = { table with
      definitions := insert definition table.definitions
      reserved := table.reserved.filter (·.1 ≠ definition.name) } := by
    simpa [define, hopen, eq_comm] using hdefine
  have hnames := names_act_define hopen definition
  rw [hact] at hnames
  have hfrozen : changed.frozen = false := by rw [hchanged, hopen]
  rw [hact]
  constructor
  case frozen => rw [hfrozen, List.any_append, ← h.frozen, hopen]; rfl
  case names =>
    rw [Action.defined_append (h.frozen ▸ hopen), Action.defined_define, List.map_append,
      List.map_singleton, eraseDups_append_singleton, ← h.names]
    exact hnames
  case distinct =>
    rw [hnames]
    split
    · exact h.distinct
    · rename_i hnew
      refine List.nodup_append.2 ⟨h.distinct, List.pairwise_singleton _ _, ?_⟩
      intro name hname other hother
      rintro rfl
      exact hnew (List.mem_singleton.1 hother ▸ hname)
  case found =>
    intro name
    rw [h.lastDefinition?_append hopen]
    by_cases hname : definition.name = name
    · subst hname
      rw [find?_define_self hdefine]
      simp [lastDefinition?]
    · rw [find?_define_of_ne hdefine hname]
      simp [lastDefinition?, hname]
  case promised =>
    intro _ name hname
    -- A name that is still without a definition is none that was defined here.
    have hother : definition.name ≠ name := by
      rintro rfl
      rw [find?_define_self hdefine] at hname
      cases hname
    rw [find?_define_of_ne hdefine hother] at hname
    have hlast : lastKind? [.define definition] name = none := by simp [lastKind?, hother]
    rw [h.lastKind?_append hopen, ← h.promised hopen name hname, hlast, Option.none_or, hchanged]
    unfold reservedKind?
    rw [find?_filter_ne _ (Ne.symm hother)]
  case forgotten => exact fun hclosed => absurd (hfrozen.symm.trans hclosed) Bool.false_ne_true

theorem step_freeze : Tells (actions ++ [.freeze]) (table.act .freeze) := by
  have hdefined : Action.defined (actions ++ [.freeze]) = Action.defined actions := by
    rw [Action.defined_append (h.frozen ▸ hopen), Action.defined_freeze, List.append_nil]
  constructor
  case frozen => simp [act, attempt, freeze, Action.isFreeze]
  case names =>
    rw [hdefined]
    exact h.names
  case distinct => exact h.distinct
  case found =>
    intro name
    rw [h.lastDefinition?_append hopen]
    rfl
  case promised => exact nofun
  case forgotten => exact fun _ => rfl

end

/-! ### Runs -/

theorem step (h : Tells actions table) (action : Action) :
    Tells (actions ++ [action]) (table.act action) := by
  cases hfrozen : table.frozen with
  | true => exact h.step_frozen hfrozen action
  | false =>
    cases action with
    | reserve name kind => exact h.step_reserve hfrozen name kind
    | define definition => exact h.step_define hfrozen definition
    | freeze => exact h.step_freeze hfrozen

theorem run (h : Tells actions table) (more : List Action) :
    Tells (actions ++ more) (more.foldl act table) := by
  induction more generalizing actions table with
  | nil => rwa [List.append_nil]
  | cons action rest ih =>
    rw [List.append_cons]
    exact ih (h.step action)

theorem run_of_frozen (h : Tells actions table) (hfrozen : table.frozen = true)
    (more : List Action) : more.foldl act table = table := by
  induction more with
  | nil => rfl
  | cons action rest ih => rw [List.foldl_cons, h.act_of_frozen hfrozen, ih]

end Tells

theorem tells_after (actions : List Action) : Tells actions (after actions) :=
  tells_empty.run actions

/-! ### Observations -/

theorem isSome_kindOf? (table : TypeTable) (name : String) :
    (table.kindOf? name).isSome = table.declares name := by
  unfold kindOf? declares contains
  cases table.find? name <;> rfl

theorem mem_subjects_of_lastDefinition? (h : lastDefinition? actions name = some definition) :
    (name, definition.kind) ∈ Action.subjects actions := by
  have hname : definition.name = name := by simpa using List.find?_some h
  have hmem : definition ∈ Action.defined actions :=
    List.mem_reverse.1 (List.mem_of_find?_eq_some h)
  obtain ⟨action, haction, hdefinition⟩ := List.mem_filterMap.1 hmem
  refine List.mem_filterMap.2 ⟨action, haction, ?_⟩
  cases action with
  | define other =>
    obtain rfl := Option.some.inj hdefinition
    rw [← hname]
    rfl
  | _ => cases hdefinition

theorem mem_subjects_of_lastKind? {kind : FieldKind} (h : lastKind? actions name = some kind) :
    (name, kind) ∈ Action.subjects actions := by
  obtain ⟨subject, hfound, rfl⟩ := Option.map_eq_some_iff.1 h
  have hname : subject.1 = name := by simpa using List.find?_some hfound
  rw [← hname]
  exact List.mem_reverse.1 (List.mem_of_find?_eq_some hfound)

theorem isSome_lastKind?_iff :
    (lastKind? actions name).isSome = true ↔ name ∈ (Action.subjects actions).map Prod.fst := by
  simp [lastKind?]

namespace Tells

variable (h : Tells actions table)

include h

theorem mem_subjects_of_kindOf? {kind : FieldKind} (hkind : table.kindOf? name = some kind) :
    (name, kind) ∈ Action.subjects actions := by
  unfold kindOf? at hkind
  cases hfind : table.find? name with
  | some definition =>
    rw [hfind] at hkind
    obtain rfl := Option.some.inj hkind
    exact mem_subjects_of_lastDefinition? (h.found name ▸ hfind)
  | none =>
    rw [hfind] at hkind
    cases hfrozen : table.frozen with
    | true => simp [reservedKind?, h.forgotten hfrozen] at hkind
    | false => exact mem_subjects_of_lastKind? (h.promised hfrozen name hfind ▸ hkind)

theorem declares_iff_of_open (hopen : table.frozen = false) :
    table.declares name = true ↔ name ∈ (Action.subjects actions).map Prod.fst := by
  constructor
  · intro hdeclares
    rw [← isSome_kindOf?] at hdeclares
    obtain ⟨kind, hkind⟩ := Option.isSome_iff_exists.1 hdeclares
    exact List.mem_map_of_mem (h.mem_subjects_of_kindOf? hkind)
  · intro hmem
    cases hfind : table.find? name with
    | some definition => simp [declares, contains, hfind]
    | none =>
      have hlast := isSome_lastKind?_iff.2 hmem
      rw [← h.promised hopen name hfind] at hlast
      simp [declares, hlast]

theorem declares_of_frozen (hfrozen : table.frozen = true) (name : String) :
    table.declares name = table.contains name := by
  simp [declares, reservedKind?, h.forgotten hfrozen]

end Tells

/-- A table that began empty is a map from names to definitions, whatever was done to it, in vain or
not. It has a kind for a name exactly if it declares the name, the one of the definition if there is
one, and only a kind that the name was given. Its definitions are the last ones under their names, in the
order of the first ones. Behind a freeze all reservations and definitions are refused and nothing changes,
and the names with a kind are those with a definition. -/
theorem table_told_by_actions (actions : List Action) :
    let table := after actions
    (∀ name, (table.kindOf? name).isSome = table.declares name) ∧
    (∀ name definition, table.find? name = some definition →
      table.kindOf? name = some definition.kind) ∧
    (∀ name kind, (∀ subject ∈ Action.subjects actions, subject.1 = name → subject.2 = kind) →
      table.declares name = true → table.kindOf? name = some kind) ∧
    (∀ name, table.find? name = lastDefinition? actions name) ∧
    table.names = ((Action.defined actions).map Definition.name).eraseDups ∧ table.names.Nodup ∧
    (∀ definition : Definition, definition.name ∈ table.names →
      (table.act (.define definition)).names = table.names) ∧
    (actions.any Action.isFreeze = false →
      ∀ name, table.declares name = true ↔ name ∈ (Action.subjects actions).map Prod.fst) ∧
    (actions.any Action.isFreeze = true →
      (∀ name kind, table.reserve name kind = .error .readOnly) ∧
      (∀ definition, table.define definition = .error .readOnly) ∧
      (∀ more, after (actions ++ more) = table) ∧
      ∀ name, (table.kindOf? name).isSome = (table.find? name).isSome) := by
  intro table
  have htells : Tells actions table := tells_after actions
  refine ⟨isSome_kindOf? table, ?kind, ?kept, htells.found, htells.names, htells.distinct, ?redefined,
    ?unfrozen, ?frozen⟩
  case kind =>
    intro name definition hfind
    unfold kindOf?
    rw [hfind]
  case kept =>
    intro name kind hkeeps hdeclares
    rw [← isSome_kindOf?] at hdeclares
    obtain ⟨given, hgiven⟩ := Option.isSome_iff_exists.1 hdeclares
    have hsame := hkeeps _ (htells.mem_subjects_of_kindOf? hgiven) rfl
    exact hgiven.trans (congrArg some hsame)
  case redefined =>
    intro definition hmem
    cases hfrozen : table.frozen with
    | true => rw [htells.act_of_frozen hfrozen]
    | false => rw [names_act_define hfrozen, if_pos hmem]
  case unfrozen =>
    intro hopen name
    exact htells.declares_iff_of_open (htells.frozen.trans hopen)
  case frozen =>
    intro hfreeze
    have hfrozen : table.frozen = true := htells.frozen.trans hfreeze
    refine ⟨fun name kind => if_pos hfrozen, fun definition => if_pos hfrozen, fun more => ?_,
      fun name => ?_⟩
    · unfold after
      rw [List.foldl_append]
      exact htells.run_of_frozen hfrozen more
    · rw [isSome_kindOf?, htells.declares_of_frozen hfrozen]
      rfl

/-- A struct that is reserved and then defined, an enum, the struct again, and actions that come too late. -/
example : (after [.reserve "S" .struct, .define (.struct ⟨"S", [], .first⟩),
    .define (.enum ⟨"E", .byte, [], .first⟩), .define (.struct ⟨"S", [], ⟨2, 1⟩⟩), .freeze,
    .define (.enum ⟨"F", .byte, [], .first⟩), .reserve "G" .struct]).names = ["S", "E"] := by
  decide

end BinarySchema.TypeTable
