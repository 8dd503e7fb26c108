import BinarySchema.Definition.Table
import BinarySchema.Proofs.Definition.Fields

/-!
# Lookup in type tables

A table finds a definition under its own name. A new name goes to the end of the table, so a table
that grows keeps every definition at its position and finds under the old names what it found before.

A reference resolves in a table if its name finds a definition of the kind that the reference has.
-/

namespace BinarySchema

namespace TypeTable

variable {table : TypeTable} {name : String} {definition : Definition}

theorem mem_of_find? (h : table.find? name = some definition) : definition ∈ table.definitions :=
  List.mem_of_find?_eq_some h

theorem name_of_find? (h : table.find? name = some definition) : definition.name = name := by
  simpa using List.find?_some h

theorem find?_name (h : table.find? name = some definition) :
    table.find? definition.name = some definition := by
  rw [name_of_find? h, h]

theorem find?_eq_none_iff : table.find? name = none ↔ name ∉ table.names := by
  simp [find?, names]

/-- A name that is not declared is neither found nor reserved. -/
theorem declares_eq_false (h : table.declares name = false) :
    table.find? name = none ∧ table.reservedKind? name = none := by
  simpa [declares, contains] using h

/-- A definition is found under its own name alone, whether or not it replaces another one. -/
theorem find?_define_of_ne {after : TypeTable} (hdefine : table.define definition = .ok after)
    (hname : definition.name ≠ name) : after.find? name = table.find? name := by
  have hinsert (definitions : List Definition) : (insert definition definitions).find? (·.name = name)
      = definitions.find? (·.name = name) := by
    induction definitions with
    | nil => simp [insert, hname]
    | cons head rest ih =>
      rw [insert]
      split
      · rename_i hhead
        rw [List.find?_cons_of_neg (by simpa using hname),
          List.find?_cons_of_neg (by simpa [hhead] using hname)]
      · rw [List.find?_cons, List.find?_cons, ih]
  unfold define at hdefine
  split at hdefine
  · cases hdefine
  · cases hdefine
    exact hinsert table.definitions

/-! ### Growing -/

/-- The table with one more definition, and nothing reserved. -/
def grow (table : TypeTable) (definition : Definition) : TypeTable :=
  { table with definitions := table.definitions ++ [definition], reserved := [] }

theorem insert_of_new {definitions : List Definition}
    (h : definition.name ∉ definitions.map Definition.name) :
    insert definition definitions = definitions ++ [definition] := by
  induction definitions with
  | nil => rfl
  | cons head rest ih =>
    simp only [List.map_cons, List.mem_cons, not_or] at h
    rw [insert, if_neg (Ne.symm h.1), ih h.2, List.cons_append]

theorem mem_insert {definition other : Definition} {definitions : List Definition}
    (h : other ∈ insert definition definitions) : other = definition ∨ other ∈ definitions := by
  induction definitions with
  | nil => exact .inl (List.mem_singleton.1 h)
  | cons head rest ih =>
    unfold insert at h
    split at h
    · exact (List.mem_cons.1 h).imp_right (List.mem_cons_of_mem _)
    · rcases List.mem_cons.1 h with rfl | hrest
      · exact .inr List.mem_cons_self
      · exact (ih hrest).imp_right (List.mem_cons_of_mem _)

theorem find?_grow (h : table.find? name = some definition) (added : Definition) :
    (table.grow added).find? name = some definition := by
  unfold find? at h ⊢
  rw [grow, List.find?_append, h]
  rfl

theorem find?_grow_self (h : definition.name ∉ table.names) :
    (table.grow definition).find? definition.name = some definition := by
  rw [← find?_eq_none_iff] at h
  unfold find? at h ⊢
  rw [grow, List.find?_append, h]
  simp

theorem getElem?_grow {i : Nat} (h : table.definitions[i]? = some definition)
    (added : Definition) : (table.grow added).definitions[i]? = some definition := by
  have hi := (List.getElem?_eq_some_iff.1 h).1
  rw [grow, List.getElem?_append_left hi, h]

theorem getElem?_grow_self (definition : Definition) :
    (table.grow definition).definitions[table.size]? = some definition := by
  simp [grow, size]

theorem getElem?_grow_cases {added : Definition} {i : Nat}
    (h : (table.grow added).definitions[i]? = some definition) :
    table.definitions[i]? = some definition ∨ i = table.size ∧ definition = added := by
  simp only [grow, List.getElem?_append, size] at h ⊢
  split at h
  · exact .inl h
  · right
    obtain ⟨hi, heq⟩ := List.getElem?_eq_some_iff.1 h
    simp only [List.length_singleton] at hi
    refine ⟨by omega, ?_⟩
    simpa using heq.symm

theorem exists_index_of_find? (h : table.find? name = some definition) :
    ∃ i < table.size, table.definitions[i]? = some definition := by
  obtain ⟨i, hi⟩ := List.mem_iff_getElem?.1 (mem_of_find? h)
  exact ⟨i, (List.getElem?_eq_some_iff.1 hi).1, hi⟩

end TypeTable

/-! ### References -/

namespace TypeRef

/-- Whether a type is a primitive, or the name of a definition of the kind that it says. -/
def Resolves (types : TypeTable) : TypeRef → Prop
  | .primitive _ => True
  | .named kind name => ∃ definition, types.find? name = some definition ∧ definition.kind = kind

/-- Whether a type is a primitive or names a definition that stands before a position, or a struct that
stands there. -/
def ResolvesUpTo (types : TypeTable) (position : Nat) : TypeRef → Prop
  | .primitive _ => True
  | .named kind name => ∃ i definition, types.definitions[i]? = some definition ∧
      types.find? name = some definition ∧ definition.kind = kind ∧
      (i < position ∨ i = position ∧ kind = .struct)

theorem ResolvesUpTo.resolves {types : TypeTable} {position : Nat} {type : TypeRef}
    (h : type.ResolvesUpTo types position) : type.Resolves types := by
  cases type with
  | primitive _ => trivial
  | named kind name =>
    obtain ⟨i, definition, -, hfound, hkind, -⟩ := h
    exact ⟨definition, hfound, hkind⟩

theorem Resolves.grow {types : TypeTable} {type : TypeRef} (h : type.Resolves types)
    (added : Definition) : type.Resolves (types.grow added) := by
  cases type with
  | primitive _ => trivial
  | named kind name =>
    obtain ⟨definition, hfound, hkind⟩ := h
    exact ⟨definition, TypeTable.find?_grow hfound added, hkind⟩

theorem ResolvesUpTo.grow {types : TypeTable} {position : Nat} {type : TypeRef}
    (h : type.ResolvesUpTo types position) (added : Definition) :
    type.ResolvesUpTo (types.grow added) position := by
  cases type with
  | primitive _ => trivial
  | named kind name =>
    obtain ⟨i, definition, hi, hfound, hkind, hposition⟩ := h
    exact ⟨i, definition, TypeTable.getElem?_grow hi added, TypeTable.find?_grow hfound added,
      hkind, hposition⟩

theorem Resolves.upTo_size {types : TypeTable} {type : TypeRef} (h : type.Resolves types) :
    type.ResolvesUpTo types types.size := by
  cases type with
  | primitive _ => trivial
  | named kind name =>
    obtain ⟨definition, hfound, hkind⟩ := h
    obtain ⟨i, hi, hdefinition⟩ := TypeTable.exists_index_of_find? hfound
    exact ⟨i, definition, hdefinition, hfound, hkind, .inl hi⟩

end TypeRef

end BinarySchema
