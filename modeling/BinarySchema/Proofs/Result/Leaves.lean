import BinarySchema.Proofs.Definition.Fields
import BinarySchema.Result

/-!
# Leaves of a result tree

The results that stand for bytes of the input are the leaves of a tree: primitives, enums, bitfields
and texts. A struct, and an array that is no text, only groups the results inside it. A bitfield is a
leaf although its members are results too, because they share its bytes; they appear only among the
results at every depth.

Both lists compose with the scopes they are taken of, and what does not see names is the same of them
after the results of a scope are renamed. A leaf says by its kind and type name which primitive its
bytes were read as.
-/

namespace BinarySchema

def groups : FieldKind → Datum → Bool
  | .struct, value | .array, value => value.isScope
  | _, _ => false

mutual

/-- The leaves of the results inside a value. -/
def Datum.leaves : Datum → List (Entry Datum)
  | .scope entries => Datum.entriesLeaves entries
  | _ => []
termination_by structural value => value

def Datum.entriesLeaves : List (Entry Datum) → List (Entry Datum)
  | [] => []
  | entry :: rest => Datum.entryLeaves entry ++ Datum.entriesLeaves rest
termination_by structural entries => entries

def Datum.entryLeaves : Entry Datum → List (Entry Datum)
  | ⟨kind, name, offset, size, typeName, value, comment, raw⟩ =>
    if groups kind value then Datum.leaves value
    else [⟨kind, name, offset, size, typeName, value, comment, raw⟩]
termination_by structural entry => entry

end

mutual

/-- The results inside a value at every depth. -/
def Datum.inner : Datum → List (Entry Datum)
  | .scope entries => Datum.entriesInner entries
  | _ => []
termination_by structural value => value

def Datum.entriesInner : List (Entry Datum) → List (Entry Datum)
  | [] => []
  | entry :: rest => Datum.entryInner entry ++ Datum.entriesInner rest
termination_by structural entries => entries

def Datum.entryInner : Entry Datum → List (Entry Datum)
  | ⟨kind, name, offset, size, typeName, value, comment, raw⟩ =>
    ⟨kind, name, offset, size, typeName, value, comment, raw⟩ :: Datum.inner value
termination_by structural entry => entry

end

/-- The results directly inside a result. -/
def Entry.children (entry : Entry Datum) : Scope :=
  match entry.value with
  | .scope entries => entries
  | _ => []

def Entry.isGroup (entry : Entry Datum) : Bool := groups entry.kind entry.value

namespace Scope

/-- The leaves of the tree in order. -/
def leaves (scope : Scope) : List Result := Datum.entriesLeaves scope

/-- The results of the tree at every depth, each before the ones inside it. -/
def everywhere (scope : Scope) : List Result := Datum.entriesInner scope

@[simp] theorem leaves_nil : leaves [] = [] := rfl

theorem leaves_cons (entry : Result) (rest : Scope) :
    leaves (entry :: rest) = leaves [entry] ++ leaves rest := by
  simp [leaves, Datum.entriesLeaves]

theorem leaves_append (left right : Scope) : leaves (left ++ right) = leaves left ++ leaves right := by
  induction left with
  | nil => rfl
  | cons entry rest ih =>
    rw [List.cons_append, leaves_cons, ih, leaves_cons entry rest, List.append_assoc]

theorem leaves_group {entry : Result} (h : entry.isGroup = true) :
    leaves [entry] = leaves entry.children := by
  obtain ⟨kind, name, offset, size, typeName, value, comment, raw⟩ := entry
  have hgroups : groups kind value = true := h
  have hscope : ∃ entries, value = .scope entries := by
    cases kind <;> cases value <;> simp_all [groups, Datum.isScope]
  obtain ⟨entries, rfl⟩ := hscope
  simp [leaves, Entry.children, Datum.entriesLeaves, Datum.entryLeaves, Datum.leaves, hgroups]

theorem leaves_leaf {entry : Result} (h : entry.isGroup = false) : leaves [entry] = [entry] := by
  obtain ⟨kind, name, offset, size, typeName, value, comment, raw⟩ := entry
  have hgroups : groups kind value = false := h
  simp [leaves, Datum.entriesLeaves, Datum.entryLeaves, hgroups]

@[simp] theorem everywhere_nil : everywhere [] = [] := rfl

theorem everywhere_cons (entry : Result) (rest : Scope) :
    everywhere (entry :: rest) = entry :: everywhere entry.children ++ everywhere rest := by
  obtain ⟨kind, name, offset, size, typeName, value, comment, raw⟩ := entry
  cases value <;>
    simp [everywhere, Entry.children, Datum.entriesInner, Datum.entryInner, Datum.inner]

theorem everywhere_append (left right : Scope) :
    everywhere (left ++ right) = everywhere left ++ everywhere right := by
  induction left with
  | nil => rfl
  | cons entry rest ih =>
    rw [List.cons_append, everywhere_cons, ih, everywhere_cons, List.append_assoc]

theorem everywhere_subset_of_mem {entry : Result} {scope : Scope} (h : entry ∈ scope) :
    everywhere [entry] ⊆ everywhere scope := by
  obtain ⟨front, back, rfl⟩ := List.append_of_mem h
  have hbehind : everywhere (entry :: back) = everywhere [entry] ++ everywhere back :=
    everywhere_append [entry] back
  rw [everywhere_append, hbehind]
  intro inside hinside
  exact List.mem_append_right _ (List.mem_append_left _ hinside)

theorem everywhere_children (entry : Result) : everywhere entry.children = entry.value.inner := by
  unfold Entry.children
  cases entry.value <;> rfl

/-- What holds of the results at every depth holds of each result and of those inside it. -/
theorem forall_everywhere_iff {p : Result → Prop} {scope : Scope} :
    (∀ entry ∈ everywhere scope, p entry) ↔
      ∀ entry ∈ scope, p entry ∧ ∀ inside ∈ entry.value.inner, p inside := by
  induction scope with
  | nil => simp
  | cons entry rest ih =>
    rw [everywhere_cons, everywhere_children, List.cons_append, List.forall_mem_cons,
      List.forall_mem_append, ih, List.forall_mem_cons, and_assoc]

theorem everywhere_flat {scope : Scope} (h : ∀ entry ∈ scope, entry.children = []) :
    everywhere scope = scope := by
  induction scope with
  | nil => rfl
  | cons entry rest ih =>
    rw [everywhere_cons, h entry (by simp), everywhere_nil, ih fun e he => h e (by simp [he])]
    rfl

@[simp] theorem totalSize_nil : totalSize [] = 0 := rfl

@[simp] theorem totalSize_cons (entry : Result) (rest : Scope) :
    totalSize (entry :: rest) = entry.size + totalSize rest := rfl

theorem totalSize_append (left right : Scope) :
    totalSize (left ++ right) = totalSize left + totalSize right := by
  induction left with
  | nil => simp
  | cons entry rest ih =>
    rw [List.cons_append, totalSize_cons, totalSize_cons, ih]
    omega

/-! ### Renaming -/

/-- What does not see the name of a leaf is the same of the leaves of renamed results. -/
theorem map_leaves_rename {α : Type} {f : Result → α}
    (hf : ∀ (entry : Result) (name : String), f (entry.rename name) = f entry)
    (name : Result → String) (scope : Scope) :
    (leaves (scope.map fun entry => entry.rename (name entry))).map f = (leaves scope).map f := by
  induction scope with
  | nil => rfl
  | cons entry rest ih =>
    rw [List.map_cons, leaves_cons, List.map_append, ih, leaves_cons entry rest, List.map_append]
    congr 1
    cases hgroup : entry.isGroup with
    | true =>
      have hrenamed : (entry.rename (name entry)).isGroup = true := hgroup
      rw [leaves_group hgroup, leaves_group hrenamed]
      rfl
    | false =>
      have hrenamed : (entry.rename (name entry)).isGroup = false := hgroup
      rw [leaves_leaf hgroup, leaves_leaf hrenamed, List.map_singleton, List.map_singleton, hf]

/-- A property that the new names keep passes to the results of a renamed scope at every depth. -/
theorem forall_everywhere_rename {p : Result → Prop}
    (name : Result → String) (hp : ∀ entry : Result, p entry → p (entry.rename (name entry)))
    {scope : Scope} (h : ∀ entry ∈ everywhere scope, p entry) :
    ∀ entry ∈ everywhere (scope.map fun entry => entry.rename (name entry)), p entry := by
  induction scope with
  | nil => simp
  | cons head rest ih =>
    simp only [everywhere_cons, List.cons_append, List.mem_cons, List.mem_append] at h
    simp only [List.map_cons, everywhere_cons, List.cons_append, List.mem_cons, List.mem_append]
    rintro entry (rfl | hchild | hrest)
    · exact hp _ (h _ (.inl rfl))
    · exact h _ (.inr (.inl hchild))
    · exact ih (fun entry hentry => h entry (.inr (.inr hentry))) entry hrest

theorem totalSize_rename (name : Result → String) (scope : Scope) :
    totalSize (scope.map fun entry => entry.rename (name entry)) = totalSize scope := by
  unfold totalSize
  rw [List.map_map]
  rfl

end Scope

/-! ### What a leaf was read as -/

/-- The primitive that a leaf was read as: its own, or the base of its enum or bitfield. The
characters of a text are not read one by one. -/
def Entry.base? (types : TypeTable) (leaf : Result) : Option Primitive :=
  match leaf.kind with
  | .primitive => Primitive.ofWord? leaf.typeName
  | .enum | .bitfield => (types.find? leaf.typeName).bind Definition.base?
  | .struct | .array => none

theorem Primitive.ofWord?_keyword (type : Primitive) : Primitive.ofWord? type.keyword = some type := by
  cases type <;> decide +kernel

end BinarySchema
