import BinarySchema.Result

/-!
# Looking up names

A name is looked up in a chain of scopes. What a chain means to whoever looks names up in it is the
result that each name comes to, and several chains can mean the same: two neighbouring scopes can be put
together into one if they have no name in common.

`Joins` is when the results of one scope can be added to another.
-/

namespace BinarySchema.Scope

variable {scope left right fields : Scope} {chain other : List Scope}

theorem get?_append (left right : Scope) (name : String) :
    get? (left ++ right) name = (get? left name).or (get? right name) :=
  List.find?_append

theorem get?_eq_none_iff {scope : Scope} {name : String} :
    get? scope name = none ↔ name ∉ names scope := by
  simp [get?, names]

theorem resolve?_append_of_unnamed {chain : List Scope} {name : String}
    (h : ∀ scope ∈ chain, name ∉ names scope) (behind : List Scope) :
    resolve? (chain ++ behind) name = resolve? behind name := by
  induction chain with
  | nil => rfl
  | cons scope chain ih =>
    have hnone := get?_eq_none_iff.2 (h scope (by simp))
    rw [List.cons_append, resolve?_cons, hnone, Option.none_or,
      ih fun other hother => h other (List.mem_cons_of_mem _ hother)]

@[simp] theorem names_append (left right : Scope) :
    names (left ++ right) = names left ++ names right :=
  List.map_append

/-! ### Joining scopes -/

/-- That the results of a scope have names of their own, also next to those of another scope. -/
def Joins (scope fields : Scope) : Prop :=
  (names fields).Nodup ∧ ∀ name ∈ names fields, name ∉ names scope

theorem Joins.nil (scope : Scope) : Joins scope [] :=
  ⟨List.nodup_nil, nofun⟩

theorem Joins.of_nodup (h : (names (scope ++ fields)).Nodup) : Joins scope fields := by
  rw [names_append, List.nodup_append] at h
  exact ⟨h.2.1, fun name hname hscope => h.2.2 name hscope name hname rfl⟩

theorem Joins.of_append (h : Joins scope (left ++ right)) : Joins scope left := by
  obtain ⟨hdistinct, hapart⟩ := h
  rw [names_append] at hdistinct hapart
  exact ⟨(List.nodup_append.1 hdistinct).1, fun name hname => hapart name (by simp [hname])⟩

/-- One result more joins a scope if neither of the two scopes has its name. -/
theorem Joins.append_singleton_iff (h : Joins scope fields) {result : Result} :
    Joins scope (fields ++ [result]) ↔ result.name ∉ names scope ++ names fields := by
  obtain ⟨hdistinct, hapart⟩ := h
  have hname : names [result] = [result.name] := rfl
  rw [Joins, names_append, hname, List.nodup_append, List.forall_mem_append, List.mem_append, not_or]
  constructor
  · intro ⟨⟨_, _, hfields⟩, _, hscope⟩
    exact ⟨hscope _ List.mem_cons_self, fun hmem => hfields _ hmem _ List.mem_cons_self rfl⟩
  · intro ⟨hscope, hfields⟩
    refine ⟨⟨hdistinct, by simp, ?_⟩, hapart, List.forall_mem_singleton.2 hscope⟩
    intro name hmem other hother heq
    rw [← List.mem_singleton.1 hother, ← heq] at hfields
    exact hfields hmem

/-! ### Chains with the same meaning -/

/-- That each name comes to the same result in two chains. -/
def SameMeaning (chain other : List Scope) : Prop :=
  ∀ name, resolve? chain name = resolve? other name

theorem SameMeaning.cons (h : SameMeaning chain other) (scope : Scope) :
    SameMeaning (scope :: chain) (scope :: other) := by
  intro name
  rw [resolve?_cons, resolve?_cons, h name]

theorem SameMeaning.append (h : SameMeaning chain other) (front : List Scope) :
    SameMeaning (front ++ chain) (front ++ other) := by
  induction front with
  | nil => exact h
  | cons scope front ih => exact ih.cons scope

theorem Joins.sameMeaning (h : Joins scope fields) (outer : List Scope) :
    SameMeaning ((scope ++ fields) :: outer) (fields :: scope :: outer) := by
  intro name
  rw [resolve?_cons, resolve?_cons, resolve?_cons, get?_append]
  by_cases hname : name ∈ names scope
  · have hfields : get? fields name = none := get?_eq_none_iff.2 fun hmem => h.2 name hmem hname
    rw [hfields, Option.or_none, Option.none_or]
  · have hscope : get? scope name = none := get?_eq_none_iff.2 hname
    rw [hscope, Option.none_or, Option.none_or]

end BinarySchema.Scope
