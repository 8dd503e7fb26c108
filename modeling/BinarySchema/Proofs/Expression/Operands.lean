import BinarySchema.Proofs.Expression.Climbing
import BinarySchema.Proofs.Result.Leaves

/-!
# What an expression looks at

An expression sees the input and the fields only through its operands. So a value that it has in one
context it also has in another in which its operands stand for the same.

An operand that is looked for among the fields is looked for under one name, the whole word or the part
of it before the first point, and comes to one result, inside the field of that name if the word goes on.
-/

namespace BinarySchema.Expression

open Number (Outcome)

variable {context other : EvalContext}

/-! ### Transfer of values -/

/-- That terms stand for nothing in one context that they do not stand for in another. -/
def Carries (context other : EvalContext) (terms : List Term) : Prop :=
  ∀ term ∈ terms, ∀ v, Operand context term v → Operand other term v

theorem Carries.mono {terms fewer : List Term} (h : Carries context other terms)
    (hsubset : fewer ⊆ terms) : Carries context other fewer :=
  fun term hterm => h term (hsubset hterm)

theorem Unary.transfer {terms : List Term} {v : Outcome} (h : Unary context terms v)
    (hcarries : Carries context other terms) : Unary other terms v := by
  induction h with
  | operand value => exact .operand (hcarries _ (by simp) _ value)
  | not kind text _ ih => exact .not kind text (ih (hcarries.mono (by simp)))
  | negative kind text _ ih => exact .negative kind text (ih (hcarries.mono (by simp)))

theorem Climbs.rest_subset {least : Nat} {left v : Outcome} {terms rest : List Term}
    (h : Climbs context least left terms v rest) : rest ⊆ terms := by
  induction h with
  | ends => exact List.Subset.refl _
  | stops _ _ => exact List.Subset.refl _
  | @joins _ _ _ _ _ _ _ term front after _ _ _ _ _ _ _ _ hinner houter =>
    have hafter : after ⊆ term :: (front ++ after) :=
      List.Subset.trans (List.subset_append_right front after) (List.subset_cons_self _ _)
    exact List.Subset.trans houter (List.Subset.trans hinner hafter)

theorem Climbs.transfer {least : Nat} {left v : Outcome} {terms rest : List Term}
    (h : Climbs context least left terms v rest) (hcarries : Carries context other terms) :
    Climbs other least left terms v rest := by
  induction h with
  | ends => exact .ends
  | stops binds loose => exact .stops binds loose
  | @joins _ _ _ _ _ _ _ term front after remaining _ binds close first inner operates _
      hinner houter =>
    have hbehind : Carries context other (front ++ after) := hcarries.mono (List.subset_cons_self _ _)
    have hafter : Carries context other after := hbehind.mono (List.subset_append_right front after)
    exact .joins binds close (first.transfer (hbehind.mono (List.subset_append_left front after)))
      (hinner hafter) operates (houter (hafter.mono inner.rest_subset))

theorem evaluate_transfer {expression : Expression} {v : Outcome}
    (h : evaluate expression context = .ok v)
    (hcarries : Carries context other expression.terms) : evaluate expression other = .ok v := by
  rw [evaluate_ok_iff] at h ⊢
  obtain ⟨rest, front, operand, after, hterms, hfirst, hclimbs⟩ := h
  rw [hterms] at hcarries
  exact ⟨rest, front, operand, after, hterms,
    hfirst.transfer (hcarries.mono (List.subset_append_left front after)),
    hclimbs.transfer (hcarries.mono (List.subset_append_right front after))⟩

/-! ### Names that are looked for -/

end BinarySchema.Expression

namespace BinarySchema

/-- The name that a term looks for among the decoded fields. The name of an enum is none. -/
def Term.lookup? (types : TypeTable) (term : Term) : Option String :=
  match term.kind with
  | .name => some term.text
  | .constant =>
    let owner := (Expression.splitConstant term.text).1
    match types.find? owner with
    | some (.enum _) => none
    | _ => some owner
  | _ => none

namespace Expression

open Number (Outcome)

theorem follow?_mem_everywhere {outer result : Result} {parts : List String}
    (h : follow? outer parts = some result) : result ∈ Scope.everywhere [outer] := by
  induction parts generalizing outer with
  | nil =>
    cases h
    rw [Scope.everywhere_cons]
    simp
  | cons part parts ih =>
    unfold follow? at h
    split at h
    · rename_i entries hvalue
      obtain ⟨next, hnext, hrest⟩ := Option.bind_eq_some_iff.1 h
      have hchildren : outer.children = entries := by rw [Entry.children, hvalue]
      have hinside : result ∈ Scope.everywhere entries :=
        Scope.everywhere_subset_of_mem (List.mem_of_find?_eq_some hnext) (ih hrest)
      rw [Scope.everywhere_cons, hchildren]
      exact List.mem_append_left _ (List.mem_cons_of_mem _ hinside)
    · cases h

/-- What an operand stands for carries over to a context of the same input and types, if the fields that
it looks for and can take an integer from are found there too. -/
theorem Operand.transfer {term : Term} {v : Outcome} (h : Operand context term v)
    (hposition : context.position = other.position) (hsize : context.size = other.size)
    (htypes : context.types = other.types)
    (hfields : ∀ name, term.lookup? context.types = some name → ∀ outer,
      Scope.resolve? context.scopes name = some outer →
        (∃ result ∈ Scope.everywhere [outer], result.toInteger?.isSome) →
          Scope.resolve? other.scopes name = some outer) : Operand other term v := by
  cases h with
  | number kind => exact .number kind
  | atEnd kind text =>
    rw [hsize, hposition]
    exact .atEnd kind text
  | position kind text =>
    rw [hposition]
    exact .position kind text
  | size kind text =>
    rw [hsize]
    exact .size kind text
  | @field result n kind found integer =>
    have hlookup : term.lookup? context.types = some term.text := by rw [Term.lookup?, kind]
    refine .field kind (hfields _ hlookup result found ⟨result, ?_, ?_⟩) integer
    · rw [Scope.everywhere_cons]
      exact List.mem_append_left _ List.mem_cons_self
    · rw [integer]
      rfl
  | member kind owner value =>
    rw [htypes] at owner
    exact .member kind owner value
  | @path outer result n kind owner found inner integer =>
    have hlookup : term.lookup? context.types = some (splitConstant term.text).1 := by
      rw [Term.lookup?, kind]
      dsimp only
      split
      · exact absurd ‹_› (owner _)
      · rfl
    rw [htypes] at owner
    refine .path kind owner (hfields _ hlookup outer found ⟨result, ?_, ?_⟩) inner integer
    · exact follow?_mem_everywhere inner
    · rw [integer]
      rfl

end Expression

end BinarySchema
