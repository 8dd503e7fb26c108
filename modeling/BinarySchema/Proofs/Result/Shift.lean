import BinarySchema.Expression.Evaluate
import BinarySchema.Proofs.Result.Lookup

/-!
# Shifted results

The results of a decode as they would stand a number of bytes further on: every offset grows by that
number, at every depth of the tree, and nothing else changes. Names are found among shifted results as
among the others, and what is found stands for the same integer.
-/

namespace BinarySchema

mutual

/-- A value with the results inside it some bytes further on. -/
def Datum.shift (count : Nat) : Datum → Datum
  | .scope entries => .scope (Datum.entriesShift count entries)
  | value => value
termination_by structural value => value

def Datum.entriesShift (count : Nat) : List (Entry Datum) → List (Entry Datum)
  | [] => []
  | entry :: rest => Datum.entryShift count entry :: Datum.entriesShift count rest
termination_by structural entries => entries

def Datum.entryShift (count : Nat) : Entry Datum → Entry Datum
  | ⟨kind, name, offset, size, typeName, value, comment, raw⟩ =>
    ⟨kind, name, offset + count, size, typeName, Datum.shift count value, comment, raw⟩
termination_by structural entry => entry

end

/-- A result some bytes further on. -/
def Entry.shift (count : Nat) (result : Result) : Result :=
  { result with offset := result.offset + count, value := result.value.shift count }

/-- Results some bytes further on. -/
def Scope.shift (count : Nat) (scope : Scope) : Scope :=
  scope.map (Entry.shift count)

theorem Datum.entriesShift_eq (count : Nat) (entries : List (Entry Datum)) :
    entriesShift count entries = Scope.shift count entries := by
  induction entries with
  | nil => rfl
  | cons entry rest ih =>
    obtain ⟨kind, name, offset, size, typeName, value, comment, raw⟩ := entry
    rw [entriesShift, ih]
    rfl

@[simp] theorem Datum.shift_scope (count : Nat) (entries : List (Entry Datum)) :
    (Datum.scope entries).shift count = .scope (Scope.shift count entries) := by
  rw [shift, entriesShift_eq]

@[simp] theorem Datum.toInteger?_shift (count : Nat) (value : Datum) (typeName : String) :
    (value.shift count).toInteger? typeName = value.toInteger? typeName := by
  cases value <;> rfl

variable {count : Nat}

@[simp] theorem Entry.toInteger?_shift (result : Result) :
    (result.shift count).toInteger? = result.toInteger? := by
  simp only [toInteger?, shift, Datum.toInteger?_shift]

namespace Scope

@[simp] theorem shift_append (left right : Scope) :
    shift count (left ++ right) = shift count left ++ shift count right :=
  List.map_append

@[simp] theorem names_shift (scope : Scope) : names (shift count scope) = names scope :=
  List.map_map

@[simp] theorem totalSize_shift (scope : Scope) : totalSize (shift count scope) = totalSize scope := by
  unfold totalSize shift
  rw [List.map_map]
  rfl

theorem map_shift {f : Result → Result} (hf : ∀ result, f (result.shift count) = (f result).shift count)
    (scope : Scope) : (shift count scope).map f = shift count (scope.map f) := by
  unfold shift
  rw [List.map_map, List.map_map]
  exact List.map_congr_left fun result _ => hf result

theorem get?_shift (scope : Scope) (name : String) :
    get? (shift count scope) name = (get? scope name).map (Entry.shift count) :=
  List.find?_map ..

theorem resolve?_shift (chain : List Scope) (name : String) :
    resolve? (chain.map (shift count)) name = (resolve? chain name).map (Entry.shift count) := by
  induction chain with
  | nil => rfl
  | cons scope chain ih =>
    rw [List.map_cons, resolve?_cons, resolve?_cons, ih, get?_shift, Option.map_or]

theorem add_shift {scope added : Scope} {result : Result} (h : scope.add result = .ok added) :
    (shift count scope).add (result.shift count) = .ok (shift count added) := by
  unfold add at h ⊢
  have hcontains : contains (shift count scope) (result.shift count).name
      = contains scope result.name := by
    rw [Bool.eq_iff_iff, contains_iff, contains_iff, names_shift]
    rfl
  rw [hcontains]
  split at h
  · cases h
  · cases h
    rw [if_neg ‹_›, shift_append]
    rfl

end Scope

theorem Expression.follow?_shift (result : Result) (parts : List String) :
    follow? (result.shift count) parts = (follow? result parts).map (Entry.shift count) := by
  induction parts generalizing result with
  | nil => rfl
  | cons part parts ih =>
    obtain ⟨kind, name, offset, size, typeName, value, comment, raw⟩ := result
    cases value with
    | scope entries =>
      simp only [follow?, Entry.shift, Datum.shift_scope, Scope.get?_shift]
      cases Scope.get? entries part with
      | none => rfl
      | some next => exact ih next
    | _ => rfl

end BinarySchema
