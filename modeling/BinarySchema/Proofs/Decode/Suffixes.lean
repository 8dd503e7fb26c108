import Mathlib
import BinarySchema.Proofs.Decode.Names
import BinarySchema.Proofs.Decode.Sequence

/-!
# Suffixes of loops

The results of an iteration join the scope around the loop with the number of the iteration behind their
names. In one iteration these names differ because the names of a body do, and between two iterations
because the numbers do (`indexedName_inj`), also if the names in front end in numbers of their own. So
whatever a loop has added so far is never in the way of what it adds next, and if a name is taken, it was
taken in front of the loop.
-/

namespace BinarySchema

namespace Decoder

variable {context : DecodeContext} {head : BlockHead} {outer : List Scope} {r s : Reading}

/-- The results of an iteration as they join the scope around the loop. -/
def suffixed (iteration : Nat) (fields : Scope) : Scope :=
  fields.map fun x => x.rename (indexedName x.name iteration)

/-- The results of several iterations, the first of which has the given number, as they join the scope
around the loop. -/
def suffixedFrom : (iteration : Nat) → List Scope → Scope
  | _, [] => []
  | iteration, fields :: turns => suffixed iteration fields ++ suffixedFrom (iteration + 1) turns

/-! ### Names with suffixes -/

theorem names_suffixed (iteration : Nat) (fields : Scope) :
    Scope.names (suffixed iteration fields)
      = (Scope.names fields).map (indexedName · iteration) := by
  simp [suffixed, Scope.names, Entry.rename]

theorem suffixed_distinct {fields : Scope} (h : (Scope.names fields).Nodup) (iteration : Nat) :
    (Scope.names (suffixed iteration fields)).Nodup := by
  rw [names_suffixed]
  exact h.map fun _ _ heq => (indexedName_inj.1 heq).1

theorem suffixedFrom_append_singleton (iteration : Nat) (turns : List Scope) (fields : Scope) :
    suffixedFrom iteration (turns ++ [fields])
      = suffixedFrom iteration turns ++ suffixed (iteration + turns.length) fields := by
  induction turns generalizing iteration with
  | nil => simp [suffixedFrom]
  | cons turn rest ih =>
    rw [List.cons_append, suffixedFrom, ih, suffixedFrom, List.append_assoc, List.length_cons,
      Nat.add_right_comm iteration 1, Nat.add_assoc]

theorem exists_number_of_mem {iteration : Nat} {turns : List Scope} {name : String}
    (h : name ∈ Scope.names (suffixedFrom iteration turns)) :
    ∃ plain number, iteration ≤ number ∧ name = indexedName plain number := by
  induction turns generalizing iteration with
  | nil => cases h
  | cons fields rest ih =>
    rw [suffixedFrom, Scope.names_append, names_suffixed] at h
    rcases List.mem_append.1 h with hhead | hrest
    · obtain ⟨plain, -, rfl⟩ := List.mem_map.1 hhead
      exact ⟨plain, iteration, Nat.le_refl _, rfl⟩
    · obtain ⟨plain, number, hnumber, rfl⟩ := ih hrest
      exact ⟨plain, number, by omega, rfl⟩

theorem suffixedFrom_distinct {turns : List Scope}
    (h : ∀ fields ∈ turns, (Scope.names fields).Nodup) (iteration : Nat) :
    (Scope.names (suffixedFrom iteration turns)).Nodup := by
  induction turns generalizing iteration with
  | nil => exact List.nodup_nil
  | cons fields rest ih =>
    obtain ⟨hfields, hrest⟩ := List.forall_mem_cons.1 h
    rw [suffixedFrom, Scope.names_append]
    refine List.nodup_append.2 ⟨suffixed_distinct hfields iteration, ih hrest _, ?_⟩
    rintro name hname other hother rfl
    -- The later iterations have larger numbers.
    rw [names_suffixed] at hname
    obtain ⟨plain, -, rfl⟩ := List.mem_map.1 hname
    obtain ⟨another, number, hnumber, heq⟩ := exists_number_of_mem hother
    have hsame := (indexedName_inj.1 heq).2
    omega

/-! ### Names that are taken -/

/-- Results with names of their own fail to be added only for a name that the scope already had. -/
theorem addAll_error {scope : Scope} {results : List Result} (h : (Scope.names results).Nodup)
    {failure : Failure} (hrun : addAll scope results r = .error failure s) :
    ∃ result ∈ results, result.name ∈ Scope.names scope ∧
      failure = .ofDuplicate ⟨result.name, result.offset⟩ := by
  induction results generalizing scope with
  | nil => cases hrun
  | cons result rest ih =>
    obtain ⟨hresult, hrest⟩ := List.nodup_cons.1 h
    rcases bind_error_iff.1 hrun with hadd | ⟨added, u, hadd, hbehind⟩
    · unfold add at hadd
      cases hscope : scope.add result with
      | ok added =>
        rw [hscope] at hadd
        cases hadd
      | error duplicate =>
        obtain ⟨htaken, rfl⟩ := Scope.add_eq_error_iff.1 hscope
        rw [hscope] at hadd
        obtain ⟨rfl, -⟩ := throw_error_iff.1 hadd
        exact ⟨result, List.mem_cons_self, htaken, rfl⟩
    · obtain ⟨rfl, rfl⟩ := add_ok hadd
      obtain ⟨other, hother, htaken, rfl⟩ := ih hrest hbehind
      refine ⟨other, List.mem_cons_of_mem _ hother, ?_, rfl⟩
      rw [Scope.names_append] at htaken
      rcases List.mem_append.1 htaken with hscope | hsame
      · exact hscope
      · -- The result that was just added has another name.
        have hname : other.name ∈ Scope.names rest := List.mem_map_of_mem hother
        rw [List.mem_singleton.1 hsame] at hname
        exact absurd hname hresult

theorem addAll_error_of_mem {scope : Scope} {results : List Result} {result : Result}
    (hresult : result ∈ results) (htaken : result.name ∈ Scope.names scope) (r : Reading) :
    ∃ failure s, addAll scope results r = .error failure s := by
  cases hrun : addAll scope results r with
  | error failure s => exact ⟨failure, s, rfl⟩
  | ok added s =>
    have hjoins := (addAll_ok_iff.1 hrun).1
    exact absurd htaken (hjoins.2 _ (List.mem_map_of_mem hresult))

/-! ### Iterations -/

theorem blockBody_distinct {levels : Nat} {body : List Node} {scopes : List Scope} {fields : Scope}
    (h : blockBody context levels body scopes r = .ok fields s) : (Scope.names fields).Nodup :=
  nodes_distinct h

theorem blockBody_forward (context : DecodeContext) (levels : Nat) (body : List Node) :
    Forward (blockBody context levels body) :=
  fun _ _ _ _ hrun => (blockBody_bareIfStill hrun).forward

theorem Iterates.exists_turns {levels : Nat} {body : List Node} {first : Scope} {start : Reading}
    {n : Nat} {visible : List Scope} {scope : Scope}
    (h : Iterates context head (blockBody context levels body) outer first start n visible scope r) :
    ∃ turns : List Scope, turns.length = n ∧ (∀ fields ∈ turns, (Scope.names fields).Nodup) ∧
      scope = first ++ suffixedFrom 0 turns := by
  induction h with
  | start => exact ⟨[], rfl, nofun, (List.append_nil first).symm⟩
  | @next n visible current fields joined s t before turn moved ih =>
    obtain ⟨turns, rfl, hdistinct, rfl⟩ := ih
    obtain ⟨rfl, -⟩ := addAll_ok turn.joins
    refine ⟨turns ++ [fields], by simp, ?_, ?_⟩
    · rw [List.forall_mem_append, List.forall_mem_singleton]
      exact ⟨hdistinct, blockBody_distinct turn.run⟩
    · rw [suffixedFrom_append_singleton, Nat.zero_add, ← List.append_assoc]
      rfl

end Decoder

open Decoder

/-- The suffixed names of a loop differ, over all names of fields and all iterations. So where the results
of an iteration do not fit into the scope around the loop, which ends the loop, the name that is taken
was there before the loop began; and such a name does end it. Every loop that fails in adding results
fails in such an iteration (`loop_error_iff`). -/
theorem loop_suffixes_collide_outside {context : DecodeContext} {head : BlockHead} {levels : Nat}
    {body : List Node} {outer : List Scope} {first : Scope} {start : Reading} {n : Nat}
    {visible : List Scope} {scope fields : Scope} {r s : Reading}
    (hbefore : Iterates context head (blockBody context levels body) outer first start n visible scope r)
    (henters : entered context head (visible ++ scope :: outer) r = .ok true r)
    (hwithin : checkLimit context head n r.source.position r = .ok () r)
    (hrun : blockBody context levels body (scope :: outer) r = .ok fields s) :
    (∀ name other : String, ∀ i j : Nat,
      indexedName name i = indexedName other j ↔ name = other ∧ i = j) ∧
    (∃ turns : List Scope, turns.length = n ∧ scope = first ++ suffixedFrom 0 turns ∧
      (Scope.names (suffixedFrom 0 (turns ++ [fields]))).Nodup) ∧
    (∀ failure t, addAll scope (suffixed n fields) s = .error failure t →
      loop context head (blockBody context levels body) outer (start.source.unread + 1) 0 [] first start
        = .error failure t ∧
      ∃ field ∈ fields, indexedName field.name n ∈ Scope.names first ∧
        failure = .ofDuplicate ⟨indexedName field.name n, field.offset⟩) ∧
    ((∃ field ∈ fields, indexedName field.name n ∈ Scope.names first) →
      ∃ failure t, addAll scope (suffixed n fields) s = .error failure t) := by
  obtain ⟨turns, hlength, hdistinct, hscope⟩ := hbefore.exists_turns
  have hfields := blockBody_distinct hrun
  have hall : (Scope.names (suffixedFrom 0 (turns ++ [fields]))).Nodup := by
    refine suffixedFrom_distinct ?_ 0
    rw [List.forall_mem_append, List.forall_mem_singleton]
    exact ⟨hdistinct, hfields⟩
  refine ⟨fun _ _ _ _ => indexedName_inj, ⟨turns, hlength, hscope, hall⟩, ?_, ?_⟩
  · intro failure t hfails
    have hfailure : LoopFailure context head (blockBody context levels body) outer n visible scope r
        failure t := .joining henters hwithin hrun hfails
    have hforward := blockBody_forward context levels body
    refine ⟨(loop_error_iff hforward).2 ⟨n, visible, scope, r, hbefore, hfailure⟩, ?_⟩
    obtain ⟨result, hresult, htaken, rfl⟩ := addAll_error (suffixed_distinct hfields n) hfails
    obtain ⟨field, hfield, rfl⟩ := List.mem_map.1 hresult
    refine ⟨field, hfield, ?_, rfl⟩
    rw [hscope, Scope.names_append] at htaken
    rcases List.mem_append.1 htaken with hfirst | hadded
    · exact hfirst
    · -- What the iterations before have added has none of the names of this one.
      rw [suffixedFrom_append_singleton, Scope.names_append, Nat.zero_add, hlength] at hall
      have hname := List.mem_map_of_mem (f := Entry.name) hresult
      exact absurd rfl ((List.nodup_append.1 hall).2.2 _ hadded _ hname)
  · rintro ⟨field, hfield, htaken⟩
    have hresult := List.mem_map_of_mem (f := fun x => Entry.rename x (indexedName x.name n)) hfield
    refine addAll_error_of_mem hresult ?_ s
    rw [hscope, Scope.names_append]
    exact List.mem_append_left _ htaken

def Node.nested : List Node := [
  .field { name := "x", type := .primitive .byte, pos := ⟨1, 75⟩ },
  .block ⟨⟨true, false⟩, ⟨[⟨.probe, "@pos", ⟨1, 88⟩⟩, ⟨.operator, "<", ⟨1, 92⟩⟩,
      ⟨.number 4, "4", ⟨1, 93⟩⟩], ⟨1, 88⟩⟩, ⟨1, 82⟩⟩ [
    .field { name := "w", type := .primitive .byte, pos := ⟨1, 96⟩ }]]

def BlockHead.aroundNested : BlockHead :=
  ⟨⟨true, false⟩, ⟨[⟨.probe, "@pos", ⟨1, 67⟩⟩, ⟨.operator, "<", ⟨1, 71⟩⟩,
    ⟨.number 5, "5", ⟨1, 72⟩⟩], ⟨1, 67⟩⟩, ⟨1, 61⟩⟩

/-- A loop that adds y[0] and x[1], and a loop around another one that adds x[0] and w[0][0] and then
comes to x[1] as well. -/
def Schema.nested : Schema where
  types := { frozen := true }
  root := some [
    .block ⟨⟨true, false⟩, ⟨[⟨.probe, "@pos", ⟨1, 14⟩⟩, ⟨.operator, "<", ⟨1, 18⟩⟩,
        ⟨.number 2, "2", ⟨1, 19⟩⟩], ⟨1, 14⟩⟩, ⟨1, 8⟩⟩ [
      .block ⟨⟨false, false⟩, ⟨[⟨.probe, "@pos", ⟨1, 25⟩⟩, ⟨.operator, "=", ⟨1, 29⟩⟩,
          ⟨.number 1, "1", ⟨1, 30⟩⟩], ⟨1, 25⟩⟩, ⟨1, 22⟩⟩ [
        .field { name := "x", type := .primitive .byte, pos := ⟨1, 33⟩ }],
      .block ⟨⟨false, false⟩, ⟨[⟨.probe, "@pos", ⟨1, 44⟩⟩, ⟨.operator, "=", ⟨1, 48⟩⟩,
          ⟨.number 0, "0", ⟨1, 49⟩⟩], ⟨1, 44⟩⟩, ⟨1, 41⟩⟩ [
        .field { name := "y", type := .primitive .byte, pos := ⟨1, 52⟩ }]],
    .block .aroundNested Node.nested]

theorem loop_suffixes_collide_outside_nested :
    Schema.compile {}
        "schema{while(@pos<2){if(@pos=1){x:byte;}if(@pos=0){y:byte;}}while(@pos<5){x:byte;while(@pos<4){w:byte;}}}"
      = .ok Schema.nested ∧
    (∃ s, Schema.nested.decode {} (.ofBytes [0, 1, 2, 3, 4])
      = .error (.ofDuplicate ⟨"x[1]", 4⟩) s) ∧
    ∃ (start r s : Reading) (first before scope fields : Scope),
      Iterates ⟨Schema.nested.types, {}⟩ .aroundNested
        (blockBody ⟨Schema.nested.types, {}⟩ 0 Node.nested) [] first start 1 [before] scope r ∧
      blockBody ⟨Schema.nested.types, {}⟩ 0 Node.nested [scope] r = .ok fields s ∧
      Scope.names first = ["y[0]", "x[1]"] ∧ Scope.names before = ["x", "w[0]"] ∧
      Scope.names scope = ["y[0]", "x[1]", "x[0]", "w[0][0]"] ∧ Scope.names fields = ["x"] ∧
      ∃ failure t, addAll scope (suffixed 1 fields) s = .error failure t ∧
        loop ⟨Schema.nested.types, {}⟩ .aroundNested
            (blockBody ⟨Schema.nested.types, {}⟩ 0 Node.nested) [] (start.source.unread + 1) 0 [] first
            start
          = .error failure t ∧
        ∃ field ∈ fields, indexedName field.name 1 ∈ Scope.names first ∧
          failure = .ofDuplicate ⟨indexedName field.name 1, field.offset⟩ := by
  have hcompile : Schema.compile {}
      "schema{while(@pos<2){if(@pos=1){x:byte;}if(@pos=0){y:byte;}}while(@pos<5){x:byte;while(@pos<4){w:byte;}}}"
        = .ok Schema.nested := by
    cbv
  let value (name : String) (offset : Int) : Result :=
    { kind := .primitive, name, offset, size := 1, typeName := "byte", value := .int offset }
  let reading (position : Nat) : Reading := ⟨.ofBytes [0, 1, 2, 3, 4] position, []⟩
  let first : Scope := [value "y[0]" 0, value "x[1]" 1]
  let before : Scope := [value "x" 2, value "w[0]" 3]
  let scope : Scope := first ++ [value "x[0]" 2, value "w[0][0]" 3]
  have hturn : Turn ⟨Schema.nested.types, {}⟩ .aroundNested
      (blockBody ⟨Schema.nested.types, {}⟩ 0 Node.nested) [] 0 [] first (reading 2) before scope
      (reading 4) := ⟨rfl, rfl, rfl, rfl⟩
  have hbefore : Iterates ⟨Schema.nested.types, {}⟩ .aroundNested
      (blockBody ⟨Schema.nested.types, {}⟩ 0 Node.nested) [] first (reading 2) 1 [before] scope
      (reading 4) := .next .start hturn (by decide)
  have hrun : blockBody ⟨Schema.nested.types, {}⟩ 0 Node.nested [scope] (reading 4)
      = .ok [value "x" 4] (reading 5) := rfl
  obtain ⟨-, -, hfailure, hcollides⟩ := loop_suffixes_collide_outside hbefore rfl rfl hrun
  obtain ⟨failure, t, hfails⟩ :=
    hcollides ⟨value "x" 4, List.mem_singleton.2 rfl, List.mem_cons_of_mem _ List.mem_cons_self⟩
  obtain ⟨hloop, hfield⟩ := hfailure failure t hfails
  exact ⟨hcompile, ⟨reading 5, rfl⟩, reading 2, reading 4, reading 5, first, before, scope, _, hbefore,
    hrun, rfl, rfl, rfl, rfl, failure, t, hfails, hloop, hfield⟩

end BinarySchema
