import Mathlib
import BinarySchema.Proofs.Decode.Levels
import BinarySchema.Proofs.Schema.References

/-!
# Termination

A decode by a compiled schema ends if every struct that contains itself reads something first. A
reference of a struct leads to an earlier struct of the table, or to the struct itself behind an anchor.
So the position in the table together with the number of unread bytes falls with every level of structs
within structs, and the levels that a decode is given are never used up: with more levels, or with none
counted at all, it comes to the same end.

Loops end by themselves, whatever their bodies hold, since each of their iterations takes a byte.
-/

namespace BinarySchema

/-- Whether a field has the struct itself as its type, or as the type of its elements. -/
def StructDef.Mentions (type : StructDef) (declared : Field) : Prop :=
  declared.type = .named .struct type.name

/-- That an anchor stands in front of every member of the body that mentions the struct itself. -/
def StructDef.Guarded (type : StructDef) : Prop :=
  ∀ front node back, type.body = front ++ node :: back →
    (∃ declared ∈ node.fields, type.Mentions declared) → ∃ anchor ∈ front, anchor.IsAnchor

def Schema.Guarded (schema : Schema) : Prop :=
  ∀ type : StructDef, .struct type ∈ schema.types.definitions → type.Guarded

/-- Which struct a reference leads to: one in front of a position, or the one that stands there. -/
theorem TypeRef.ResolvesUpTo.struct {types : TypeTable} {position : Nat} {name : String}
    (h : (TypeRef.named .struct name).ResolvesUpTo types position) {type : StructDef}
    (hfound : types.find? name = some (.struct type)) :
    ∃ i ≤ position, types.definitions[i]? = some (.struct type) := by
  obtain ⟨i, definition, hi, hfound', -, hposition⟩ := h
  obtain rfl := Option.some.inj (hfound'.symm.trans hfound)
  exact ⟨i, by omega, hi⟩

namespace Decoder

variable {context : DecodeContext} {r : Reading}

/-- Decoders of struct bodies of which each enters structs with the one below it. -/
structure Tower (context : DecodeContext) (enter : Nat → List Node → Decoder Scope) : Prop where
  succ (level : Nat) (body : List Node) :
    enter (level + 1) body = nodes context (enter level) body [] []

theorem tower_structBody (context : DecodeContext) : Tower context (structBody context) :=
  ⟨fun _ _ => rfl⟩

theorem tower_unbounded {enter : List Node → Decoder Scope}
    (h : ∀ body, enter body = nodes context enter body [] []) : Tower context fun _ => enter :=
  ⟨fun _ => h⟩

section

variable {schema : Schema} {options : Options} {enter : Nat → List Node → Decoder Scope}

/-- The body of a struct is decoded in the same way with any levels that the struct's position and the
unread bytes leave room for. -/
theorem structBody_agree (hresolve : schema.ReferencesResolve) (hguarded : schema.Guarded)
    (htower : Tower ⟨schema.types, options⟩ enter) {i levels more : Nat} {type : StructDef}
    (htype : schema.types.definitions[i]? = some (.struct type))
    (hlevels : i + r.source.unread < levels) (hmore : i + r.source.unread < more) :
    structBody ⟨schema.types, options⟩ levels type.body r = enter more type.body r := by
  induction levels generalizing i more type r with
  | zero => omega
  | succ levels ih =>
    obtain ⟨more, rfl⟩ : ∃ fewer, more = fewer + 1 := ⟨more - 1, by omega⟩
    rw [htower.succ]
    have hresolves := hresolve.structs i type htype
    refine nodes_agree_anchored ((consumes_accumulates _).structBody levels) type.body
      (hguarded type (List.mem_of_getElem? htype)) ?_ ?_ [] [] (Nat.le_refl r.source.unread)
    · intro declared hdeclared hother name hname struct hfound s hs
      have hupTo := hresolves declared hdeclared
      rw [hname] at hupTo
      obtain ⟨j, hj, hstruct⟩ := hupTo.struct hfound
      -- At the position itself there is only the struct whose body this is.
      have hearlier : j ≠ i := by
        rintro rfl
        obtain rfl : struct = type := by simpa using hstruct.symm.trans htype
        exact hother (hname.trans (by rw [← TypeTable.name_of_find? hfound]; rfl))
      exact ih hstruct (by omega) (by omega)
    · intro less hless declared hdeclared name hname struct hfound s hs
      have hupTo := hresolves declared hdeclared
      rw [hname] at hupTo
      obtain ⟨j, hj, hstruct⟩ := hupTo.struct hfound
      exact ih hstruct (by omega) (by omega)

theorem root_agree (hresolve : schema.ReferencesResolve) (hguarded : schema.Guarded)
    (htower : Tower ⟨schema.types, options⟩ enter) (body : List Node) {levels : Nat}
    (hlevels : schema.types.size * (r.source.unread + 1) ≤ levels) :
    root ⟨schema.types, options⟩ body r
      = nodes ⟨schema.types, options⟩ (enter levels) body [] [] r := by
  unfold root
  rw [get_bind]
  refine nodes_agree ((consumes_accumulates _).structBody _) body ?_ [] [] (Nat.le_refl r.source.unread)
  intro declared hdeclared name hname struct hfound s hs
  obtain ⟨i, hi, hstruct⟩ := TypeTable.exists_index_of_find? hfound
  have hposition : i < schema.types.size := hi
  have hroom : i + s.source.unread < schema.types.size * (r.source.unread + 1) := by
    have hproduct : r.source.unread ≤ schema.types.size * r.source.unread :=
      Nat.le_mul_of_pos_left _ (Nat.zero_lt_of_lt hposition)
    rw [Nat.mul_succ]
    omega
  exact structBody_agree hresolve hguarded htower hstruct hroom (Nat.lt_of_lt_of_le hroom hlevels)

end

/-! ### Ending -/

/-- The decoders of struct bodies above one that fails in its own way where the levels are used up. -/
def bodyAbove (context : DecodeContext) (bottom : Failure) : Nat → List Node → Decoder Scope
  | 0, _ => throw bottom
  | level + 1, body => nodes context (bodyAbove context bottom level) body [] []

theorem permits_ends (context : DecodeContext) :
    Permits context (fun _ => True) (· ≠ .endless) where
  bodies _ _ _ := trivial
  decode _ := nofun
  eval _ _ _ := nofun
  reference _ _ := nofun

theorem nodes_end {enter : List Node → Decoder Scope}
    (henter : ∀ (body : List Node) {r s : Reading} {e : Failure}, enter body r = .error e s → e ≠ .endless)
    (body : List Node) {outer : List Scope} {scope : Scope} {s : Reading} {e : Failure}
    (h : nodes context enter body outer scope r = .error e s) : e ≠ .endless := by
  have henters : Permits.Enters context (· ≠ .endless) enter fun _ => .silent :=
    fun type _ => ⟨fun hrun => .inl (henter type.body hrun)⟩
  refine ((permits_ends context).nodes henters body (fun _ _ => trivial) outer scope).forall_error ?_ h
  intro codec encounter e hexceeds
  cases hexceeds <;> nofun

theorem bodyAbove_ends {bottom : Failure} (hbottom : bottom ≠ .endless) (level : Nat) (body : List Node)
    {r s : Reading} {e : Failure} (h : bodyAbove context bottom level body r = .error e s) :
    e ≠ .endless := by
  induction level generalizing body r s e with
  | zero =>
    obtain ⟨rfl, -⟩ := throw_error_iff.1 h
    exact hbottom
  | succ level ih => exact nodes_end ih body h

theorem root_ends {schema : Schema} {options : Options} (hresolve : schema.ReferencesResolve)
    (hguarded : schema.Guarded) {body : List Node} {s : Reading} {failure : Failure}
    (h : root ⟨schema.types, options⟩ body r = .error failure s) :
    failure ≠ .endless := by
  have htower : Tower ⟨schema.types, options⟩ (bodyAbove ⟨schema.types, options⟩ .noMemory) :=
    ⟨fun _ _ => rfl⟩
  have hbottom : Failure.noMemory ≠ .endless := nofun
  rw [root_agree hresolve hguarded htower body (Nat.le_refl _)] at h
  exact nodes_end (bodyAbove_ends hbottom _) body h

end Decoder

theorem Schema.decode_ends {schema : Schema} {options : Options} {source : Source} {failure : Failure}
    {reading : Reading} (hresolve : schema.ReferencesResolve) (hguarded : schema.Guarded)
    (h : schema.decode options source = .error failure reading) : failure ≠ .endless := by
  unfold decode at h
  cases hbody : schema.root with
  | none =>
    rw [hbody] at h
    cases h
    nofun
  | some body =>
    simp only [hbody] at h
    split at h
    · cases h
    · rename_i hrun
      cases h
      exact Decoder.root_ends hresolve hguarded hrun

/-- That a loop with a body ends: it completes no more iterations than there are unread bytes, and more
steps than these change nothing. -/
structure Decoder.LoopEnds (context : DecodeContext) (head : BlockHead)
    (body : List Scope → Decoder Scope) : Prop where
  iterations {outer : List Scope} {scope : Scope} {r : Reading} {n : Nat} {visible : List Scope}
    {current : Scope} {s : Reading} :
    Iterates context head body outer scope r n visible current s → n ≤ r.source.unread
  steps (outer : List Scope) (scope : Scope) (r : Reading) {steps : Nat} :
    r.source.unread < steps →
      loop context head body outer steps 0 [] scope r
        = loop context head body outer (r.source.unread + 1) 0 [] scope r

theorem Decoder.Forward.loopEnds {body : List Scope → Decoder Scope} (h : Forward body)
    (context : DecodeContext) (head : BlockHead) : LoopEnds context head body where
  iterations hiterates := by
    have hunread := hiterates.unread h
    omega
  steps _ _ r _ hsteps :=
    loop_agree h (fun _ _ _ => rfl) (Nat.le_refl r.source.unread) hsteps (Nat.lt_succ_self _)

/-- That a decode ends. It does not run out of levels of structs; it comes to the same end with more
levels, and with structs that are entered without counting any; and the loops in it end. -/
structure Schema.DecodeEnds (schema : Schema) (options : Options) (source : Source) : Prop where
  outcome {failure : Failure} {reading : Reading} :
    schema.decode options source = .error failure reading → failure ≠ .endless
  levels (body : List Node) {enter : Nat → List Node → Decoder Scope} {levels : Nat} :
    Decoder.Tower ⟨schema.types, options⟩ enter →
      schema.types.size * (source.unread + 1) ≤ levels →
        Decoder.root ⟨schema.types, options⟩ body ⟨source, []⟩
          = Decoder.nodes ⟨schema.types, options⟩ (enter levels) body [] [] ⟨source, []⟩
  loops (levels : Nat) (head : BlockHead) (body : List Node) :
    Decoder.LoopEnds ⟨schema.types, options⟩ head fun scopes =>
      Decoder.nodes ⟨schema.types, options⟩ (Decoder.structBody ⟨schema.types, options⟩ levels) body
        scopes []

/-- Every decode by a compiled schema ends if its structs are guarded. -/
theorem guarded_decode_ends {schema : Schema} (hcompiled : schema.Compiled)
    (hguarded : schema.Guarded) (options : Options) (source : Source) :
    schema.DecodeEnds options source := by
  obtain ⟨draft, origin, hdraft, rfl⟩ := hcompiled.exists_settled
  have hresolve := hdraft.finish origin
  refine ⟨Schema.decode_ends hresolve hguarded, ?_, ?_⟩
  · intro body enter levels htower hlevels
    exact Decoder.root_agree hresolve hguarded htower body hlevels
  · intro levels head body
    refine Decoder.Forward.loopEnds (fun scopes r fields s hrun => ?_) _ head
    obtain ⟨results, -, hadds⟩ := (Decoder.consumes_accumulates _).nodes
      ((Decoder.consumes_accumulates _).structBody levels) body (fun _ _ => trivial) hrun
    exact hadds

/-- Trees, each with the number of its children in front of them, up to the end of the input. -/
def Schema.trees : Schema where
  types := {
    definitions := [.struct ⟨"Tree", [
      .field { name := "n", type := .primitive .byte, pos := ⟨1, 15⟩ },
      .field { name := "t", type := .named .struct "Tree", pos := ⟨1, 25⟩
               length := some ⟨[⟨.name, "n", ⟨1, 34⟩⟩], ⟨1, 34⟩⟩ }], ⟨1, 8⟩⟩]
    frozen := true }
  root := some [.block ⟨⟨true, true⟩, ⟨[⟨.probe, "@eof", ⟨1, 56⟩⟩], ⟨1, 56⟩⟩, ⟨1, 49⟩⟩
    [.field { name := "t", type := .named .struct "Tree", pos := ⟨1, 64⟩ }]]

theorem Schema.trees_compiled : trees.Compiled := by
  have hrun : compile {}
      "struct Tree { n : byte; t : Tree[n]; } schema { until (@eof) { t : Tree; } }"
        = .ok trees := by
    cbv
  exact .text hrun

theorem Schema.trees_guarded : trees.Guarded := by
  intro type htype front node back hbody hmentions
  obtain rfl : type = _ := by simpa [trees] using htype
  cases front with
  | nil =>
    obtain ⟨rfl, -⟩ := List.cons.inj hbody
    simp [StructDef.Mentions] at hmentions
  | cons anchor front =>
    obtain ⟨rfl, -⟩ := List.cons.inj hbody
    exact ⟨_, List.mem_cons_self, rfl, by decide⟩

theorem guarded_decode_ends_trees :
    Schema.trees.Compiled ∧ Schema.trees.Guarded ∧
      Schema.trees.DecodeEnds {} (.ofBytes [2, 0, 0]) :=
  ⟨Schema.trees_compiled, Schema.trees_guarded,
    guarded_decode_ends Schema.trees_compiled Schema.trees_guarded {} (.ofBytes [2, 0, 0])⟩

end BinarySchema
