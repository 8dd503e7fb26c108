import BinarySchema.Proofs.Decode.Faults
import BinarySchema.Proofs.Except
import BinarySchema.Proofs.Schema.Step

/-!
# References of compiled schemas

No type reference of a compiled schema dangles: each names a primitive or an entry of the frozen table
of exactly the kind that it says, and inside a struct it names an entry in front of this struct or the
struct itself. So a decode never looks for a type that is not there.

`Settled` is what holds of a table and a draft between two declarations. Every declaration keeps it,
also one that includes other sources, because a definition with a new name goes to the end of the table
and its references could only mean what the table had before, or the reserved name of the struct that
is being read.
-/

namespace BinarySchema

/-! ### Settled tables -/

/-- A table between two declarations. -/
structure TypeTable.Settled (types : TypeTable) : Prop where
  frozen : types.frozen = false
  reserved : types.reserved = []
  distinct : types.names.Nodup
  structs : ∀ {i : Nat} {definition : Definition}, types.definitions[i]? = some definition →
    ∀ declared ∈ definition.fields, declared.type.ResolvesUpTo types i

section

variable {types : TypeTable}

theorem TypeTable.settled_empty : TypeTable.Settled {} where
  frozen := rfl
  reserved := rfl
  distinct := List.nodup_nil
  structs := by simp

/-- A table stays settled if the fields of a new definition resolve up to its place. -/
theorem TypeTable.Settled.grow (h : types.Settled) {definition : Definition}
    (hnew : definition.name ∉ types.names)
    (hfields : ∀ declared ∈ definition.fields,
      declared.type.ResolvesUpTo (types.grow definition) types.size) :
    (types.grow definition).Settled where
  frozen := h.frozen
  reserved := rfl
  distinct := by
    have hnames : (types.grow definition).names = types.names ++ [definition.name] := by
      simp [TypeTable.names, TypeTable.grow]
    rw [hnames, List.nodup_append]
    refine ⟨h.distinct, by simp, ?_⟩
    intro name hname other hother
    rw [List.mem_singleton.1 hother]
    exact fun heq => hnew (heq ▸ hname)
  structs := by
    intro i found hfound declared hdeclared
    rcases TypeTable.getElem?_grow_cases hfound with hold | ⟨rfl, rfl⟩
    · exact (h.structs hold declared hdeclared).grow definition
    · exact hfields declared hdeclared

theorem Reader.DeclaredIn.resolves {fields : List Field} (h : Reader.DeclaredIn types fields)
    (hreserved : types.reserved = []) : ∀ declared ∈ fields, declared.type.Resolves types := by
  intro declared hdeclared
  cases htype : declared.type with
  | primitive _ => trivial
  | named kind name =>
    have hkind := h declared hdeclared kind name htype
    unfold TypeTable.kindOf? at hkind
    cases hfound : types.find? name with
    | none => simp [hfound, TypeTable.reservedKind?, hreserved] at hkind
    | some definition =>
      rw [hfound] at hkind
      exact ⟨definition, hfound, Option.some.inj hkind⟩

/-- The fields of a struct resolve up to the place that the struct gets. -/
theorem Reader.DeclaredIn.resolvesUpTo {type : StructDef} (hnew : type.name ∉ types.names)
    (h : Reader.DeclaredIn { types with reserved := [(type.name, .struct)] }
      (bodyFields type.body)) :
    ∀ declared ∈ bodyFields type.body,
      declared.type.ResolvesUpTo (types.grow (.struct type)) types.size := by
  intro declared hdeclared
  cases htype : declared.type with
  | primitive _ => trivial
  | named kind name =>
    have hkind := h declared hdeclared kind name htype
    unfold TypeTable.kindOf? at hkind
    cases hfound : types.find? name with
    | some definition =>
      have hsame : TypeTable.find? { types with reserved := [(type.name, .struct)] } name
          = some definition := hfound
      rw [hsame] at hkind
      have hresolves : (TypeRef.named kind name).Resolves types :=
        ⟨definition, hfound, Option.some.inj hkind⟩
      exact hresolves.upTo_size.grow _
    | none =>
      -- A name that the table does not have can only be the reserved one.
      have hsame : TypeTable.find? { types with reserved := [(type.name, .struct)] } name = none :=
        hfound
      rw [hsame] at hkind
      by_cases hself : type.name = name
      · simp only [TypeTable.reservedKind?, List.find?_cons, hself, decide_true, Option.map_some,
          Option.some.injEq] at hkind
        subst hself hkind
        exact ⟨types.size, .struct type, TypeTable.getElem?_grow_self _,
          TypeTable.find?_grow_self hnew, rfl, .inr ⟨rfl, rfl⟩⟩
      · simp [TypeTable.reservedKind?, hself] at hkind

end

/-! ### Settled drafts -/

/-- A draft between two declarations. -/
structure Draft.Settled (draft : Draft) : Prop where
  types : draft.types.Settled
  root : ∀ declared ∈ bodyFields (draft.root.getD []), declared.type.Resolves draft.types

namespace Draft

theorem Settled.grow {draft : Draft} (h : draft.Settled) {definition : Definition}
    (hnew : definition.name ∉ draft.types.names)
    (hfields : ∀ declared ∈ definition.fields,
      declared.type.ResolvesUpTo (draft.types.grow definition) draft.types.size) :
    Settled { draft with types := draft.types.grow definition } where
  types := h.types.grow hnew hfields
  root declared hdeclared := (h.root declared hdeclared).grow definition

/-- Every declaration leaves the draft settled. -/
theorem Step.settled {fs : FileSystem}
    {enter : Standing → Cursor → Draft → Except CompileError Draft} {standing : Standing}
    {draft after : Draft} {keyword : Token} {c d : Cursor}
    (henter : ∀ {standing : Standing} {c : Cursor} {draft after : Draft},
      enter standing c draft = .ok after → draft.Settled → after.Settled)
    (h : Step fs enter standing draft keyword c after d) (hdraft : draft.Settled) :
    after.Settled := by
  have hfrozen := hdraft.types.frozen
  have hreserved := hdraft.types.reserved
  cases h with
  | included _ _ _ => exact hdraft
  | entered _ _ _ run => exact henter run ⟨hdraft.types, hdraft.root⟩
  | struct _ run =>
    obtain ⟨type, hnew, rfl, hfields⟩ := Reader.structDeclaration_ok hfrozen hreserved run
    exact hdraft.grow hnew (hfields.resolvesUpTo hnew)
  | enum _ run =>
    obtain ⟨type, hnew, rfl⟩ := Reader.enumDeclaration_ok hfrozen hreserved run
    exact hdraft.grow hnew nofun
  | bitfield _ run =>
    obtain ⟨type, hnew, rfl⟩ := Reader.bitfieldDeclaration_ok hfrozen hreserved run
    exact hdraft.grow hnew nofun
  | checked _ _ _ => exact hdraft
  | root _ _ _ run => exact ⟨hdraft.types, (Reader.body_ok run).resolves hreserved⟩

theorem settled_read {fs : FileSystem} {levels : Nat} {standing : Standing} {c : Cursor}
    {draft after : Draft} (h : read fs levels standing c draft = .ok after)
    (hdraft : draft.Settled) : after.Settled :=
  read_keeps (fun henter hstep => hstep.settled henter) h hdraft

end Draft

/-! ### Compiled schemas -/

/-- The schemas that come from a source text or a source file. -/
inductive Schema.Compiled : Schema → Prop
  | text {fs : FileSystem} {text : String} {directory : Option String} {schema : Schema}
      (run : compile fs text directory = .ok schema) : Compiled schema
  | file {fs : FileSystem} {name : String} {schema : Schema}
      (run : compileFile fs name = .ok schema) : Compiled schema

/-- That every reference names an entry of a frozen table, of the kind that it says and, inside a
struct, not behind it. -/
structure Schema.ReferencesResolve (schema : Schema) : Prop where
  frozen : schema.types.frozen = true
  distinct : schema.types.names.Nodup
  root : ∀ body ∈ schema.root, ∀ declared ∈ bodyFields body, declared.type.Resolves schema.types
  structs : ∀ (i : Nat) (type : StructDef), schema.types.definitions[i]? = some (.struct type) →
    ∀ declared ∈ bodyFields type.body, declared.type.ResolvesUpTo schema.types i

theorem Draft.Settled.finish {draft : Draft} (h : draft.Settled) (source : Option String) :
    (draft.finish source).ReferencesResolve where
  frozen := rfl
  distinct := h.types.distinct
  root body hbody := by
    have hroot := h.root
    rw [show draft.root = some body from hbody] at hroot
    exact hroot
  structs i type htype := h.types.structs htype

/-- A compiled schema is what the reading of some source comes to. -/
theorem Schema.Compiled.exists_read {schema : Schema} (h : schema.Compiled) :
    ∃ (fs : FileSystem) (levels : Nat) (standing : Standing) (text : String)
      (included : List Path) (draft : Draft) (source : Option String),
      Draft.read fs levels standing (.scan text) { included } = .ok draft ∧
        schema = draft.finish source := by
  cases h with
  | text run =>
    obtain ⟨draft, hread, hpure⟩ := Except.bind_ok_iff.1 run
    cases hpure
    exact ⟨_, _, _, _, _, draft, _, hread, rfl⟩
  | file run =>
    obtain ⟨text, -, hcompile⟩ := Except.bind_ok_iff.1 run
    obtain ⟨draft, hread, hpure⟩ := Except.bind_ok_iff.1 hcompile
    cases hpure
    exact ⟨_, _, _, _, _, draft, _, Except.mapError_ok_iff.1 hread, rfl⟩

theorem Schema.Compiled.exists_settled {schema : Schema} (h : schema.Compiled) :
    ∃ (draft : Draft) (source : Option String), draft.Settled ∧ schema = draft.finish source := by
  obtain ⟨fs, levels, standing, text, included, draft, source, hread, hfinish⟩ := h.exists_read
  have hempty : Draft.Settled { included } := ⟨TypeTable.settled_empty, by simp⟩
  exact ⟨draft, source, Draft.settled_read hread hempty, hfinish⟩

/-- No reference of a compiled schema dangles, and no decode by it comes upon one that does. -/
theorem compiled_references_resolve {schema : Schema} (h : schema.Compiled) :
    schema.ReferencesResolve ∧
      ∀ (options : Options) (source : Source) (failure : Failure) (reading : Reading),
        schema.decode options source = .error failure reading → failure.isReference = false := by
  obtain ⟨draft, origin, hdraft, rfl⟩ := h.exists_settled
  have hresolve := hdraft.finish origin
  refine ⟨hresolve, ?_⟩
  intro options source failure reading hdecode
  refine Schema.decode_findsTypes hresolve.root ?_ hdecode
  intro type htype declared hdeclared
  obtain ⟨i, hi⟩ := List.mem_iff_getElem?.1 htype
  exact (hresolve.structs i type hi declared hdeclared).resolves

def FileSystem.kinds : FileSystem where
  files := [(["kinds"], "enum Kind:byte{Leaf}".toList.map fun c => UInt8.ofNat c.toNat)]

theorem compiled_references_resolve_tree :
    ∃ schema,
      Schema.compile .kinds "include kinds; struct Tree{k:Kind;t:Tree[k];} schema{t:Tree;}"
        = .ok schema ∧
      schema.types.names = ["Kind", "Tree"] ∧ schema.ReferencesResolve ∧
      ∀ (options : Options) (source : Source) (failure : Failure) (reading : Reading),
        schema.decode options source = .error failure reading → failure.isReference = false := by
  have hnames :
      (Schema.compile .kinds
        "include kinds; struct Tree{k:Kind;t:Tree[k];} schema{t:Tree;}").toOption.map
          (fun schema => schema.types.names) = some ["Kind", "Tree"] := by
    decide +kernel
  cases hrun : Schema.compile .kinds
      "include kinds; struct Tree{k:Kind;t:Tree[k];} schema{t:Tree;}" with
  | error e =>
    rw [hrun] at hnames
    cases hnames
  | ok schema =>
    rw [hrun] at hnames
    exact ⟨schema, rfl, Option.some.inj hnames, compiled_references_resolve (.text hrun)⟩

end BinarySchema
