import BinarySchema.Proofs.Decode.Step
import BinarySchema.Proofs.Definition.Table

/-!
# What a decode adds to its scope

Decoding a body only appends results to the scope around it. A relation between the reading before
some results, these results and the reading after them holds of every decode as soon as it holds of
the single values and composes: this module is the one induction over bodies, loops and structs
within structs that says so.
-/

namespace BinarySchema

/-- A relation of readings and the results between them that holds of single values and of texts,
composes, does not see names, and passes from results to a struct or an array around them. -/
structure Accumulates (context : DecodeContext) (admits : TypeRef → Prop)
    (adds : Reading → List Result → Reading → Prop) : Prop where
  bodies {type : StructDef} : .struct type ∈ context.types.definitions →
    ∀ declared ∈ bodyFields type.body, admits declared.type
  nil (r : Reading) : adds r [] r
  append {r s t : Reading} {left right : List Result} :
    adds r left s → adds s right t → adds r (left ++ right) t
  rename {r s : Reading} {results : List Result} (name : Result → String) :
    adds r results s → adds r (results.map fun result => result.rename (name result)) s
  primitive {type : Primitive} {name : String} {comment : Option String} {value : Datum}
    {size : Nat} {r s : Reading} :
    admits (.primitive type) → Decoder.primitive context type name r = .ok (value, size) s →
      adds r [{ kind := .primitive, name, offset := r.source.position, size
                typeName := type.keyword, value, comment, raw := Decoder.rawSeconds value }] s
  enum {type : EnumDef} {name : String} {comment : Option String} {result : Result}
    {r s : Reading} :
    context.types.find? type.name = some (.enum type) →
      Decoder.enum context type name comment r = .ok result s → adds r [result] s
  bitfield {type : BitfieldDef} {name : String} {comment : Option String} {result : Result}
    {r s : Reading} :
    context.types.find? type.name = some (.bitfield type) →
      Decoder.bitfield context type name comment r = .ok result s → adds r [result] s
  struct {type : StructDef} {name : String} {comment : Option String} {fields : Scope}
    {r s : Reading} :
    adds r fields s →
      adds r [{ kind := .struct, name, offset := r.source.position
                size := Scope.totalSize fields, typeName := type.name, value := .scope fields
                comment }] s
  text {declared : Field} {count : Nat} {bytes : List UInt8} {text : String} {r s : Reading} :
    Decoder.read count declared.name r = .ok bytes s →
      context.options.textEncoding.read bytes = .ok text →
      adds r [{ kind := .array, name := declared.name, offset := r.source.position, size := count
                typeName := declared.typeName
                value := .text text, comment := declared.comment }] s
  items {declared : Field} {items : Scope} {r s : Reading} :
    adds r items s →
      adds r [{ kind := .array, name := declared.name, offset := r.source.position
                size := Scope.totalSize items, typeName := declared.typeName
                value := .scope items, comment := declared.comment }] s

namespace Accumulates

open Decoder

variable {context : DecodeContext} {admits : TypeRef → Prop}
  {adds : Reading → List Result → Reading → Prop} {enter : List Node → Decoder Scope}
  {r s : Reading}

/-- That the bodies of declared structs are decoded with results that the relation holds of. -/
def Enters (context : DecodeContext) (adds : Reading → List Result → Reading → Prop)
    (enter : List Node → Decoder Scope) : Prop :=
  ∀ type : StructDef, .struct type ∈ context.types.definitions →
    ∀ r fields s, enter type.body r = .ok fields s → adds r fields s

theorem value (h : Accumulates context admits adds) (henter : Enters context adds enter)
    {type : TypeRef} (htype : admits type) {name : String} {comment : Option String}
    {result : Result} (hrun : Decoder.value context enter type name comment r = .ok result s) :
    adds r [result] s := by
  cases value_ok hrun with
  | primitive run => exact h.primitive htype run
  | struct found run =>
    exact h.struct (henter _ (TypeTable.mem_of_find? found) _ _ _ run)
  | enum found run => exact h.enum (TypeTable.find?_name found) run
  | bitfield found run => exact h.bitfield (TypeTable.find?_name found) run

theorem elements (h : Accumulates context admits adds) {element : String → Decoder Result}
    (helement : ∀ name r result s, element name r = .ok result s → adds r [result] s)
    {name : String} {count index : Nat} {done items : List Result}
    (hrun : Decoder.elements element name count index done r = .ok items s) :
    ∃ added, items = done.reverse ++ added ∧ adds r added s := by
  induction count generalizing index done r with
  | zero =>
    obtain ⟨rfl, rfl⟩ := pure_ok_iff.1 hrun
    exact ⟨[], by simp, h.nil _⟩
  | succ count ih =>
    unfold Decoder.elements at hrun
    obtain ⟨result, t, hhead, htail⟩ := bind_ok_iff.1 hrun
    obtain ⟨added, rfl, hadded⟩ := ih htail
    exact ⟨result :: added, by simp, h.append (helement _ _ _ _ hhead) hadded⟩

theorem field (h : Accumulates context admits adds) (henter : Enters context adds enter)
    {declared : Field} (htype : admits declared.type) {scopes : List Scope} {result : Result}
    (hrun : Decoder.field context enter declared scopes r = .ok result s) :
    adds r [result] s := by
  unfold Decoder.field at hrun
  cases hlength : declared.length with
  | none =>
    simp only [hlength] at hrun
    exact h.value henter htype hrun
  | some length =>
    simp only [hlength] at hrun
    cases array_ok hrun with
    | text _ _ run coded => exact h.text run coded
    | items _ _ run =>
      obtain ⟨added, rfl, hadded⟩ := h.elements (fun _ _ _ _ => h.value henter htype) run
      exact h.items hadded

theorem loop (h : Accumulates context admits adds) {head : BlockHead}
    {body : List Scope → Decoder Scope} {outer : List Scope}
    (hbody : ∀ scopes r fields s, body scopes r = .ok fields s → adds r fields s)
    {steps iteration : Nat} {visible : List Scope} {scope result : Scope}
    (hrun : Decoder.loop context head body outer steps iteration visible scope r
      = .ok result s) :
    ∃ added, result = scope ++ added ∧ adds r added s := by
  induction steps generalizing iteration visible scope r with
  | zero =>
    unfold Decoder.loop at hrun
    rw [position_bind] at hrun
    simp at hrun
  | succ steps ih =>
    cases loop_ok hrun with
    | done _ => exact ⟨[], by simp, h.nil _⟩
    | again _ run _ rest =>
      -- An iteration is renamed before it joins the scope, so `rename` comes before `append`.
      obtain ⟨added, rfl, hadded⟩ := ih rest
      exact ⟨_, List.append_assoc .., h.append (h.rename _ (hbody _ _ _ _ run)) hadded⟩

mutual

theorem nodes (h : Accumulates context admits adds) (henter : Enters context adds enter) :
    ∀ (body : List Node), (∀ declared ∈ bodyFields body, admits declared.type) →
      ∀ {outer : List Scope} {scope result : Scope} {r s : Reading},
        Decoder.nodes context enter body outer scope r = .ok result s →
          ∃ added, result = scope ++ added ∧ adds r added s
  | [], _, _, _, _, r, _, hrun => by
    obtain ⟨rfl, rfl⟩ := pure_ok_iff.1 hrun
    exact ⟨[], by simp, h.nil _⟩
  | head :: rest, hadmits, _, _, _, _, _, hrun => by
    simp only [bodyFields_cons, List.mem_append] at hadmits
    obtain ⟨between, t, hhead, hrest⟩ := bind_ok_iff.1 hrun
    -- What the head adds stands in front of what the rest adds, also if the head is a block.
    obtain ⟨left, rfl, hleft⟩ := h.node henter head (fun f hf => hadmits f (.inl hf)) hhead
    obtain ⟨right, rfl, hright⟩ := h.nodes henter rest (fun f hf => hadmits f (.inr hf)) hrest
    exact ⟨left ++ right, List.append_assoc .., h.append hleft hright⟩
termination_by structural body => body

theorem node (h : Accumulates context admits adds) (henter : Enters context adds enter) :
    ∀ (node : Node), (∀ declared ∈ node.fields, admits declared.type) →
      ∀ {outer : List Scope} {scope result : Scope} {r s : Reading},
        Decoder.node context enter node outer scope r = .ok result s →
          ∃ added, result = scope ++ added ∧ adds r added s
  | .field declared, hadmits, _, _, _, _, _, hrun => by
    cases node_ok hrun with
    | field run => exact ⟨_, rfl, h.field henter (hadmits declared (by simp)) run⟩
  | .block head body, hadmits, _, _, _, r, _, hrun => by
    have hbody (scopes : List Scope) (r : Reading) (fields : Scope) (s : Reading)
        (hfields : Decoder.nodes context enter body scopes [] r = .ok fields s) :
        adds r fields s := by
      obtain ⟨added, rfl, hadded⟩ := h.nodes henter body hadmits hfields
      exact hadded
    cases node_ok hrun with
    | repeated _ run => exact h.loop hbody run
    | skipped _ _ => exact ⟨[], by simp, h.nil _⟩
    | spliced _ _ run => exact ⟨_, rfl, hbody _ _ _ _ run⟩
termination_by structural node => node

end

/-- The bodies of structs are decoded with results that the relation holds of, at every depth. -/
theorem structBody (h : Accumulates context admits adds) (levels : Nat) :
    Enters context adds (Decoder.structBody context levels) := by
  -- A body enters structs one level below its own, and there are no levels below the last.
  induction levels with
  | zero =>
    intro type _ r fields s hrun
    simp [Decoder.structBody] at hrun
  | succ levels ih =>
    intro type hdeclared r fields s hrun
    obtain ⟨added, rfl, hadded⟩ := h.nodes ih type.body (h.bodies hdeclared) hrun
    exact hadded

/-- The relation holds of a whole decode. -/
theorem decode {schema : Schema} {options : Options} {body : List Node}
    (h : Accumulates ⟨schema.types, options⟩ admits adds) (hroot : schema.root = some body)
    (hadmits : ∀ declared ∈ bodyFields body, admits declared.type) {source : Source}
    {decoded : Decoded} {reading : Reading}
    (hrun : schema.decode options source = .ok decoded reading) :
    adds ⟨source, []⟩ decoded.fields reading ∧
      decoded.consumed = reading.source.position - source.position ∧
      decoded.warnings = reading.warnings := by
  unfold Schema.decode at hrun
  rw [hroot] at hrun
  dsimp only at hrun
  split at hrun
  · rename_i fields after hnodes
    cases hrun
    obtain ⟨added, rfl, hadded⟩ := h.nodes (h.structBody _) body hadmits hnodes
    exact ⟨hadded, rfl, rfl⟩
  · cases hrun

end Accumulates

/-! ### Moving forward -/

namespace Decoder

variable {context : DecodeContext} {r s : Reading}

theorem primitive_consumes {type : Primitive} {name : String} {value : Datum} {size : Nat}
    (h : primitive context type name r = .ok (value, size) s) :
    ∃ bytes, r.source.Consumes bytes s.source := by
  obtain ⟨bytes, -, -, -, hconsumes, -⟩ := primitive_ok h
  exact ⟨_, hconsumes⟩

/-- Every run takes bytes from the source and leaves the rest as it is. -/
theorem consumes_accumulates (context : DecodeContext) :
    Accumulates context (fun _ => True)
      fun before _ after => ∃ bytes, before.source.Consumes bytes after.source where
  bodies _ _ _ := trivial
  nil r := ⟨[], .refl r.source⟩
  append := fun ⟨_, hleft⟩ ⟨_, hright⟩ => ⟨_, hleft.trans hright⟩
  rename _ h := h
  primitive _ hread := primitive_consumes hread
  enum _ hrun := by
    obtain ⟨raw, size, t, hread, hsource, -⟩ := enum_ok hrun
    obtain ⟨value, hprimitive, -⟩ := baseInteger_ok hread
    rw [hsource]
    exact primitive_consumes hprimitive
  bitfield _ hrun := by
    obtain ⟨raw, size, hread, -⟩ := bitfield_ok hrun
    obtain ⟨value, hprimitive, -⟩ := baseInteger_ok hread
    exact primitive_consumes hprimitive
  struct h := h
  text hread _ := ⟨_, (read_ok hread).2.1⟩
  items h := h

end Decoder

/-- A decode takes as many bytes from its source as it says, from the head of the unread ones. -/
theorem Schema.decode_consumes {schema : Schema} {options : Options} {source : Source}
    {decoded : Decoded} {reading : Reading}
    (h : schema.decode options source = .ok decoded reading) :
    source.Consumes (source.rest.take decoded.consumed) reading.source ∧
      reading.source.position = source.position + decoded.consumed := by
  cases hroot : schema.root with
  | none => simp [Schema.decode, hroot] at h
  | some body =>
    obtain ⟨⟨bytes, hconsumes⟩, hconsumed, -⟩ :=
      (Decoder.consumes_accumulates _).decode hroot (fun _ _ => trivial) h
    have hlength : decoded.consumed = bytes.length := hconsumed.trans hconsumes.length
    rw [hlength, hconsumes.take]
    exact ⟨hconsumes, hconsumes.position⟩

/-- The number of bytes that a decode consumes, if it comes to a result. -/
def Schema.consumed? (schema : Schema) (options : Options) (source : Source) : Option Nat :=
  match schema.decode options source with
  | .ok decoded _ => some decoded.consumed
  | .error _ _ => none

theorem Schema.decode_of_consumed? {schema : Schema} {options : Options} {source : Source}
    {count : Nat} (h : schema.consumed? options source = some count) :
    ∃ decoded reading, schema.decode options source = .ok decoded reading ∧
      decoded.consumed = count := by
  unfold consumed? at h
  cases hrun : schema.decode options source with
  | ok decoded reading =>
    rw [hrun] at h
    exact ⟨decoded, reading, rfl, Option.some.inj h⟩
  | error failure reading =>
    rw [hrun] at h
    cases h

end BinarySchema
