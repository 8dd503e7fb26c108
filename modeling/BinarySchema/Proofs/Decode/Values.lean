import BinarySchema.Proofs.Decode.Names
import BinarySchema.Proofs.Decode.Sequence

/-!
# Decoded values

The values of results are simple ones, and scopes of further results in which no name occurs twice. The
names of a body are distinct because each is checked when it joins its scope, those of the members of a
bitfield likewise; the elements of an array are told apart by their numbers.
-/

namespace BinarySchema

/-- Whether a value is of a kind that a primitive, an enum or a text can have. -/
def Datum.isSimple : Datum → Bool
  | .null | .bool _ | .int _ | .double _ | .text _ | .address _ | .time _ => true
  | _ => false

/-- That a value can be one of a decoded result. -/
inductive Datum.Produced : Datum → Prop
  | simple {value : Datum} (simple : value.isSimple = true) : Produced value
  | scope {fields : Scope} (distinct : (Scope.names fields).Nodup)
      (inside : ∀ field ∈ fields, Produced field.value) : Produced (.scope fields)

theorem Primitive.isSimple_ofBytes {type : Primitive} {options : Options} {bytes : List UInt8}
    {value : Datum} (h : type.ofBytes options bytes = .ok value) : value.isSimple = true := by
  cases type with
  | char | string =>
    obtain ⟨text, -, rfl⟩ := Except.map_ok_iff.1 h
    rfl
  | _ => rw [← Except.ok.inj h]; rfl

namespace Decoder

open Scope (Joins)

variable {context : DecodeContext} {enter : List Node → Decoder Scope} {r s : Reading}

theorem memberValue_isSimple (type : EnumDef) (raw : Int) : (memberValue type raw).isSimple = true := by
  unfold memberValue
  split <;> rfl

theorem bitfieldMembers_joins {base : Primitive} {offset size : Nat}
    {members : List BitfieldMember} {bits : Int} {scope added : Scope} (hscope : Joins [] scope)
    (h : bitfieldMembers base offset size members bits scope r = .ok added s) : Joins [] added := by
  induction members generalizing bits scope r with
  | nil =>
    obtain ⟨rfl, rfl⟩ := pure_ok_iff.1 h
    exact hscope
  | cons member rest ih =>
    unfold bitfieldMembers at h
    by_cases hwide : widestMember < member.width
    · simp [hwide, bind_ok_iff] at h
    by_cases hlarge : memoryBits < member.width
    · simp [hwide, hlarge, bind_ok_iff] at h
    rw [if_neg hwide, if_neg hlarge] at h
    obtain ⟨between, t, hadd, hrest⟩ := bind_ok_iff.1 h
    obtain ⟨hname, rfl, rfl⟩ := add_ok_iff.1 hadd
    exact ih (hscope.append_singleton_iff.2 hname) hrest

theorem bitfield_produced {type : BitfieldDef} {name : String} {comment : Option String}
    {result : Result} (h : bitfield context type name comment r = .ok result s) :
    result.value.Produced := by
  unfold bitfield at h
  rw [position_bind] at h
  obtain ⟨⟨raw, size⟩, t, hread, hrest⟩ := bind_ok_iff.1 h
  obtain ⟨members, u, hmembers, hpure⟩ := bind_ok_iff.1 hrest
  obtain ⟨rfl, rfl⟩ := pure_ok_iff.1 hpure
  refine .scope (bitfieldMembers_joins (Joins.nil []) hmembers).1 ?_
  obtain ⟨rfl, rfl⟩ := bitfieldMembers_ok hmembers
  exact memberResults_forall _ _ _ _ (fun _ _ _ => .simple rfl) _

/-- That the bodies of structs are decoded to values of results. -/
def EntersProduced (enter : List Node → Decoder Scope) : Prop :=
  ∀ body r fields s, enter body r = .ok fields s → (Datum.scope fields).Produced

section

variable (henter : EntersProduced enter)

include henter

theorem value_produced {type : TypeRef} {name : String} {comment : Option String} {result : Result}
    (h : value context enter type name comment r = .ok result s) : result.value.Produced := by
  cases value_ok h with
  | primitive run =>
    obtain ⟨bytes, hvalue, -⟩ := primitive_ok run
    exact .simple (Primitive.isSimple_ofBytes hvalue)
  | struct _ run => exact henter _ _ _ _ run
  | enum _ run =>
    obtain ⟨raw, size, t, -, -, rfl⟩ := enum_ok run
    exact .simple (memberValue_isSimple ..)
  | bitfield _ run => exact bitfield_produced run

omit henter in
theorem elements_produced {element : String → Decoder Result}
    (helement : ∀ name r result s, element name r = .ok result s → result.value.Produced)
    {name : String} {count index : Nat} {done items : List Result}
    (hdone : ∀ item ∈ done, item.value.Produced)
    (h : elements element name count index done r = .ok items s) :
    ∀ item ∈ items, item.value.Produced := by
  induction count generalizing index done r with
  | zero =>
    obtain ⟨rfl, rfl⟩ := pure_ok_iff.1 h
    simpa using hdone
  | succ count ih =>
    obtain ⟨result, t, hrun, hrest⟩ := bind_ok_iff.1 h
    exact ih (List.forall_mem_cons.2 ⟨helement _ _ _ _ hrun, hdone⟩) hrest

theorem field_produced {declared : Field} {scopes : List Scope} {result : Result}
    (h : field context enter declared scopes r = .ok result s) : result.value.Produced := by
  unfold field at h
  cases hlength : declared.length with
  | none =>
    rw [hlength] at h
    exact value_produced henter h
  | some length =>
    rw [hlength] at h
    cases array_ok h with
    | text _ _ _ => exact .simple rfl
    | items _ _ run =>
      refine .scope (elements_distinct (fun _ _ _ _ hrun => value_name hrun) run) ?_
      exact elements_produced (fun _ _ _ _ hrun => value_produced henter hrun) (by simp) run

omit henter in
theorem loop_produced {head : BlockHead} {body : List Scope → Decoder Scope} {outer : List Scope}
    (hbody : ∀ scopes r fields s, body scopes r = .ok fields s →
      ∀ field ∈ fields, field.value.Produced)
    {steps iteration : Nat} {visible : List Scope} {scope result : Scope}
    (hscope : ∀ field ∈ scope, field.value.Produced)
    (h : loop context head body outer steps iteration visible scope r = .ok result s) :
    ∀ field ∈ result, field.value.Produced := by
  induction steps generalizing iteration visible scope r with
  | zero =>
    unfold loop at h
    rw [position_bind] at h
    simp at h
  | succ steps ih =>
    cases loop_ok h with
    | done _ => exact hscope
    | again _ run _ rest =>
      refine ih (List.forall_mem_append.2 ⟨hscope, ?_⟩) rest
      exact List.forall_mem_map.2 (hbody _ _ _ _ run)

end

mutual

theorem nodes_produced (henter : EntersProduced enter) :
    ∀ (body : List Node) {outer : List Scope} {scope result : Scope} {r s : Reading},
      (∀ field ∈ scope, field.value.Produced) →
        nodes context enter body outer scope r = .ok result s →
          ∀ field ∈ result, field.value.Produced
  | [], _, _, _, _, _, hscope, h => by
    obtain ⟨rfl, rfl⟩ := pure_ok_iff.1 h
    exact hscope
  | head :: rest, _, _, _, _, _, hscope, h => by
    obtain ⟨between, t, hhead, hrest⟩ := bind_ok_iff.1 h
    exact nodes_produced henter rest (node_produced henter head hscope hhead) hrest
termination_by structural body => body

theorem node_produced (henter : EntersProduced enter) :
    ∀ (tree : Node) {outer : List Scope} {scope result : Scope} {r s : Reading},
      (∀ field ∈ scope, field.value.Produced) →
        node context enter tree outer scope r = .ok result s →
          ∀ field ∈ result, field.value.Produced
  | .field declared, _, _, _, _, _, hscope, h => by
    cases node_ok h with
    | field run =>
      exact List.forall_mem_append.2
        ⟨hscope, List.forall_mem_singleton.2 (field_produced henter run)⟩
  | .block head body, _, _, _, _, _, hscope, h => by
    have hbody (scopes : List Scope) (r : Reading) (fields : Scope) (s : Reading)
        (hrun : nodes context enter body scopes [] r = .ok fields s) :
        ∀ field ∈ fields, field.value.Produced :=
      nodes_produced henter body (by simp) hrun
    cases node_ok h with
    | repeated _ run => exact loop_produced hbody hscope run
    | skipped _ _ => exact hscope
    | spliced _ _ run => exact List.forall_mem_append.2 ⟨hscope, hbody _ _ _ _ run⟩
termination_by structural tree => tree

end

theorem body_produced (henter : EntersProduced enter) {body : List Node} {outer : List Scope}
    {fields : Scope} (h : nodes context enter body outer [] r = .ok fields s) :
    (Datum.scope fields).Produced :=
  .scope (nodes_distinct h) (nodes_produced henter body (by simp) h)

theorem structBody_produced (context : DecodeContext) (levels : Nat) :
    EntersProduced (structBody context levels) := by
  induction levels with
  | zero =>
    intro body r fields s h
    cases h
  | succ levels ih =>
    intro body r fields s h
    exact body_produced ih h

end Decoder

theorem Schema.decode_produced {schema : Schema} {options : Options} {source : Source}
    {decoded : Decoded} {reading : Reading}
    (h : schema.decode options source = .ok decoded reading) :
    (Datum.scope decoded.fields).Produced := by
  cases hroot : schema.root with
  | none =>
    rw [decode, hroot] at h
    cases h
  | some body =>
    have hrun := ((decode_ok_iff hroot).1 h).1
    exact Decoder.body_produced (Decoder.structBody_produced _ _) hrun

theorem Schema.decodeBytes_produced {schema : Schema} {options : Options} {bytes : List UInt8}
    {decoded : Decoded} (h : schema.decodeBytes options bytes = .ok decoded) :
    (Datum.scope decoded.fields).Produced := by
  unfold decodeBytes at h
  split at h
  · rename_i result reading hrun
    obtain rfl := Except.ok.inj h
    exact decode_produced hrun
  · cases h

end BinarySchema
