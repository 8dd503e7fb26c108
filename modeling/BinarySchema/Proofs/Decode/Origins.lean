import BinarySchema.Proofs.Decode.Values

/-!
# What results are decoded from

The results of a decode follow the declarations. A field gives one result with its name, type and comment.
The elements of an array have the field's name with their indices behind it and no comment, a struct has
the results of its body inside it, and a bitfield those of its members with the members' comments. A block
that is passed over gives nothing, one that is entered gives what its body gives, and a loop gives that
once for each iteration, with the number of the iteration behind each name.

`Origin.Gives` says so without the bytes. Of a value only the kind is told, and nothing of its place.
-/

namespace BinarySchema

/-- A part of a schema that results are decoded from: the nodes of a body, a declared field, or a value of
a type under a name and with a comment. -/
inductive Origin where
  | body (nodes : List Node)
  | field (declared : Field)
  | value (type : TypeRef) (name : String) (comment : Option String)

/-- The results of the iterations of a loop in a row, with the number of the iteration behind each name. -/
def Scope.ofIterations (first : Nat) : List Scope → Scope
  | [] => []
  | fields :: rest =>
    fields.map (fun result => result.rename (Decoder.indexedName result.name first)) ++
      ofIterations (first + 1) rest

/-- That some results are what an origin is decoded to. -/
inductive Origin.Gives (types : TypeTable) : Origin → Scope → Prop
  | nil : Gives types (.body []) []
  | declared {declared : Field} {nodes : List Node} {result : Result} {results : Scope}
      (one : Gives types (.field declared) [result]) (rest : Gives types (.body nodes) results) :
      Gives types (.body (.field declared :: nodes)) (result :: results)
  | skipped {head : BlockHead} {body nodes : List Node} {results : Scope}
      (once : head.control.repeats = false) (rest : Gives types (.body nodes) results) :
      Gives types (.body (.block head body :: nodes)) results
  | entered {head : BlockHead} {body nodes : List Node} {fields results : Scope}
      (once : head.control.repeats = false) (inner : Gives types (.body body) fields)
      (rest : Gives types (.body nodes) results) :
      Gives types (.body (.block head body :: nodes)) (fields ++ results)
  | repeated {head : BlockHead} {body nodes : List Node} {iterations : List Scope} {results : Scope}
      (repeats : head.control.repeats = true)
      (inner : ∀ fields ∈ iterations, Gives types (.body body) fields)
      (rest : Gives types (.body nodes) results) :
      Gives types (.body (.block head body :: nodes)) (Scope.ofIterations 0 iterations ++ results)
  | single {declared : Field} {result : Result} (length : declared.length = none)
      (value : Gives types (.value declared.type declared.name declared.comment) [result]) :
      Gives types (.field declared) [result]
  | text {declared : Field} {offset size : Int} {content : String}
      (length : declared.length.isSome = true) (type : declared.type = .primitive .char) :
      Gives types (.field declared) [{
        kind := .array, name := declared.name, offset, size, typeName := declared.typeName
        value := .text content, comment := declared.comment }]
  | items {declared : Field} {items : Scope} {offset size : Int}
      (length : declared.length.isSome = true) (type : declared.type ≠ .primitive .char)
      (each : ∀ (index : Nat) (h : index < items.length),
        Gives types (.value declared.type (Decoder.indexedName declared.name index) none)
          [items[index]]) :
      Gives types (.field declared) [{
        kind := .array, name := declared.name, offset, size, typeName := declared.typeName
        value := .scope items, comment := declared.comment }]
  | primitive {type : Primitive} {name : String} {comment : Option String} {offset size : Int}
      {value : Datum} (simple : value.isSimple = true) :
      Gives types (.value (.primitive type) name comment) [{
        kind := .primitive, name, offset, size, typeName := type.keyword, value, comment
        raw := Decoder.rawSeconds value }]
  | struct {typeName name : String} {comment : Option String} {offset size : Int} {type : StructDef}
      {fields : Scope} (found : types.find? typeName = some (.struct type))
      (inner : Gives types (.body type.body) fields) :
      Gives types (.value (.named .struct typeName) name comment) [{
        kind := .struct, name, offset, size, typeName := type.name, value := .scope fields, comment }]
  | enum {typeName name : String} {comment : Option String} {offset size raw : Int} {type : EnumDef}
      (found : types.find? typeName = some (.enum type)) :
      Gives types (.value (.named .enum typeName) name comment) [{
        kind := .enum, name, offset, size, typeName := type.name
        value := Decoder.memberValue type raw, comment, raw := raw }]
  | bitfield {typeName name : String} {comment : Option String} {offset size : Nat} {raw : Int}
      {type : BitfieldDef} (found : types.find? typeName = some (.bitfield type)) :
      Gives types (.value (.named .bitfield typeName) name comment) [{
        kind := .bitfield, name, offset, size, typeName := type.name
        value := .scope (Decoder.memberResults type.base offset size type.members raw), comment
        raw := raw }]

namespace Decoder

open Origin (Gives)

variable {context : DecodeContext} {enter : List Node → Decoder Scope} {r s : Reading}

/-- That bodies of structs are decoded to what they give. -/
def EntersGiven (context : DecodeContext) (enter : List Node → Decoder Scope) : Prop :=
  ∀ body r fields s, enter body r = .ok fields s → Gives context.types (.body body) fields

theorem value_gives (henter : EntersGiven context enter) {type : TypeRef} {name : String}
    {comment : Option String} {result : Result}
    (h : value context enter type name comment r = .ok result s) :
    Gives context.types (.value type name comment) [result] := by
  cases value_ok h with
  | @primitive type value size s run =>
    obtain ⟨bytes, hvalue, -⟩ := primitive_ok run
    exact .primitive (Primitive.isSimple_ofBytes hvalue)
  | struct found run => exact .struct found (henter _ _ _ _ run)
  | enum found run =>
    obtain ⟨raw, size, t, -, -, rfl⟩ := enum_ok run
    exact .enum found
  | bitfield found run =>
    obtain ⟨raw, size, -, rfl⟩ := bitfield_ok run
    exact .bitfield found

theorem elements_getElem {element : String → Decoder Result} {p : String → Result → Prop}
    (helement : ∀ name r result s, element name r = .ok result s → p name result) {name : String}
    {count index : Nat} {done items : List Result}
    (h : elements element name count index done r = .ok items s) :
    ∃ added, items = done.reverse ++ added ∧
      ∀ (i : Nat) (hi : i < added.length), p (indexedName name (index + i)) added[i] := by
  induction count generalizing index done r with
  | zero =>
    obtain ⟨rfl, rfl⟩ := pure_ok_iff.1 h
    exact ⟨[], by simp, nofun⟩
  | succ count ih =>
    obtain ⟨result, t, hrun, hrest⟩ := bind_ok_iff.1 h
    obtain ⟨added, rfl, hadded⟩ := ih hrest
    refine ⟨result :: added, by simp, fun i hi => ?_⟩
    cases i with
    | zero => exact helement _ _ _ _ hrun
    | succ i =>
      have hrest := hadded i (Nat.lt_of_succ_lt_succ hi)
      rwa [Nat.add_right_comm, Nat.add_assoc] at hrest

theorem field_gives (henter : EntersGiven context enter) {declared : Field} {scopes : List Scope}
    {result : Result} (h : field context enter declared scopes r = .ok result s) :
    Gives context.types (.field declared) [result] := by
  unfold field at h
  cases hlength : declared.length with
  | none =>
    rw [hlength] at h
    exact .single hlength (value_gives henter h)
  | some length =>
    rw [hlength] at h
    have hsome : declared.length.isSome = true := by rw [hlength]; rfl
    cases array_ok h with
    | text type _ _ => exact .text hsome type
    | items type _ run =>
      obtain ⟨added, rfl, hadded⟩ := elements_getElem
        (p := fun name result => Gives context.types (.value declared.type name none) [result])
        (fun _ _ _ _ hrun => value_gives henter hrun) run
      refine .items hsome type fun index hindex => ?_
      have hone := hadded index hindex
      rwa [Nat.zero_add] at hone

theorem loop_gives {head : BlockHead} {body : List Scope → Decoder Scope} {p : Scope → Prop}
    (hbody : ∀ scopes r fields s, body scopes r = .ok fields s → p fields) {outer : List Scope}
    {steps iteration : Nat} {visible : List Scope} {scope result : Scope}
    (h : loop context head body outer steps iteration visible scope r = .ok result s) :
    ∃ iterations, result = scope ++ Scope.ofIterations iteration iterations ∧
      ∀ fields ∈ iterations, p fields := by
  induction steps generalizing iteration visible scope r with
  | zero =>
    unfold loop at h
    rw [position_bind] at h
    simp at h
  | succ steps ih =>
    cases loop_ok h with
    | done _ => exact ⟨[], by simp [Scope.ofIterations], List.forall_mem_nil _⟩
    | @again fields _ _ _ _ run _ rest =>
      obtain ⟨iterations, rfl, hiterations⟩ := ih rest
      refine ⟨fields :: iterations, List.append_assoc .., ?_⟩
      exact List.forall_mem_cons.2 ⟨hbody _ _ _ _ run, hiterations⟩

mutual

theorem nodes_gives (henter : EntersGiven context enter) :
    ∀ (body : List Node) {outer : List Scope} {scope result : Scope} {r s : Reading},
      nodes context enter body outer scope r = .ok result s →
        ∃ added, result = scope ++ added ∧ Gives context.types (.body body) added
  | [], _, _, _, _, _, h => by
    obtain ⟨rfl, rfl⟩ := pure_ok_iff.1 h
    exact ⟨[], by simp, .nil⟩
  | head :: rest, _, _, _, _, _, h => by
    obtain ⟨between, t, hhead, hrest⟩ := bind_ok_iff.1 h
    obtain ⟨left, rfl, hleft⟩ := node_gives henter head hhead
    obtain ⟨right, rfl, hright⟩ := nodes_gives henter rest hrest
    exact ⟨left ++ right, List.append_assoc .., hleft rest right hright⟩
termination_by structural body => body

theorem node_gives (henter : EntersGiven context enter) :
    ∀ (tree : Node) {outer : List Scope} {scope result : Scope} {r s : Reading},
      node context enter tree outer scope r = .ok result s →
        ∃ added, result = scope ++ added ∧ ∀ rest results, Gives context.types (.body rest) results →
          Gives context.types (.body (tree :: rest)) (added ++ results)
  | .field declared, _, _, _, _, _, h => by
    cases node_ok h with
    | field run => exact ⟨_, rfl, fun _ _ hrest => .declared (field_gives henter run) hrest⟩
  | .block head body, _, _, _, _, _, h => by
    have hbody (scopes : List Scope) (r : Reading) (fields : Scope) (s : Reading)
        (hrun : nodes context enter body scopes [] r = .ok fields s) :
        Gives context.types (.body body) fields := by
      obtain ⟨added, rfl, hadded⟩ := nodes_gives henter body hrun
      exact hadded
    cases node_ok h with
    | repeated repeats run =>
      obtain ⟨iterations, rfl, hiterations⟩ := loop_gives hbody run
      exact ⟨_, rfl, fun _ _ hrest => .repeated repeats hiterations hrest⟩
    | skipped once _ => exact ⟨[], by simp, fun _ _ hrest => .skipped once hrest⟩
    | spliced once _ run =>
      exact ⟨_, rfl, fun _ _ hrest => .entered once (hbody _ _ _ _ run) hrest⟩
termination_by structural tree => tree

end

theorem structBody_gives (context : DecodeContext) (levels : Nat) :
    EntersGiven context (structBody context levels) := by
  induction levels with
  | zero =>
    intro body r fields s h
    cases h
  | succ levels ih =>
    intro body r fields s h
    obtain ⟨added, rfl, hadded⟩ := nodes_gives ih body h
    exact hadded

end Decoder

/-- The results of a decode are what the root of the schema gives. -/
theorem Schema.decode_gives {schema : Schema} {options : Options} {source : Source}
    {decoded : Decoded} {reading : Reading}
    (h : schema.decode options source = .ok decoded reading) :
    ∃ body, schema.root = some body ∧ Origin.Gives schema.types (.body body) decoded.fields := by
  cases hroot : schema.root with
  | none =>
    rw [decode, hroot] at h
    cases h
  | some body =>
    have hrun := ((decode_ok_iff hroot).1 h).1
    obtain ⟨added, hfields, hadded⟩ := Decoder.nodes_gives (Decoder.structBody_gives _ _) body hrun
    rw [List.nil_append] at hfields
    exact ⟨body, rfl, hfields ▸ hadded⟩

end BinarySchema
