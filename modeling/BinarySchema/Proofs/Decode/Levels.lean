import BinarySchema.Proofs.Decode.Loop

/-!
# Levels of structs within structs

How a decode depends on the decoder that it enters structs with. Two such decoders that agree on the
structs that are entered lead to the same decodes, and they only have to agree where no more is unread
than at the beginning, since a decode moves forward.

In the body of a struct, fields in front of its first anchor must not enter the struct itself: an anchor
is a single value whose bytes are there for any input that can be decoded at all. Behind an anchor less
is unread, so there the two decoders only have to agree on shorter inputs.
-/

namespace BinarySchema

/-- Whether a member of a body is a single value of one or more bytes. -/
def Node.IsAnchor : Node → Prop
  | .field declared =>
    declared.length = none ∧ declared.type.kind ∈ [FieldKind.primitive, .enum, .bitfield]
  | .block _ _ => False

theorem Primitive.size_pos (type : Primitive) (h : type ≠ .string) : 0 < type.size := by
  cases type with
  | string => exact absurd rfl h
  | _ => decide

namespace Decoder

variable {context : DecodeContext} {enter other : List Node → Decoder Scope} {bound : Nat}
  {r s : Reading}

/-- That what stands between two readings was taken from the source. -/
def MovesForward (before : Reading) (_ : List Result) (after : Reading) : Prop :=
  ∃ bytes, before.source.Consumes bytes after.source

/-! ### Anchors -/

theorem primitive_unread_lt {type : Primitive} {name : String} {value : Datum} {size : Nat}
    (h : primitive context type name r = .ok (value, size) s) :
    s.source.unread < r.source.unread := by
  obtain ⟨bytes, -, -, hsize, hconsumes, -⟩ := primitive_ok h
  have htaken : 0 < (bytes ++ type.terminator).length := by
    rw [List.length_append]
    by_cases hstring : type = .string
    · subst hstring
      exact Nat.succ_pos _
    · rw [hsize hstring]
      exact Nat.add_pos_left (type.size_pos hstring) _
  rw [hconsumes.unread]
  omega

theorem baseInteger_unread_lt {base : Primitive} {name : String} {raw : Int} {size : Nat}
    (h : baseInteger context base name r = .ok (raw, size) s) :
    s.source.unread < r.source.unread := by
  obtain ⟨value, hread, -⟩ := baseInteger_ok h
  exact primitive_unread_lt hread

theorem anchor_unread_lt {node : Node} (h : node.IsAnchor) {outer : List Scope}
    {scope result : Scope} (hrun : Decoder.node context enter node outer scope r = .ok result s) :
    s.source.unread < r.source.unread := by
  cases node with
  | block head body => exact h.elim
  | field declared =>
    obtain ⟨hlength, hkind⟩ := h
    cases node_ok hrun with
    | field run =>
      unfold Decoder.field at run
      rw [hlength] at run
      generalize declared.type = type at hkind run
      cases value_ok run with
      | primitive run => exact primitive_unread_lt run
      | struct _ _ => simp [TypeRef.kind] at hkind
      | enum _ run =>
        obtain ⟨raw, size, t, hread, hsource, -⟩ := enum_ok run
        rw [hsource]
        exact baseInteger_unread_lt hread
      | bitfield _ run =>
        obtain ⟨raw, size, hread, -⟩ := bitfield_ok run
        exact baseInteger_unread_lt hread

/-! ### Agreement -/

/-- That two decoders agree on the body of the struct that a type names, if it names one, wherever no
more than some number of bytes is unread. -/
def AgreeOn (context : DecodeContext) (enter other : List Node → Decoder Scope) (bound : Nat)
    (type : TypeRef) : Prop :=
  ∀ name, type = .named .struct name → ∀ struct : StructDef,
    context.types.find? name = some (.struct struct) →
      ∀ r, r.source.unread ≤ bound → enter struct.body r = other struct.body r

theorem value_agree {type : TypeRef} (h : AgreeOn context enter other bound type)
    (hr : r.source.unread ≤ bound) (name : String) (comment : Option String) :
    value context enter type name comment r = value context other type name comment r := by
  unfold value
  rw [position_bind, position_bind]
  cases type with
  | primitive type => rfl
  | named kind typeName =>
    cases kind with
    | struct =>
      dsimp only
      cases hfound : context.types.find? typeName with
      | none => rfl
      | some definition =>
        cases definition with
        | struct type => exact bind_congr_at (h _ rfl type hfound r hr) fun _ _ _ => rfl
        | enum _ => rfl
        | bitfield _ => rfl
    | _ => rfl

theorem elements_agree {element another : String → Decoder Result}
    (hforward : ∀ name r result s, element name r = .ok result s →
      s.source.unread ≤ r.source.unread)
    (h : ∀ name r, r.source.unread ≤ bound → element name r = another name r) (name : String)
    (count index : Nat) (done : List Result) (hr : r.source.unread ≤ bound) :
    elements element name count index done r = elements another name count index done r := by
  induction count generalizing index done r with
  | zero => rfl
  | succ count ih =>
    refine bind_congr_at (h _ r hr) fun result s hrun => ih _ _ ?_
    exact Nat.le_trans (hforward _ _ _ _ hrun) hr

section

variable (henter : Accumulates.Enters context MovesForward enter)

include henter

theorem node_unread_le {tree : Node} {outer : List Scope} {scope result : Scope}
    (hrun : node context enter tree outer scope r = .ok result s) :
    s.source.unread ≤ r.source.unread := by
  obtain ⟨results, -, hadds⟩ :=
    (consumes_accumulates context).node henter tree (fun _ _ => trivial) hrun
  exact Source.unread_le_of_consumes hadds

theorem field_agree {declared : Field} (h : AgreeOn context enter other bound declared.type)
    (hr : r.source.unread ≤ bound) (scopes : List Scope) :
    field context enter declared scopes r = field context other declared scopes r := by
  unfold field
  cases declared.length with
  | none => exact value_agree h hr ..
  | some length =>
    dsimp only
    unfold array
    rw [position_bind, position_bind]
    refine bind_congr_at rfl fun count s hcount => ?_
    obtain ⟨rfl, -⟩ := evaluate_ok hcount
    by_cases htext : declared.type = .primitive .char
    · rw [if_pos htext, if_pos htext]
    · rw [if_neg htext, if_neg htext]
      refine bind_congr_at (elements_agree ?_ (fun _ _ hr => value_agree h hr ..) _ _ _ _ hr)
        fun _ _ _ => rfl
      exact fun _ _ _ _ hrun => Source.unread_le_of_consumes
        ((consumes_accumulates context).value henter trivial hrun)

mutual

theorem nodes_agree : ∀ (body : List Node),
    (∀ declared ∈ bodyFields body, AgreeOn context enter other bound declared.type) →
      ∀ (outer : List Scope) (scope : Scope) {r : Reading}, r.source.unread ≤ bound →
        nodes context enter body outer scope r = nodes context other body outer scope r
  | [], _, _, _, _, _ => rfl
  | head :: rest, h, outer, scope, _, hr => by
    simp only [bodyFields_cons, List.mem_append] at h
    exact bind_congr_at (node_agree head (fun f hf => h f (.inl hf)) outer scope hr)
      fun added s hrun => nodes_agree rest (fun f hf => h f (.inr hf)) outer added
        (Nat.le_trans (node_unread_le henter hrun) hr)
termination_by structural body => body

theorem node_agree : ∀ (tree : Node),
    (∀ declared ∈ tree.fields, AgreeOn context enter other bound declared.type) →
      ∀ (outer : List Scope) (scope : Scope) {r : Reading}, r.source.unread ≤ bound →
        node context enter tree outer scope r = node context other tree outer scope r
  | .field declared, h, outer, scope, _, hr =>
    bind_congr_at (field_agree henter (h declared (by simp)) hr _) fun _ _ _ => rfl
  | .block head body, h, outer, scope, r, hr => by
    have hinner (scopes : List Scope) (r : Reading) (hr : r.source.unread ≤ bound) :
        nodes context enter body scopes [] r = nodes context other body scopes [] r :=
      nodes_agree body h scopes [] hr
    have hforward : Forward fun scopes => nodes context enter body scopes [] := by
      intro scopes r fields s hrun
      obtain ⟨results, -, hadds⟩ :=
        (consumes_accumulates context).nodes henter body (fun _ _ => trivial) hrun
      exact hadds
    unfold node
    dsimp only
    split
    · rw [get_bind, get_bind]
      exact loop_agree hforward hinner hr (Nat.lt_succ_self _) (Nat.lt_succ_self _)
    · refine bind_congr_at rfl fun enters s henters => ?_
      obtain rfl := entered_ok henters
      cases enters with
      | false => rfl
      | true => exact bind_congr_at (hinner _ _ hr) fun _ _ _ => rfl
termination_by structural tree => tree

end

/-- Behind an anchor it is enough to agree on shorter inputs. -/
theorem nodes_agree_anchored {mentions : Field → Prop} (body : List Node)
    (hguard : ∀ front node back, body = front ++ node :: back →
      (∃ declared ∈ node.fields, mentions declared) → ∃ anchor ∈ front, anchor.IsAnchor)
    (hothers : ∀ declared ∈ bodyFields body, ¬ mentions declared →
      AgreeOn context enter other bound declared.type)
    (hshorter : ∀ less < bound, ∀ declared ∈ bodyFields body,
      AgreeOn context enter other less declared.type)
    (outer : List Scope) (scope : Scope) (hr : r.source.unread ≤ bound) :
    nodes context enter body outer scope r = nodes context other body outer scope r := by
  induction body generalizing scope r with
  | nil => rfl
  | cons head rest ih =>
    simp only [bodyFields_cons, List.mem_append] at hothers hshorter
    have hhead : ∀ declared ∈ head.fields, AgreeOn context enter other bound declared.type := by
      intro declared hdeclared
      refine hothers declared (.inl hdeclared) fun hmentions => ?_
      obtain ⟨anchor, hanchor, -⟩ := hguard [] head rest rfl ⟨declared, hdeclared, hmentions⟩
      cases hanchor
    refine bind_congr_at (node_agree henter head hhead outer scope hr) fun added s hrun => ?_
    by_cases hanchor : head.IsAnchor
    · have hless : s.source.unread < bound :=
        Nat.lt_of_lt_of_le (anchor_unread_lt hanchor hrun) hr
      exact nodes_agree henter rest (fun f hf => hshorter _ hless f (.inr hf)) outer added
        (Nat.le_refl _)
    · refine ih ?_ (fun f hf => hothers f (.inr hf))
        (fun less hless f hf => hshorter less hless f (.inr hf)) added
        (Nat.le_trans (node_unread_le henter hrun) hr)
      intro front node back hsplit hmentions
      obtain ⟨anchor, hmem, hfirst⟩ := hguard (head :: front) node back (by rw [hsplit]; rfl) hmentions
      rcases List.mem_cons.1 hmem with rfl | hfront
      · exact absurd hfirst hanchor
      · exact ⟨anchor, hfront, hfirst⟩

end

end Decoder

end BinarySchema
