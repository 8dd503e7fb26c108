import BinarySchema.Proofs.Decode.Exact
import BinarySchema.Proofs.Decode.Names
import BinarySchema.Proofs.Decode.Sequence

/-!
# Decodes of a static layout

A schema with a layout decodes exactly the inputs that have its bytes left, takes them, and its results
stand where the layout says. If such fields are repeated up to the end of the input, they decode exactly
the inputs that divide into copies of them, and each copy is what the fields come to on their own.

The levels of structs that a decode starts with are enough for every layout, and how many there are makes no
difference. That is why an iteration of the loop and a decode from its beginning can be compared.
-/

namespace BinarySchema

open Decoder (indexedName)

variable {context : DecodeContext}

/-! ### Types and bodies -/

namespace LaidOut

theorem nil (start : Nat) : LaidOut [] start [] := ⟨rfl, rfl, rfl⟩

theorem cons {name : String} {layout : Layout} {parts : List (String × Layout)} {start next : Nat}
    {result : Result} {fields : Scope} (hresult : Laid layout name start result)
    (hfields : LaidOut parts next fields) (hnext : next = start + layout.size) :
    LaidOut ((name, layout) :: parts) start (result :: fields) where
  named := by
    show result.name :: Scope.names fields = _
    rw [hresult.named, hfields.named, List.map_cons]
  sized := by
    rw [Scope.totalSize_cons, hresult.sized, hfields.sized, Layout.partsSize, Int.natCast_add]
  placed := by
    have hcons : result :: fields = [result] ++ fields := rfl
    rw [hcons, Scope.places_append, hresult.placed, hfields.placed, hnext, Layout.partsPlaces]

end LaidOut

theorem Expression.length_number (count : Nat) (literal : String) (pos place : Position)
    (state : EvalContext) :
    Expression.length ⟨[⟨.number count, literal, pos⟩], place⟩ state = .ok count := by
  rfl

mutual

/-- A value of a type with a layout is decoded with any levels that are enough for it. -/
theorem TypeRef.HasLayout.exactly {type : TypeRef} {layout : Layout} {levels more : Nat}
    (hcodec : context.options.textEncoding.codec.Complete)
    (hstrict : context.options.strictEnums = false) (hlevels : layout.depth ≤ levels)
    (hmore : layout.depth ≤ more) (name : String) (comment : Option String) :
    type.HasLayout context.types layout →
      Decoder.Exactly layout.size (Laid layout name)
        (Decoder.value context (Decoder.structBody context levels) type name comment)
        (Decoder.value context (Decoder.structBody context more) type name comment)
  | .primitive hstring => by
    unfold Decoder.value
    refine .position_bind fun offset => ?_
    refine (Decoder.Exactly.primitive (fun _ => hcodec) hstring name).bind_zero fun start read hread =>
      .pure fun _ _ hoffset => ?_
    obtain ⟨hsize, bytes, -, hvalue⟩ := hread
    exact .plain rfl (congrArg Nat.cast hsize) (congrArg Nat.cast hoffset.symm)
      (Decoder.ofBytes_children hvalue)
  | .enum hfound hbase => by
    unfold Decoder.value
    refine .position_bind fun offset => ?_
    dsimp only
    rw [hfound]
    exact (Decoder.Exactly.enum (fun _ => hcodec) hstrict hbase name comment).mono fun _ _ hresult _ => hresult
  | .bitfield hfound hbase hdistinct hwidths => by
    unfold Decoder.value
    refine .position_bind fun offset => ?_
    dsimp only
    rw [hfound]
    exact (Decoder.Exactly.bitfield (fun _ => hcodec) hbase hdistinct hwidths name comment).mono
      fun _ _ hresult _ => hresult
  | .struct hfound hbody => by
    -- The fields are decoded with one level less, in a scope of their own.
    rw [Layout.depth] at hlevels hmore
    have hfields := hbody.exactly hcodec hstrict (Nat.le_sub_one_of_lt hlevels) (Nat.le_sub_one_of_lt hmore)
      [] [] [] (fun _ _ => List.not_mem_nil)
    rw [← Nat.sub_one_add_one (Nat.ne_zero_of_lt hlevels),
      ← Nat.sub_one_add_one (Nat.ne_zero_of_lt hmore)]
    unfold Decoder.value
    refine .position_bind fun offset => ?_
    dsimp only
    rw [hfound]
    refine hfields.bind_zero fun start fields hdecoded => .pure fun _ _ hoffset => ?_
    obtain ⟨_, rfl, hlaid⟩ := hdecoded
    refine ⟨rfl, hlaid.sized, ?_⟩
    rw [Scope.places_singleton, Layout.places, ← hlaid.placed, ← hlaid.sized, hoffset]
    rfl
termination_by structural h => h

theorem Field.HasLayout.exactly {declared : Field} {layout : Layout} {levels more : Nat}
    (hcodec : context.options.textEncoding.codec.Complete)
    (hstrict : context.options.strictEnums = false) (hlevels : layout.depth ≤ levels)
    (hmore : layout.depth ≤ more) (scopes scopes' : List Scope) :
    declared.HasLayout context.types layout →
      Decoder.Exactly layout.size (Laid layout declared.name)
        (Decoder.field context (Decoder.structBody context levels) declared scopes)
        (Decoder.field context (Decoder.structBody context more) declared scopes')
  | .single hlength htype => by
    unfold Decoder.field
    rw [hlength]
    exact htype.exactly hcodec hstrict hlevels hmore declared.name declared.comment
  | .text hlength htext => by
    unfold Decoder.field
    rw [hlength]
    unfold Decoder.array
    refine .position_bind fun offset => ?_
    refine .evaluate_bind (Expression.length_number _ _ _ _) ?_
    rw [if_pos htext, if_pos htext]
    refine (Decoder.Exactly.read _ _).bind_zero fun start bytes _ => ?_
    obtain ⟨text, htext⟩ := TextEncoding.exists_read hcodec bytes
    rw [htext]
    refine .pure fun _ _ hoffset => ?_
    exact .plain rfl rfl (congrArg Nat.cast hoffset.symm) rfl
  | .array hlength htext htype => by
    unfold Decoder.field
    rw [hlength]
    unfold Decoder.array
    refine .position_bind fun offset => ?_
    refine .evaluate_bind (Expression.length_number _ _ _ _) ?_
    rw [if_neg htext, if_neg htext]
    rw [Layout.depth] at hlevels hmore
    have hitems (count : Nat) := Decoder.Exactly.elements
      (fun name => htype.exactly hcodec hstrict hlevels hmore name none) declared.name count 0 []
    refine (hitems _).bind_zero fun start items hdecoded => .pure fun _ _ hoffset => ?_
    obtain ⟨_, rfl, hsize, hplaces⟩ := hdecoded
    refine ⟨rfl, hsize, ?_⟩
    simp only [Nat.zero_add] at hplaces
    rw [Scope.places_singleton, Layout.places, ← hplaces, ← hsize, hoffset]
    rfl
termination_by structural h => h

theorem BodyHasLayout.exactly {body : List Node} {parts : List (String × Layout)} {levels more : Nat}
    (hcodec : context.options.textEncoding.codec.Complete)
    (hstrict : context.options.strictEnums = false) (hlevels : Layout.partsDepth parts ≤ levels)
    (hmore : Layout.partsDepth parts ≤ more) (outer outer' : List Scope) (scope : Scope)
    (hfresh : ∀ name ∈ parts.map Prod.fst, name ∉ Scope.names scope) :
    BodyHasLayout context.types body parts →
      Decoder.Exactly (Layout.partsSize parts)
        (fun start result => ∃ fields, result = scope ++ fields ∧ LaidOut parts start fields)
        (Decoder.nodes context (Decoder.structBody context levels) body outer scope)
        (Decoder.nodes context (Decoder.structBody context more) body outer' scope)
  | .nil => .pure fun start => ⟨[], (List.append_nil scope).symm, .nil start⟩
  | .cons hfield hrest hname => by
    rw [Layout.partsDepth, Nat.max_le] at hlevels hmore
    have hfresh := List.forall_mem_cons.1 hfresh
    have hadded := (hfield.exactly hcodec hstrict hlevels.1 hmore.1 (scope :: outer)
      (scope :: outer')).addLaid hfresh.1
    refine hadded.bind fun start added ⟨result, hlaid, hscope⟩ => ?_
    subst hscope
    refine (hrest.exactly hcodec hstrict hlevels.2 hmore.2 outer outer' (scope ++ [result]) ?_).mono ?_
    · intro name hmem hname'
      rw [Scope.names_append, List.mem_append] at hname'
      rcases hname' with hscope | hlast
      · exact hfresh.2 name hmem hscope
      · rw [List.mem_singleton.1 hlast, hlaid.named] at hmem
        exact hname hmem
    · intro next decoded ⟨fields, hfields, hlaid'⟩ hnext
      exact ⟨result :: fields, by rw [hfields, List.append_assoc]; rfl, .cons hlaid hlaid' hnext⟩
termination_by structural h => h

end

namespace BodyHasLayout

variable {body : List Node} {parts : List (String × Layout)}

theorem exactly_alone (hbody : BodyHasLayout context.types body parts)
    (hcodec : context.options.textEncoding.codec.Complete)
    (hstrict : context.options.strictEnums = false) {levels more : Nat}
    (hlevels : context.types.size ≤ levels) (hmore : context.types.size ≤ more)
    (outer outer' : List Scope) :
    Decoder.Exactly (Layout.partsSize parts) (LaidOut parts)
      (Decoder.nodes context (Decoder.structBody context levels) body outer [])
      (Decoder.nodes context (Decoder.structBody context more) body outer' []) := by
  have hdepth := hbody.levels.le_size
  refine (hbody.exactly hcodec hstrict (hdepth.trans hlevels) (hdepth.trans hmore) outer outer' []
    fun _ _ => List.not_mem_nil).mono ?_
  intro start result ⟨fields, hfields, hlaid⟩
  rwa [hfields]

theorem exactly_root (hbody : BodyHasLayout context.types body parts)
    (hcodec : context.options.textEncoding.codec.Complete)
    (hstrict : context.options.strictEnums = false) {levels : Nat} (hlevels : context.types.size ≤ levels)
    (outer : List Scope) :
    Decoder.Exactly (Layout.partsSize parts) (LaidOut parts)
      (Decoder.nodes context (Decoder.structBody context levels) body outer [])
      (Decoder.root context body) where
  enough {_ s} hsource hchunk hunread := by
    have hmore := Nat.le_mul_of_pos_right context.types.size (Nat.succ_pos s.source.unread)
    exact (hbody.exactly_alone hcodec hstrict hlevels hmore outer []).enough hsource hchunk hunread
  short := (hbody.exactly_alone hcodec hstrict hlevels hlevels outer outer).short

theorem root_exactly (hbody : BodyHasLayout context.types body parts)
    (hcodec : context.options.textEncoding.codec.Complete)
    (hstrict : context.options.strictEnums = false) :
    Decoder.Exactly (Layout.partsSize parts) (LaidOut parts) (Decoder.root context body)
      (Decoder.root context body) where
  enough {r _} hsource hchunk hunread := by
    have hlevels := Nat.le_mul_of_pos_right context.types.size (Nat.succ_pos r.source.unread)
    exact (hbody.exactly_root hcodec hstrict hlevels []).enough hsource hchunk hunread
  short {r} hchunk hunread := by
    have hlevels := Nat.le_mul_of_pos_right context.types.size (Nat.succ_pos r.source.unread)
    exact (hbody.exactly_root hcodec hstrict hlevels []).short hchunk hunread

end BodyHasLayout

/-! ### Copies -/

def Scope.numbered (copies : Nat → Scope) (count : Nat) : Scope :=
  (List.range count).flatMap fun index =>
    (copies index).map fun result => result.rename (indexedName result.name index)

theorem Scope.numbered_succ (copies : Nat → Scope) (count : Nat) :
    numbered copies (count + 1) = numbered copies count
      ++ (copies count).map fun result => result.rename (indexedName result.name count) := by
  simp [numbered, List.range_succ, List.flatMap_append]

theorem Scope.names_numbered {copies : Nat → Scope} {names : List String} {count : Nat}
    (h : ∀ index < count, Scope.names (copies index) = names) :
    Scope.names (numbered copies count)
      = (List.range count).flatMap fun index => names.map (indexedName · index) := by
  unfold Scope.names numbered
  rw [List.map_flatMap]
  refine List.flatMap_congr fun index hindex => ?_
  rw [← h index (List.mem_range.1 hindex), Scope.names, List.map_map, List.map_map]
  rfl

theorem nodup_indexedNames {names : List String} (h : names.Nodup) (count : Nat) :
    ((List.range count).flatMap fun index => names.map (indexedName · index)).Nodup := by
  rw [List.nodup_flatMap]
  constructor
  · intro index _
    exact h.map fun name other heq => (Decoder.indexedName_inj.1 heq).1
  · refine (List.nodup_range).imp fun {index number} hne => ?_
    intro name hname hother
    obtain ⟨first, -, rfl⟩ := List.mem_map.1 hname
    obtain ⟨second, -, heq⟩ := List.mem_map.1 hother
    exact hne (Decoder.indexedName_inj.1 heq).2.symm

/-- What a body comes to that is decoded again and again from some source on, alone and inside of
other scopes. -/
structure Copies (body : List Scope → Decoder Scope) (alone : Decoder Scope) (size : Nat)
    (names : List String) (source : Source) (copies : Nat → Scope) : Prop where
  named {index : Nat} (hunread : (index + 1) * size ≤ source.unread) :
    Scope.names (copies index) = names
  outside {index : Nat} (hunread : (index + 1) * size ≤ source.unread) : ∃ warnings,
    alone ⟨source.skip (index * size), []⟩
      = .ok (copies index) ⟨source.skip ((index + 1) * size), warnings⟩
  inside {index : Nat} (hunread : (index + 1) * size ≤ source.unread) (scopes : List Scope)
    (before : List UnlistedValue) : ∃ warnings, body scopes ⟨source.skip (index * size), before⟩
      = .ok (copies index) ⟨source.skip ((index + 1) * size), warnings⟩

namespace Decoder

variable {body : List Scope → Decoder Scope} {alone : Decoder Scope} {size : Nat} {names : List String}

/-- Decoders that come to the same results alone and in any scopes make copies of them. -/
theorem exists_copies {source : Source} (hchunk : source.chunk = none)
    (hbody : ∀ scopes, Exactly size (fun _ fields => Scope.names fields = names) (body scopes) alone) :
    ∃ copies, Copies body alone size names source copies := by
  have hcopy (index : Nat) : ∃ fields, (index + 1) * size ≤ source.unread →
      Scope.names fields = names ∧
      (∃ warnings, alone ⟨source.skip (index * size), []⟩
        = .ok fields ⟨source.skip ((index + 1) * size), warnings⟩) ∧
      ∀ scopes before, ∃ warnings, body scopes ⟨source.skip (index * size), before⟩
        = .ok fields ⟨source.skip ((index + 1) * size), warnings⟩ := by
    by_cases hunread : (index + 1) * size ≤ source.unread
    · rw [Nat.succ_mul] at hunread ⊢
      have hrest : size ≤ (source.skip (index * size)).unread := by
        rw [Source.unread_skip]
        omega
      have hrun (scopes : List Scope) (before : List UnlistedValue) :=
        (hbody scopes).enough (r := ⟨source.skip (index * size), before⟩)
          (s := ⟨source.skip (index * size), []⟩) rfl hchunk hrest
      obtain ⟨fields, _, warnings, -, halone, hnames⟩ := hrun [] []
      rw [Source.skip_skip hunread] at halone
      refine ⟨fields, fun _ => ⟨hnames, ⟨warnings, halone⟩, fun scopes before => ?_⟩⟩
      -- What the body comes to in other scopes is what it comes to alone.
      obtain ⟨other, warnings', _, hinside, hother, -⟩ := hrun scopes before
      rw [Source.skip_skip hunread] at hinside hother
      rw [halone] at hother
      obtain rfl := (EStateM.Result.ok.inj hother).1
      exact ⟨warnings', hinside⟩
    · exact ⟨[], fun h => absurd h hunread⟩
  choose copies hcopies using hcopy
  exact ⟨copies, fun h => (hcopies _ h).1, fun h => (hcopies _ h).2.1, fun h => (hcopies _ h).2.2⟩

end Decoder

/-! ### Up to the end -/

/-- That a block is a loop that goes on as long as something is unread. -/
structure BlockHead.RunsToEnd (head : BlockHead) : Prop where
  control : head.control = ⟨true, false⟩
  condition : ∃ first second third, head.condition.terms
    = [⟨.probe, "@pos", first⟩, ⟨.operator, "<", second⟩, ⟨.probe, "@size", third⟩]

namespace Decoder

variable {head : BlockHead} {body : List Scope → Decoder Scope} {alone : Decoder Scope} {size : Nat}
  {names : List String} {copies : Nat → Scope} {r : Reading}

theorem entered_of_bool {scopes : List Scope} {holds : Bool}
    (h : head.condition.evaluate ⟨r.source.position, r.source.size, scopes, context.types⟩
      = .ok (.bool holds)) :
    entered context head scopes r = .ok (decide (holds ≠ head.control.negated)) r := by
  unfold entered
  rw [bind_of_ok (evaluate_of_ok (Expression.condition_of_bool h))]
  rfl

theorem entered_runsToEnd (h : head.RunsToEnd) (scopes : List Scope) {enters : Bool}
    (henters : decide (r.source.position < r.source.size) = enters) :
    entered context head scopes r = .ok enters r := by
  obtain ⟨control, ⟨terms, place⟩, pos⟩ := head
  obtain ⟨hcontrol, first, second, third, hterms⟩ := h
  dsimp only at hcontrol hterms
  subst hcontrol hterms henters
  have hvalue : Expression.evaluate ⟨[⟨.probe, "@pos", first⟩, ⟨.operator, "<", second⟩,
      ⟨.probe, "@size", third⟩], place⟩ ⟨r.source.position, r.source.size, scopes, context.types⟩
      = .ok (.bool (decide ((r.source.position : Int) < r.source.size))) := rfl
  rw [entered_of_bool hvalue]
  simp

theorem checkLimit_uncapped (hcap : context.options.maxLoopIterations = none) (head : BlockHead)
    (iteration start : Nat) (r : Reading) : checkLimit context head iteration start r = .ok () r := by
  unfold checkLimit
  rw [hcap]
  rfl

theorem iterates_copies (hhead : head.RunsToEnd) (hcap : context.options.maxLoopIterations = none)
    (hsize : 1 ≤ size) (hnames : names.Nodup) (hcopies : Copies body alone size names r.source copies)
    (count : Nat) (hcount : count * size ≤ r.source.unread) : ∃ visible warnings,
      Iterates context head body [] [] r count visible (Scope.numbered copies count)
        ⟨r.source.skip (count * size), warnings⟩ := by
  induction count with
  | zero =>
    refine ⟨[], r.warnings, ?_⟩
    rw [Nat.zero_mul, Source.skip_zero]
    exact .start
  | succ count ih =>
    have hnext := hcount
    rw [Nat.succ_mul] at hnext
    obtain ⟨visible, before, hiterates⟩ := ih (by omega)
    obtain ⟨after, hrun⟩ := hcopies.inside hcount [Scope.numbered copies count] before
    have hstart : (r.source.skip (count * size)).position = r.source.position + count * size :=
      Source.position_skip (by omega)
    have hstop : (r.source.skip ((count + 1) * size)).position
        = r.source.position + (count + 1) * size := Source.position_skip hcount
    have hjoined : Scope.Joins (Scope.numbered copies count)
        ((copies count).map fun result => result.rename (indexedName result.name count)) := by
      apply Scope.Joins.of_nodup
      rw [← Scope.numbered_succ, Scope.names_numbered fun index hindex => hcopies.named ?_]
      · exact nodup_indexedNames hnames (count + 1)
      · exact (Nat.mul_le_mul_right size hindex).trans hcount
    have hturn : Turn context head body [] count visible (Scope.numbered copies count)
        ⟨r.source.skip (count * size), before⟩ (copies count) (Scope.numbered copies (count + 1))
        ⟨r.source.skip ((count + 1) * size), after⟩ := by
      refine ⟨?_, checkLimit_uncapped hcap _ _ _ _, hrun,
        addAll_ok_iff.2 ⟨hjoined, Scope.numbered_succ copies count, rfl⟩⟩
      refine entered_runsToEnd hhead _ (decide_eq_true ?_)
      have hunread : r.source.unread = r.source.size - r.source.position := rfl
      show (r.source.skip (count * size)).position < r.source.size
      omega
    refine ⟨[copies count], after, hiterates.next hturn ?_⟩
    show (r.source.skip _).position ≠ (r.source.skip _).position
    rw [hstart, hstop, Nat.succ_mul]
    omega

theorem loop_rest (hhead : head.RunsToEnd) (hcap : context.options.maxLoopIterations = none)
    (hsize : 1 ≤ size) (hnames : names.Nodup) (hcopies : Copies body alone size names r.source copies)
    {steps : Nat} (hsteps : r.source.unread < steps) : ∃ visible warnings more,
      loop context head body [] steps 0 [] [] r
        = loop context head body [] (more + 1) (r.source.unread / size) visible
            (Scope.numbered copies (r.source.unread / size))
            ⟨r.source.skip (r.source.unread / size * size), warnings⟩ := by
  obtain ⟨visible, warnings, hiterates⟩ := iterates_copies hhead hcap hsize hnames hcopies _
    (Nat.div_mul_le_self r.source.unread size)
  have hle := Nat.div_le_self r.source.unread size
  obtain ⟨more, rfl⟩ : ∃ more, steps = r.source.unread / size + (more + 1) :=
    ⟨steps - r.source.unread / size - 1, by omega⟩
  exact ⟨visible, warnings, more, hiterates.loop_eq (more + 1)⟩

theorem loop_copies (hhead : head.RunsToEnd) (hcap : context.options.maxLoopIterations = none)
    (hsize : 1 ≤ size) (hnames : names.Nodup) (hcopies : Copies body alone size names r.source copies)
    {steps : Nat} (hsteps : r.source.unread < steps) (hdvd : size ∣ r.source.unread) :
    ∃ warnings, loop context head body [] steps 0 [] [] r
      = .ok (Scope.numbered copies (r.source.unread / size))
          ⟨r.source.skip r.source.unread, warnings⟩ := by
  obtain ⟨visible, warnings, more, hloop⟩ := loop_rest hhead hcap hsize hnames hcopies hsteps
  rw [Nat.div_mul_cancel hdvd] at hloop
  have hstop : (r.source.skip r.source.unread).position = r.source.position + r.source.unread :=
    Source.position_skip (Nat.le_refl _)
  have hleaves : ¬ (r.source.skip r.source.unread).position < r.source.size := by
    rw [hstop, Source.unread]
    omega
  refine ⟨warnings, ?_⟩
  rw [hloop, loop_succ, bind_of_ok (entered_runsToEnd hhead _ (decide_eq_false hleaves))]
  rfl

theorem loop_fails (hhead : head.RunsToEnd) (hcap : context.options.maxLoopIterations = none)
    (hsize : 1 ≤ size) (hnames : names.Nodup) (hcopies : Copies body alone size names r.source copies)
    (hbody : ∀ scopes, Exactly size (fun _ fields => Scope.names fields = names) (body scopes) alone)
    (hchunk : r.source.chunk = none) {steps : Nat} (hsteps : r.source.unread < steps)
    (hdvd : ¬ size ∣ r.source.unread) :
    ∃ e s, loop context head body [] steps 0 [] [] r = .error e s := by
  obtain ⟨visible, warnings, more, hloop⟩ := loop_rest hhead hcap hsize hnames hcopies hsteps
  have hrest : (r.source.skip (r.source.unread / size * size)).unread = r.source.unread % size := by
    have hsplit := Nat.div_add_mod' r.source.unread size
    rw [Source.unread_skip]
    omega
  have hsome : 0 < r.source.unread % size := Nat.pos_of_ne_zero (mt Nat.dvd_of_mod_eq_zero hdvd)
  have henters : (r.source.skip (r.source.unread / size * size)).position < r.source.size := by
    rw [← hrest, Source.unread, Source.size_skip] at hsome
    omega
  obtain ⟨e, s, hshort⟩ := (hbody [Scope.numbered copies (r.source.unread / size)]).short
    (r := ⟨r.source.skip (r.source.unread / size * size), warnings⟩) hchunk
    (hrest ▸ Nat.mod_lt _ hsize)
  refine ⟨e, s, ?_⟩
  rw [hloop, loop_succ, bind_of_ok (entered_runsToEnd hhead _ (decide_eq_true henters)), if_pos rfl,
    position_bind, bind_of_ok (checkLimit_uncapped hcap _ _ _ _)]
  exact bind_error_iff.2 (.inl hshort)

theorem root_loop (hhead : head.RunsToEnd) (body : List Node) (r : Reading) :
    root context [.block head body] r
      = loop context head (nodes context
          (structBody context (context.types.size * (r.source.unread + 1))) body · []) []
        (r.source.unread + 1) 0 [] [] r := by
  have hrepeats : head.control.repeats = true := by rw [hhead.control]
  have hnode (enter : List Node → Decoder Scope) : node context enter (.block head body) [] [] r
      = loop context head (nodes context enter body · []) [] (r.source.unread + 1) 0 [] [] r := by
    unfold node
    simp only [hrepeats, if_true]
    rfl
  rw [← hnode]
  show (node context _ (.block head body) [] [] >>= pure) r = _
  rw [bind_pure]

/-- A root that repeats fields up to the end comes to copies of what they come to alone. -/
theorem root_runsToEnd (context : DecodeContext)
    (hcodec : context.options.textEncoding.codec.Complete)
    (hstrict : context.options.strictEnums = false)
    (hcap : context.options.maxLoopIterations = none) (hhead : head.RunsToEnd) {body : List Node}
    {parts : List (String × Layout)} (hbody : BodyHasLayout context.types body parts)
    (hsize : 1 ≤ Layout.partsSize parts) {source : Source} (hchunk : source.chunk = none) :
    ∃ copies : Nat → Scope,
      (∀ index, (index + 1) * Layout.partsSize parts ≤ source.unread → ∃ warnings,
        root context body ⟨source.skip (index * Layout.partsSize parts), []⟩
          = .ok (copies index) ⟨source.skip ((index + 1) * Layout.partsSize parts), warnings⟩) ∧
      (Layout.partsSize parts ∣ source.unread → ∃ warnings, root context [.block head body] ⟨source, []⟩
        = .ok (Scope.numbered copies (source.unread / Layout.partsSize parts))
            ⟨source.skip source.unread, warnings⟩) ∧
      (¬ Layout.partsSize parts ∣ source.unread →
        ∃ e s, root context [.block head body] ⟨source, []⟩ = .error e s) := by
  have hlevels := Nat.le_mul_of_pos_right context.types.size (Nat.succ_pos source.unread)
  have hinside (scopes : List Scope) := (hbody.exactly_root hcodec hstrict hlevels scopes).mono
    fun _ _ hlaid => hlaid.named
  obtain ⟨copies, hcopies⟩ := exists_copies hchunk hinside
  have hsteps := Nat.lt_succ_self source.unread
  refine ⟨copies, fun index hunread => hcopies.outside hunread, fun hdvd => ?_, fun hdvd => ?_⟩
  · rw [root_loop hhead]
    exact loop_copies (r := ⟨source, []⟩) hhead hcap hsize hbody.names_nodup hcopies hsteps hdvd
  · rw [root_loop hhead]
    exact loop_fails (r := ⟨source, []⟩) hhead hcap hsize hbody.names_nodup hcopies hinside hchunk hsteps
      hdvd

end Decoder

/-! ### Decodes -/

namespace Schema

variable {schema : Schema} {options : Options} {body : List Node} {parts : List (String × Layout)}
  {source : Source}

/-- A root of a fixed size decodes what has enough unread bytes. -/
theorem decode_exactly {size : Nat} {holds : Nat → Scope → Prop} (hroot : schema.root = some body)
    (hexactly : Decoder.Exactly size holds (Decoder.root ⟨schema.types, options⟩ body)
      (Decoder.root ⟨schema.types, options⟩ body)) (hchunk : source.chunk = none) :
    ((∃ decoded reading, schema.decode options source = .ok decoded reading) ↔ size ≤ source.unread) ∧
      ∀ decoded reading, schema.decode options source = .ok decoded reading →
        decoded.consumed = size ∧ holds source.position decoded.fields := by
  have henough (hunread : size ≤ source.unread) : ∃ fields reading,
      Decoder.root ⟨schema.types, options⟩ body ⟨source, []⟩ = .ok fields reading ∧
        reading.source.position - source.position = size ∧ holds source.position fields := by
    obtain ⟨fields, warnings, -, hrun, -, hholds⟩ := hexactly.enough (r := ⟨source, []⟩)
      (s := ⟨source, []⟩) rfl hchunk hunread
    refine ⟨fields, _, hrun, ?_, hholds⟩
    show (source.skip size).position - source.position = size
    rw [Source.position_skip hunread]
    omega
  have hshort {decoded : Decoded} {reading : Reading}
      (h : schema.decode options source = .ok decoded reading) : size ≤ source.unread := by
    by_contra hless
    obtain ⟨e, s, herror⟩ := hexactly.short (r := ⟨source, []⟩) hchunk (Nat.lt_of_not_le hless)
    have hrun := ((decode_ok_iff hroot).1 h).1
    rw [herror] at hrun
    cases hrun
  refine ⟨⟨fun ⟨decoded, reading, h⟩ => hshort h, fun hunread => ?_⟩, fun decoded reading h => ?_⟩
  · obtain ⟨fields, reading, hrun, -, -⟩ := henough hunread
    exact ⟨⟨fields, _, _⟩, reading, (decode_ok_iff hroot).2 ⟨hrun, rfl, rfl⟩⟩
  · obtain ⟨fields, reading', hrun, hsize, hholds⟩ := henough (hshort h)
    obtain ⟨hrun', hconsumed, -⟩ := (decode_ok_iff hroot).1 h
    rw [hrun] at hrun'
    obtain ⟨rfl, rfl⟩ := EStateM.Result.ok.inj hrun'
    exact ⟨hconsumed.trans hsize, hholds⟩

end Schema

/-- A schema with a layout decodes exactly the inputs that have its size left. It takes that many bytes, and
its results, at every depth, stand where the layout says. The fields of such a schema in a loop up to the
end decode exactly the inputs that divide into their size, to copies of what they decode to on their own. -/
theorem decode_static {schema : Schema} {options : Options} {body : List Node}
    {parts : List (String × Layout)} (hroot : schema.root = some body)
    (hbody : BodyHasLayout schema.types body parts) (hcodec : options.textEncoding.codec.Complete)
    (hstrict : options.strictEnums = false) :
    (∀ bytes start,
      ((∃ decoded reading, schema.decode options (.ofBytes bytes start) = .ok decoded reading) ↔
        Layout.partsSize parts ≤ bytes.length - start) ∧
      ∀ decoded reading, schema.decode options (.ofBytes bytes start) = .ok decoded reading →
        decoded.consumed = Layout.partsSize parts ∧
        Scope.names decoded.fields = parts.map Prod.fst ∧
        Scope.places decoded.fields = (Layout.partsPlaces parts 0).map (·.shift start)) ∧
    ∀ head : BlockHead, head.RunsToEnd → 1 ≤ Layout.partsSize parts → options.maxLoopIterations = none →
      ∀ bytes,
        ((∃ decoded reading, { schema with root := some [.block head body] }.decode options
            (.ofBytes bytes) = .ok decoded reading) ↔ Layout.partsSize parts ∣ bytes.length) ∧
        ∀ decoded reading, { schema with root := some [.block head body] }.decode options
            (.ofBytes bytes) = .ok decoded reading →
          decoded.consumed = bytes.length ∧ ∃ copies : Nat → Scope,
            decoded.fields = Scope.numbered copies (bytes.length / Layout.partsSize parts) ∧
            ∀ index < bytes.length / Layout.partsSize parts, ∃ alone reading,
              schema.decode options (.ofBytes bytes (index * Layout.partsSize parts))
                = .ok alone reading ∧ alone.fields = copies index := by
  have hexactly : Decoder.Exactly (Layout.partsSize parts) (LaidOut parts)
      (Decoder.root ⟨schema.types, options⟩ body) (Decoder.root ⟨schema.types, options⟩ body) :=
    hbody.root_exactly hcodec hstrict
  constructor
  · intro bytes start
    have hchunk : (Source.ofBytes bytes start).chunk = none := rfl
    obtain ⟨hiff, hdecoded⟩ := Schema.decode_exactly hroot hexactly hchunk
    refine ⟨hiff, fun decoded reading h => ?_⟩
    obtain ⟨hconsumed, hlaid⟩ := hdecoded decoded reading h
    refine ⟨hconsumed, hlaid.named, ?_⟩
    rw [hlaid.placed, ← Layout.partsPlaces_add]
    rfl
  · intro head hhead hsize hcap bytes
    have hchunk : (Source.ofBytes bytes).chunk = none := rfl
    have hunread : (Source.ofBytes bytes).unread = bytes.length := Nat.sub_zero _
    obtain ⟨copies, halone, hdivides, hfails⟩ :=
      Decoder.root_runsToEnd ⟨schema.types, options⟩ hcodec hstrict hcap hhead hbody hsize hchunk
    rw [hunread] at hdivides hfails
    have hdvd {decoded : Decoded} {reading : Reading}
        (h : { schema with root := some [.block head body] }.decode options (.ofBytes bytes)
          = .ok decoded reading) : Layout.partsSize parts ∣ bytes.length := by
      by_contra hrest
      obtain ⟨e, s, herror⟩ := hfails hrest
      have hrun := ((Schema.decode_ok_iff rfl).1 h).1
      rw [herror] at hrun
      cases hrun
    refine ⟨⟨fun ⟨decoded, reading, h⟩ => hdvd h, fun hdvd => ?_⟩, fun decoded reading h => ?_⟩
    · obtain ⟨warnings, hrun⟩ := hdivides hdvd
      exact ⟨⟨_, _, _⟩, _, (Schema.decode_ok_iff rfl).2 ⟨hrun, rfl, rfl⟩⟩
    · obtain ⟨warnings, hrun⟩ := hdivides (hdvd h)
      obtain ⟨hrun', hconsumed, -⟩ := (Schema.decode_ok_iff rfl).1 h
      rw [hrun] at hrun'
      obtain ⟨hfields, rfl⟩ := EStateM.Result.ok.inj hrun'
      refine ⟨?_, copies, hfields.symm, fun index hindex => ?_⟩
      · rw [hconsumed]
        show ((Source.ofBytes bytes).skip bytes.length).position - 0 = bytes.length
        rw [Source.skip_ofBytes_zero (Nat.le_refl _)]
        rfl
      · have hcopy := Nat.mul_le_of_le_div _ _ _ hindex
        obtain ⟨warnings, halone⟩ := halone index (hunread ▸ hcopy)
        rw [Source.skip_ofBytes_zero ((Nat.mul_le_mul_right _ (Nat.le_succ index)).trans hcopy)] at halone
        exact ⟨⟨_, _, _⟩, _, (Schema.decode_ok_iff hroot).2 ⟨halone, rfl, rfl⟩, rfl⟩

/-- A kind, some flags, a tag of two characters and two points. -/
theorem decode_static_marker :
    let field (name : String) (type : TypeRef) : Node := .field { name, type, pos := .first }
    let pair (name : String) (type : TypeRef) : Node := .field {
      name, type, pos := .first, length := some ⟨[⟨.number (2 : Nat), "2", .first⟩], .first⟩ }
    let schema : Schema := {
      types := {
        definitions := [
          .enum ⟨"Kind", .ushort, [⟨"Start", 1⟩, ⟨"Stop", 2⟩], .first⟩,
          .bitfield ⟨"Flags", .byte, [⟨"low", 3, none⟩, ⟨"high", 5, none⟩], .first⟩,
          .struct ⟨"Point", [field "x" (.primitive .short), field "y" (.primitive .int)], .first⟩]
        frozen := true } }
    let body : List Node := [
      field "kind" (.named .enum "Kind"), field "flags" (.named .bitfield "Flags"),
      pair "tag" (.primitive .char), pair "points" (.named .struct "Point")]
    let parts : List (String × Layout) := [
      ("kind", .plain 2), ("flags", .shared 1 ["low", "high"]), ("tag", .plain 2),
      ("points", .elements 2 (.fields [("x", .plain 2), ("y", .plain 4)]))]
    let head : BlockHead := ⟨⟨true, false⟩,
      ⟨[⟨.probe, "@pos", .first⟩, ⟨.operator, "<", .first⟩, ⟨.probe, "@size", .first⟩], .first⟩, .first⟩
    BodyHasLayout schema.types body parts ∧ Layout.partsSize parts = 17 ∧ head.RunsToEnd ∧
      (∃ decoded reading, { schema with root := some body }.decode {}
          (.ofBytes (List.replicate 18 7) 1) = .ok decoded reading ∧ decoded.consumed = 17 ∧
        Scope.places decoded.fields = [
          ⟨"kind", 1, 2⟩, ⟨"flags", 3, 1⟩, ⟨"low", 3, 1⟩, ⟨"high", 3, 1⟩, ⟨"tag", 4, 2⟩, ⟨"points", 6, 12⟩,
          ⟨"points[0]", 6, 6⟩, ⟨"x", 6, 2⟩, ⟨"y", 8, 4⟩, ⟨"points[1]", 12, 6⟩, ⟨"x", 12, 2⟩, ⟨"y", 14, 4⟩]) ∧
      (∃ decoded reading, { schema with root := some [.block head body] }.decode {}
          (.ofBytes (List.replicate 34 7)) = .ok decoded reading ∧ decoded.consumed = 34) ∧
      ¬ ∃ decoded reading, { schema with root := some [.block head body] }.decode {}
          (.ofBytes (List.replicate 33 7)) = .ok decoded reading := by
  intro field pair schema body parts head
  have hpoint : BodyHasLayout schema.types [field "x" (.primitive .short), field "y" (.primitive .int)]
      [("x", .plain 2), ("y", .plain 4)] :=
    .cons (.single rfl (.primitive (by decide))) (.cons (.single rfl (.primitive (by decide))) .nil
      (by decide)) (by decide)
  have hkind : schema.types.find? "Kind"
      = some (.enum ⟨"Kind", .ushort, [⟨"Start", 1⟩, ⟨"Stop", 2⟩], .first⟩) := rfl
  have hflags : schema.types.find? "Flags"
      = some (.bitfield ⟨"Flags", .byte, [⟨"low", 3, none⟩, ⟨"high", 5, none⟩], .first⟩) := rfl
  have hkind := TypeRef.HasLayout.enum hkind rfl
  have hflags := TypeRef.HasLayout.bitfield hflags rfl (by decide) (by decide)
  have hbody : BodyHasLayout schema.types body parts := by
    refine .cons (.single rfl hkind) ?_ (by decide)
    refine .cons (.single rfl hflags) ?_ (by decide)
    refine .cons (.text rfl rfl) ?_ (by decide)
    exact .cons (.array rfl (by decide) (.struct rfl hpoint)) .nil (by decide)
  have hhead : head.RunsToEnd := ⟨rfl, _, _, _, rfl⟩
  have hsize : Layout.partsSize parts = 17 := rfl
  have hroot : { schema with root := some body }.root = some body := rfl
  have hlenient : ({} : Options).strictEnums = false := rfl
  obtain ⟨halone, hloop⟩ := decode_static hroot hbody Text.Encoding.ascii.complete hlenient
  have hloop := hloop head hhead (by decide) rfl
  refine ⟨hbody, hsize, hhead, ?_, ?_, ?_⟩
  · obtain ⟨decoded, reading, h⟩ := (halone (List.replicate 18 7) 1).1.2 (by decide)
    obtain ⟨hconsumed, -, hplaces⟩ := (halone _ _).2 _ _ h
    refine ⟨decoded, reading, h, hconsumed, hplaces.trans ?_⟩
    decide +kernel
  · obtain ⟨decoded, reading, h⟩ := (hloop (List.replicate 34 7)).1.2 (by decide)
    exact ⟨decoded, reading, h, ((hloop _).2 _ _ h).1⟩
  · intro h
    exact absurd ((hloop (List.replicate 33 7)).1.1 h) (by decide)

end BinarySchema
