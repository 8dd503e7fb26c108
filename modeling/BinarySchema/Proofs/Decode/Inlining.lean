import BinarySchema.Proofs.Decode.Loop
import BinarySchema.Proofs.Result.Lookup

/-!
# Blocks in place of their bodies

A conditional block that is entered decodes its body into a scope of its own and then adds the results
to the scope around it. The same comes of decoding the body in the place of the block: names mean the
same as long as no name is taken twice, and a name that is taken twice ends both decodes, if not at the
same field.

The first part shows that a decode sees the scopes around it only through what their names come to. The
second compares a decode into a scope with one into a scope inside it, whose results then have to join
the outer one; `Splices` is this relation, and it is kept along bodies, blocks within blocks and loops.
-/

namespace BinarySchema

namespace Expression

variable {context other : EvalContext}

theorem operandValue_congr (hposition : context.position = other.position)
    (hsize : context.size = other.size) (htypes : context.types = other.types)
    (hscopes : Scope.SameMeaning context.scopes other.scopes) (term : Term) :
    operandValue context term = operandValue other term := by
  unfold operandValue constantValue
  rw [hposition, hsize, htypes]
  simp only [hscopes _]

theorem unary_congr (h : ∀ term, operandValue context term = operandValue other term)
    (whole : Expression) (terms : List Term) :
    unary whole context terms = unary whole other terms := by
  induction terms with
  | nil => rfl
  | cons term rest ih => simp only [unary, ih, h]

theorem extend_congr (h : ∀ term, operandValue context term = operandValue other term)
    (whole : Expression) (steps least : Nat) (left : Number.Outcome) (terms : List Term) :
    extend whole context steps least left terms = extend whole other steps least left terms := by
  induction steps generalizing least left terms with
  | zero => cases terms <;> rfl
  | succ steps ih =>
    cases terms with
    | nil => rfl
    | cons term rest => simp only [extend, unary_congr h, ih]

theorem evaluate_congr (h : ∀ term, operandValue context term = operandValue other term)
    (expression : Expression) : evaluate expression context = evaluate expression other := by
  simp only [evaluate, unary_congr h, extend_congr h]

end Expression

namespace Decoder

open Scope (SameMeaning Joins)

variable {context : DecodeContext} {enter : List Node → Decoder Scope} {chain other : List Scope}

/-! ### What a decode sees of the scopes around it -/

theorem evaluate_congr {α : Type} (h : SameMeaning chain other) (label : String)
    (expression : Expression) (f : Number.Outcome → α) :
    evaluate context chain label (fun c => (expression.evaluate c).map f)
      = evaluate context other label (fun c => (expression.evaluate c).map f) := by
  have hvalue (source : Source) :
      expression.evaluate ⟨source.position, source.size, chain, context.types⟩
        = expression.evaluate ⟨source.position, source.size, other, context.types⟩ := by
    apply Expression.evaluate_congr
    exact Expression.operandValue_congr rfl rfl rfl h
  unfold evaluate
  simp only [hvalue]

theorem entered_congr (h : SameMeaning chain other) (head : BlockHead) :
    entered context head chain = entered context head other := by
  unfold entered
  rw [show head.condition.condition
    = fun c => (head.condition.evaluate c).map fun value => decide (value.toInt ≠ 0) from rfl,
    evaluate_congr h]

theorem field_congr (h : SameMeaning chain other) (declared : Field) :
    field context enter declared chain = field context enter declared other := by
  unfold field
  cases declared.length with
  | none => rfl
  | some length =>
    dsimp only
    unfold array
    rw [show length.length = fun c => (length.evaluate c).map fun value => value.toInt.toNat from rfl,
      evaluate_congr h]

theorem loop_congr {body : List Scope → Decoder Scope}
    (hbody : ∀ {chain other}, SameMeaning chain other → body chain = body other)
    (h : SameMeaning chain other) (head : BlockHead) (steps iteration : Nat) (visible : List Scope)
    (scope : Scope) :
    loop context head body chain steps iteration visible scope
      = loop context head body other steps iteration visible scope := by
  induction steps generalizing iteration visible scope with
  | zero => rfl
  | succ steps ih =>
    rw [loop_succ, loop_succ, entered_congr ((h.cons scope).append visible),
      hbody (h.cons scope)]
    simp only [ih]

mutual

theorem nodes_congr : ∀ (body : List Node) {chain other : List Scope}, SameMeaning chain other →
    ∀ scope, nodes context enter body chain scope = nodes context enter body other scope
  | [], _, _, _, _ => rfl
  | head :: rest, _, _, h, scope => by
    unfold nodes
    rw [node_congr head h scope]
    exact congrArg _ (funext fun added => nodes_congr rest h added)
termination_by structural body => body

theorem node_congr : ∀ (tree : Node) {chain other : List Scope}, SameMeaning chain other →
    ∀ scope, node context enter tree chain scope = node context enter tree other scope
  | .field declared, _, _, h, scope => by
    unfold node
    rw [field_congr (h.cons scope)]
  | .block head body, chain, other, h, scope => by
    have hbody {chain other : List Scope} (h : SameMeaning chain other) :
        nodes context enter body chain [] = nodes context enter body other [] :=
      nodes_congr body h []
    unfold node
    dsimp only
    rw [hbody (h.cons scope), entered_congr (h.cons scope)]
    simp only [loop_congr hbody h]
termination_by structural tree => tree

end

/-! ### Only additions -/

variable {r s : Reading} {scope fields result : Scope}

theorem appends_accumulates (context : DecodeContext) :
    Accumulates context (fun _ => True) fun _ _ _ => True := by
  constructor <;> intros <;> trivial

theorem nodes_appends {body : List Node} {outer : List Scope}
    (h : nodes context enter body outer scope r = .ok result s) : ∃ added, result = scope ++ added := by
  obtain ⟨added, rfl, -⟩ := (appends_accumulates context).nodes (fun _ _ _ _ _ _ => trivial) body
    (fun _ _ => trivial) h
  exact ⟨added, rfl⟩

theorem loop_appends {head : BlockHead} {body : List Scope → Decoder Scope} {outer : List Scope}
    {steps iteration : Nat} {visible : List Scope}
    (h : loop context head body outer steps iteration visible scope r = .ok result s) :
    ∃ added, result = scope ++ added := by
  obtain ⟨added, rfl, -⟩ := (appends_accumulates context).loop (fun _ _ _ _ _ => trivial) h
  exact ⟨added, rfl⟩

theorem add_ok_iff {added : Scope} {result : Result} :
    add scope result r = .ok added s ↔
      result.name ∉ Scope.names scope ∧ added = scope ++ [result] ∧ r = s := by
  unfold add Scope.add
  rw [← Scope.contains_iff]
  by_cases htaken : Scope.contains scope result.name = true
  · simp [htaken]
  · simp [htaken, eq_comm]

theorem addAll_append_ok_iff {results : List Result} (hjoins : Joins scope fields) :
    addAll (scope ++ fields) results r = .ok result s ↔
      Joins scope (fields ++ results) ∧ result = scope ++ (fields ++ results) ∧ r = s := by
  induction results generalizing fields with
  | nil =>
    rw [addAll, pure_ok_iff, List.append_nil]
    constructor
    · intro ⟨hresult, hr⟩
      exact ⟨hjoins, hresult.symm, hr⟩
    · intro ⟨_, hresult, hr⟩
      exact ⟨hresult.symm, hr⟩
  | cons head rest ih =>
    have hbehind : fields ++ head :: rest = (fields ++ [head]) ++ rest := by simp
    have hnames : Scope.names (scope ++ fields) = Scope.names scope ++ Scope.names fields :=
      Scope.names_append scope fields
    rw [addAll, bind_ok_iff, hbehind]
    constructor
    · intro ⟨_, _, hadd, hrest⟩
      obtain ⟨hname, rfl, rfl⟩ := add_ok_iff.1 hadd
      rw [hnames] at hname
      rw [List.append_assoc] at hrest
      exact (ih (hjoins.append_singleton_iff.2 hname)).1 hrest
    · intro ⟨hall, hresult, hr⟩
      have hhead : Joins scope (fields ++ [head]) := hall.of_append
      have hname := hjoins.append_singleton_iff.1 hhead
      rw [← hnames] at hname
      refine ⟨scope ++ fields ++ [head], r, add_ok_iff.2 ⟨hname, rfl, rfl⟩, ?_⟩
      rw [List.append_assoc]
      exact (ih hhead).2 ⟨hall, hresult, hr⟩

theorem addAll_ok_iff {results : List Result} :
    addAll scope results r = .ok result s ↔
      Joins scope results ∧ result = scope ++ results ∧ r = s := by
  have hjoins : addAll (scope ++ []) results r = .ok result s ↔
      Joins scope ([] ++ results) ∧ result = scope ++ ([] ++ results) ∧ r = s :=
    addAll_append_ok_iff (Joins.nil scope)
  rwa [List.append_nil, List.nil_append] at hjoins

/-! ### Decoding into an inner scope -/

/-- That a decoder comes to the results of another one behind a scope, exactly where these join it. -/
def Splices (scope : Scope) (direct inner : Decoder Scope) : Prop :=
  ∀ r result s, direct r = .ok result s ↔
    ∃ fields, inner r = .ok fields s ∧ Joins scope fields ∧ result = scope ++ fields

namespace Splices

variable {α : Type} {direct inner : Decoder Scope}

theorem pure (h : Joins scope fields) :
    Splices scope (Pure.pure (scope ++ fields)) (Pure.pure fields) := by
  intro r result s
  simp only [pure_ok_iff]
  constructor
  · rintro ⟨hresult, hr⟩
    exact ⟨fields, ⟨rfl, hr⟩, h, hresult.symm⟩
  · rintro ⟨_, ⟨hfields, hr⟩, _, hresult⟩
    rw [hfields]
    exact ⟨hresult.symm, hr⟩

/-- What comes before is the same on both sides. -/
theorem behind {f g : α → Decoder Scope} (x : Decoder α) (h : ∀ a, Splices scope (f a) (g a)) :
    Splices scope (x >>= f) (x >>= g) := by
  intro r result s
  simp only [bind_ok_iff]
  constructor
  · intro ⟨a, t, hx, hf⟩
    obtain ⟨fields, hg, hfields⟩ := (h a t result s).1 hf
    exact ⟨fields, ⟨a, t, hx, hg⟩, hfields⟩
  · intro ⟨fields, ⟨a, t, hx, hg⟩, hfields⟩
    exact ⟨a, t, hx, (h a t result s).2 ⟨fields, hg, hfields⟩⟩

theorem bind {f g : Scope → Decoder Scope} (h : Splices scope direct inner)
    (hrest : ∀ fields, Joins scope fields → Splices scope (f (scope ++ fields)) (g fields))
    (happends : ∀ fields r result s, g fields r = .ok result s → ∃ added, result = fields ++ added) :
    Splices scope (direct >>= f) (inner >>= g) := by
  intro r result s
  simp only [bind_ok_iff]
  constructor
  · intro ⟨between, t, hdirect, hf⟩
    obtain ⟨first, hinner, hfirst, rfl⟩ := (h r between t).1 hdirect
    obtain ⟨fields, hg, hfields⟩ := (hrest first hfirst t result s).1 hf
    exact ⟨fields, ⟨first, t, hinner, hg⟩, hfields⟩
  · intro ⟨fields, ⟨first, t, hinner, hg⟩, hfields, hresult⟩
    -- What joins in the end joined before something was added to it.
    obtain ⟨added, rfl⟩ := happends _ _ _ _ hg
    have hfirst : Joins scope first := hfields.of_append
    refine ⟨scope ++ first, t, (h r _ t).2 ⟨first, hinner, hfirst, rfl⟩, ?_⟩
    exact (hrest first hfirst t result s).2 ⟨_, hg, hfields, hresult⟩

theorem add (h : Joins scope fields) (result : Result) :
    Splices scope (Decoder.add (scope ++ fields) result) (Decoder.add fields result) := by
  intro r added s
  simp only [add_ok_iff, Scope.names_append]
  constructor
  · intro ⟨hname, hadded, hr⟩
    have hfields : result.name ∉ Scope.names fields := fun hmem =>
      hname (List.mem_append_right _ hmem)
    refine ⟨fields ++ [result], ⟨hfields, rfl, hr⟩, h.append_singleton_iff.2 hname, ?_⟩
    rw [hadded, List.append_assoc]
  · intro ⟨_, ⟨_, hall, hr⟩, hjoins, hadded⟩
    rw [hall] at hjoins hadded
    refine ⟨h.append_singleton_iff.1 hjoins, ?_, hr⟩
    rw [hadded, List.append_assoc]

theorem addAll (h : Joins scope fields) (results : List Result) :
    Splices scope (Decoder.addAll (scope ++ fields) results) (Decoder.addAll fields results) := by
  induction results generalizing fields with
  | nil => exact pure h
  | cons head rest ih =>
    refine bind (add h head) (fun fields hfields => ih hfields) ?_
    intro fields r result s hrun
    exact ⟨rest, (addAll_ok hrun).1⟩

/-- A loop sees the scope around its block behind that of the block, and adds to the inner one. -/
theorem loop {body : List Scope → Decoder Scope}
    (hbody : ∀ {chain other}, SameMeaning chain other → body chain = body other)
    (head : BlockHead) (outer : List Scope) (steps iteration : Nat) (visible : List Scope)
    (h : Joins scope fields) :
    Splices scope
      (Decoder.loop context head body outer steps iteration visible (scope ++ fields))
      (Decoder.loop context head body (scope :: outer) steps iteration visible fields) := by
  induction steps generalizing iteration visible fields with
  | zero =>
    refine behind position fun start r result s => ?_
    simp
  | succ steps ih =>
    have hchain := h.sameMeaning outer
    rw [loop_succ, loop_succ, entered_congr (hchain.append visible), hbody hchain]
    refine behind _ fun enters => ?_
    cases enters with
    | false => exact pure h
    | true =>
      rw [if_pos rfl, if_pos rfl]
      refine behind _ fun start => behind _ fun _ => behind _ fun results => ?_
      refine bind (addAll h _) (fun joined hjoined => behind _ fun _ => ih _ _ hjoined) ?_
      intro joined r result s hrun
      obtain ⟨_, t, _, hloop⟩ := bind_ok_iff.1 hrun
      exact loop_appends hloop

theorem node (tree : Node) (outer : List Scope) (h : Joins scope fields) :
    Splices scope (Decoder.node context enter tree outer (scope ++ fields))
      (Decoder.node context enter tree (scope :: outer) fields) := by
  unfold Decoder.node
  cases tree with
  | field declared =>
    dsimp only
    rw [field_congr (h.sameMeaning outer)]
    exact behind _ fun result => add h result
  | block head body =>
    have hbody {chain other : List Scope} (hsame : SameMeaning chain other) :
        Decoder.nodes context enter body chain [] = Decoder.nodes context enter body other [] :=
      nodes_congr body hsame []
    dsimp only
    rw [entered_congr (h.sameMeaning outer), hbody (h.sameMeaning outer)]
    by_cases hrepeats : head.control.repeats = true
    · rw [if_pos hrepeats, if_pos hrepeats]
      exact behind get fun reading => loop hbody head outer _ _ _ h
    · rw [if_neg hrepeats, if_neg hrepeats]
      refine behind _ fun enters => ?_
      cases enters with
      | false => exact pure h
      | true => exact behind _ fun results => addAll h results

/-- A body is decoded into a scope as into a scope inside it that joins it in the end. -/
theorem nodes (body : List Node) (outer : List Scope) (h : Joins scope fields) :
    Splices scope (Decoder.nodes context enter body outer (scope ++ fields))
      (Decoder.nodes context enter body (scope :: outer) fields) := by
  induction body generalizing fields with
  | nil => exact pure h
  | cons head rest ih =>
    refine bind (node head outer h) (fun _ hjoined => ih hjoined) ?_
    intro _ _ _ _ hrun
    exact nodes_appends hrun

end Splices

/-- A conditional block that is entered and its body in the place of the block come to a result together,
and then to the same scope, position in the source and warnings. -/
theorem conditional_inlines {context : DecodeContext} {enter : List Node → Decoder Scope}
    {head : BlockHead} (hconditional : head.control.repeats = false) {outer : List Scope}
    {scope : Scope} {r : Reading} (henters : entered context head (scope :: outer) r = .ok true r)
    (body : List Node) (result : Scope) (s : Reading) :
    node context enter (.block head body) outer scope r = .ok result s ↔
      nodes context enter body outer scope r = .ok result s := by
  have hblock : node context enter (.block head body) outer scope r
      = (nodes context enter body (scope :: outer) [] >>= addAll scope) r := by
    unfold node
    dsimp only
    rw [hconditional, if_neg Bool.false_ne_true, bind_of_ok henters, if_pos rfl]
  have hsplices : Splices scope (nodes context enter body outer (scope ++ []))
      (nodes context enter body (scope :: outer) []) :=
    Splices.nodes body outer (Joins.nil scope)
  rw [List.append_nil] at hsplices
  rw [hblock, bind_ok_iff, hsplices r result s]
  constructor
  · intro ⟨fields, t, hrun, hadd⟩
    obtain ⟨hfields, hresult, rfl⟩ := addAll_ok_iff.1 hadd
    exact ⟨fields, hrun, hfields, hresult⟩
  · intro ⟨fields, hrun, hfields, hresult⟩
    exact ⟨fields, s, hrun, addAll_ok_iff.2 ⟨hfields, hresult, rfl⟩⟩

/-- The block `if (n) { a : byte; while (@pos < n + 1) { b : byte; } unless (a = n) { c : byte; } }`
behind a number `n`, with three bytes to read. -/
theorem conditional_inlines_nested :
    let name (text : String) : Term := ⟨.name, text, .first⟩
    let sign (text : String) : Term := ⟨.operator, text, .first⟩
    let byte (text : String) : Node := .field { name := text, type := .primitive .byte, pos := .first }
    let block (repeats negated : Bool) (condition : List Term) (body : List Node) : Node :=
      .block ⟨⟨repeats, negated⟩, ⟨condition, .first⟩, .first⟩ body
    let number (text : String) (offset value : Int) : Result :=
      { kind := .primitive, name := text, offset, size := 1, typeName := "byte", value := .int value }
    let body : List Node := [
      byte "a",
      block true false [⟨.probe, "@pos", .first⟩, sign "<", name "n", sign "+", ⟨.number 1, "1", .first⟩]
        [byte "b"],
      block false true [name "a", sign "=", name "n"] [byte "c"]]
    let enter := structBody ⟨{}, {}⟩ 0
    let start : Reading := ⟨.ofBytes [2, 10, 20, 30] 1, []⟩
    let atEnd : Reading := ⟨.ofBytes [2, 10, 20, 30] 4, []⟩
    let result := [number "n" 0 2, number "a" 1 10, number "b[0]" 2 20, number "c" 3 30]
    node ⟨{}, {}⟩ enter (block false false [name "n"] body) [] [number "n" 0 2] start
        = .ok result atEnd ∧
      nodes ⟨{}, {}⟩ enter body [] [number "n" 0 2] start = .ok result atEnd := by
  intro name sign byte block number body enter start atEnd result
  have hrun : node ⟨{}, {}⟩ enter (block false false [name "n"] body) [] [number "n" 0 2] start
      = .ok result atEnd := by
    rfl
  exact ⟨hrun, (conditional_inlines rfl rfl body result atEnd).1 hrun⟩

end Decoder

end BinarySchema
