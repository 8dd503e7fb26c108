import BinarySchema.Proofs.Definition.Table
import BinarySchema.Proofs.Expression.Climbing
import BinarySchema.Proofs.Result.Lookup
import BinarySchema.Proofs.Text.Lines

/-!
# Dotted words

A dotted word is a member of an enum or a path to a decoded field. This module says what each of the two
is without the order of a search: a member is found in the table under the name of its enum, and a path
begins at the innermost result of its first name and goes on inside the results that it has reached.

`MemberFirst` is the rule that the member wins and the field is what is left. Evaluation keeps to it with
one exception, and `evaluate_memberFirst_iff` says which one: when the first name is that of an enum without
the member, the path is not tried.
-/

namespace BinarySchema

/-! ### Paths through scopes -/

/-- That a name comes to a result in a chain of scopes: it is the result of this name in the innermost of
the scopes that have one. -/
inductive Scope.Sees (name : String) (result : Result) : List Scope → Prop
  | here {scope : Scope} {outer : List Scope} (found : get? scope name = some result) :
      Sees name result (scope :: outer)
  | around {scope : Scope} {outer : List Scope} (unnamed : name ∉ names scope)
      (found : Sees name result outer) : Sees name result (scope :: outer)

/-- That names lead from a result to one inside it, each from one scope into the next. -/
inductive Entry.Leads : Result → List String → Result → Prop
  | here {result : Result} : Leads result [] result
  | inside {outer next result : Result} {entries : Scope} {name : String} {names : List String}
      (value : outer.value = .scope entries) (found : Scope.get? entries name = some next)
      (rest : Leads next names result) : Leads outer (name :: names) result

/-- That names lead to a result: the first one in a chain of scopes, and the others from there. -/
def Scope.LeadsTo (chain : List Scope) (owner : String) (parts : List String) (result : Result) : Prop :=
  ∃ outer, Sees owner outer chain ∧ Entry.Leads outer parts result

theorem Scope.resolve?_eq_some_iff {chain : List Scope} {name : String} {result : Result} :
    resolve? chain name = some result ↔ Sees name result chain := by
  constructor
  · intro h
    induction chain with
    | nil => cases h
    | cons scope outer ih =>
      rw [resolve?_cons] at h
      cases hfound : get? scope name with
      | some first =>
        rw [hfound, Option.some_or] at h
        cases h
        exact .here hfound
      | none =>
        rw [hfound, Option.none_or] at h
        exact .around (get?_eq_none_iff.1 hfound) (ih h)
  · intro h
    induction h with
    | here found => rw [resolve?_cons, found, Option.some_or]
    | around unnamed _ ih => rw [resolve?_cons, get?_eq_none_iff.2 unnamed, Option.none_or, ih]

theorem Expression.follow?_eq_some_iff {outer result : Result} {names : List String} :
    follow? outer names = some result ↔ Entry.Leads outer names result := by
  constructor
  · intro h
    induction names generalizing outer with
    | nil =>
      cases h
      exact .here
    | cons name names ih =>
      unfold follow? at h
      split at h
      · rename_i entries hvalue
        obtain ⟨next, hfound, hrest⟩ := Option.bind_eq_some_iff.1 h
        exact .inside hvalue hfound (ih hrest)
      · cases h
  · intro h
    induction h with
    | here => rfl
    | inside value found _ ih =>
      unfold follow?
      rw [value]
      dsimp only
      rw [found, Option.bind_some, ih]

theorem Scope.leadsTo_iff {chain : List Scope} {owner : String} {parts : List String} {result : Result} :
    LeadsTo chain owner parts result ↔
      (resolve? chain owner).bind (Expression.follow? · parts) = some result := by
  simp only [LeadsTo, Option.bind_eq_some_iff, resolve?_eq_some_iff, Expression.follow?_eq_some_iff]

theorem Scope.LeadsTo.unique {chain : List Scope} {owner : String} {parts : List String}
    {result other : Result} (h : LeadsTo chain owner parts result)
    (hother : LeadsTo chain owner parts other) : result = other := by
  rw [leadsTo_iff] at h hother
  exact Option.some.inj (h.symm.trans hother)

/-! ### Splitting at points -/

/-- That a term is a dotted word with these parts. -/
structure Term.IsDotted (term : Term) (owner : String) (parts : List String) : Prop where
  kind : term.kind = .constant
  text : term.text = ".".intercalate (owner :: parts)
  goesOn : parts ≠ []
  ownerPlain : '.' ∉ owner.toList
  partsPlain : ∀ part ∈ parts, '.' ∉ part.toList

theorem Term.IsDotted.ne_operator {term : Term} {owner : String} {parts : List String}
    (h : term.IsDotted owner parts) : term.kind ≠ .operator := by
  rw [h.kind]
  nofun

namespace Expression

open Number (Outcome)

variable {context : EvalContext} {term : Term} {owner : String} {parts : List String}

theorem splitConstant_of_isDotted (h : term.IsDotted owner parts) :
    splitConstant term.text = (owner, ".".intercalate parts) := by
  have hpoint : ".".toList = ['.'] := rfl
  obtain ⟨first, rest, hfirst⟩ := List.exists_cons_of_ne_nil h.goesOn
  have hchars : term.text.toList = owner.toList ++ '.' :: (".".intercalate parts).toList := by
    rw [h.text, hfirst, String.toList_intercalate, String.toList_intercalate, hpoint, List.map_cons,
      List.map_cons, List.intercalate_cons_cons, List.append_assoc, List.singleton_append]
  have hplain : ∀ c ∈ owner.toList, (c != '.') = true := fun c hc =>
    bne_iff_ne.2 fun heq => h.ownerPlain (heq ▸ hc)
  rw [splitConstant, hchars, List.takeWhile_append_of_pos hplain, List.dropWhile_append_of_pos hplain,
    List.takeWhile_cons_of_neg (by decide), List.dropWhile_cons_of_neg (by decide), List.append_nil,
    List.drop_one, List.tail_cons, String.ofList_toList, String.ofList_toList]

theorem pieces_of_isDotted (h : term.IsDotted owner parts) :
    Text.pieces '.' (".".intercalate parts) = parts := by
  have hpoint : ".".toList = ['.'] := rfl
  have hplain : ∀ part ∈ parts.map String.toList, '.' ∉ part := by simpa using h.partsPlain
  rw [Text.pieces, String.toList_intercalate, hpoint,
    Text.splitOn_intercalate (by simpa using h.goesOn) hplain, List.map_map]
  simp [Function.comp_def]

theorem evaluate_single (h : term.kind ≠ .operator) (start : Position) :
    evaluate ⟨[term], start⟩ context = operandValue context term := by
  have hsign (sign : String) : ¬ isOperator term sign = true := fun hsign =>
    h (isOperator_iff.1 hsign).1
  unfold evaluate unary
  rw [if_neg (hsign "!"), if_neg (hsign "-")]
  cases operandValue context term with
  | error error => rfl
  | ok value => rfl

end Expression

/-! ### Members and fields -/

/-- That a table has an enum with a member, and this value for it. -/
def TypeTable.HasMember (types : TypeTable) (owner member : String) (n : Int) : Prop :=
  ∃ enum, types.find? owner = some (.enum enum) ∧ enum.valueOf? member = some n

/-- That a table has an enum without a member. -/
def TypeTable.LacksMember (types : TypeTable) (owner member : String) : Prop :=
  ∃ enum, types.find? owner = some (.enum enum) ∧ enum.valueOf? member = none

namespace TypeTable

variable {types : TypeTable} {owner member : String} {n m : Int}

theorem HasMember.unique (h : types.HasMember owner member n) (hother : types.HasMember owner member m) :
    n = m := by
  obtain ⟨enum, hfound, hvalue⟩ := h
  obtain ⟨other, hfound', hvalue'⟩ := hother
  obtain rfl : enum = other := by simpa [hfound] using hfound'
  exact Option.some.inj (hvalue.symm.trans hvalue')

theorem LacksMember.not_hasMember (h : types.LacksMember owner member) : ¬ types.HasMember owner member n := by
  rintro ⟨enum, hfound, hvalue⟩
  obtain ⟨other, hfound', hnone⟩ := h
  obtain rfl : enum = other := by simpa [hfound] using hfound'
  rw [hvalue] at hnone
  cases hnone

theorem not_hasMember_of_noEnum (h : ∀ enum, types.find? owner ≠ some (.enum enum)) :
    ¬ types.HasMember owner member n :=
  fun ⟨enum, hfound, _⟩ => h enum hfound

theorem not_lacksMember_of_noEnum (h : ∀ enum, types.find? owner ≠ some (.enum enum)) :
    ¬ types.LacksMember owner member :=
  fun ⟨enum, hfound, _⟩ => h enum hfound

end TypeTable

namespace Expression

open Number (Outcome)

/-- The ways in which a dotted word is given a value or refused. -/
inductive Reference (context : EvalContext) (term : Term) (owner : String) (parts : List String) :
    Except EvalError Outcome → Prop
  | member {n : Int} (member : context.types.HasMember owner (".".intercalate parts) n) :
      Reference context term owner parts (.ok (.int n))
  | lacking (lacks : context.types.LacksMember owner (".".intercalate parts)) :
      Reference context term owner parts
        (.error ⟨.noMember term.text owner (".".intercalate parts), term.pos⟩)
  | field {result : Result} {n : Int} (noEnum : ∀ enum, context.types.find? owner ≠ some (.enum enum))
      (leads : Scope.LeadsTo context.scopes owner parts result) (integer : result.toInteger? = some n) :
      Reference context term owner parts (.ok (.int n))
  | noInteger {result : Result} (noEnum : ∀ enum, context.types.find? owner ≠ some (.enum enum))
      (leads : Scope.LeadsTo context.scopes owner parts result) (integer : result.toInteger? = none) :
      Reference context term owner parts (.error ⟨.noInteger result.name result.typeName, term.pos⟩)
  | nowhere (noEnum : ∀ enum, context.types.find? owner ≠ some (.enum enum))
      (nowhere : ∀ result, ¬ Scope.LeadsTo context.scopes owner parts result) :
      Reference context term owner parts (.error ⟨.unresolved term.text, term.pos⟩)

variable {context : EvalContext} {term : Term} {owner : String} {parts : List String}

theorem constantValue_reference (h : term.IsDotted owner parts) :
    Reference context term owner parts ((constantValue context term).map .int) := by
  unfold constantValue
  rw [splitConstant_of_isDotted h]
  dsimp only
  split
  · rename_i enum hfound
    cases hvalue : enum.valueOf? (".".intercalate parts) with
    | some n => exact .member ⟨enum, hfound, hvalue⟩
    | none => exact .lacking ⟨enum, hfound, hvalue⟩
  · rename_i hnone
    rw [pieces_of_isDotted h]
    cases hleads : (Scope.resolve? context.scopes owner).bind (follow? · parts) with
    | none =>
      refine .nowhere hnone fun result hresult => ?_
      rw [Scope.leadsTo_iff, hleads] at hresult
      cases hresult
    | some result =>
      dsimp only
      unfold fieldInteger
      cases hinteger : result.toInteger? with
      | some n => exact .field hnone (Scope.leadsTo_iff.2 hleads) hinteger
      | none => exact .noInteger hnone (Scope.leadsTo_iff.2 hleads) hinteger

theorem evaluate_reference (h : term.IsDotted owner parts) (context : EvalContext) (start : Position) :
    Reference context term owner parts (evaluate ⟨[term], start⟩ context) := by
  have hvalue : operandValue context term = (constantValue context term).map .int := by
    rw [operandValue, h.kind]
  rw [evaluate_single h.ne_operator, hvalue]
  exact constantValue_reference h

/-- The rule for dotted words: the value is that of the enum's member if there is one, and otherwise the
integer of the field that the parts lead to. What names neither is refused as unknown, and a field is
refused if it has no integer. -/
structure MemberFirst (context : EvalContext) (owner : String) (parts : List String)
    (value : Except EvalError Outcome) : Prop where
  member {n : Int} (h : context.types.HasMember owner (".".intercalate parts) n) : value = .ok (.int n)
  field {result : Result} {n : Int} (h : ∀ m, ¬ context.types.HasMember owner (".".intercalate parts) m)
    (leads : Scope.LeadsTo context.scopes owner parts result) (integer : result.toInteger? = some n) :
    value = .ok (.int n)
  unknown : (∃ error, value = .error error ∧ error.isUnknownName = true) ↔
    (∀ m, ¬ context.types.HasMember owner (".".intercalate parts) m) ∧
      ∀ result, ¬ Scope.LeadsTo context.scopes owner parts result
  noInteger : (∃ error, value = .error error ∧ error.isUnknownName = false) ↔
    (∀ m, ¬ context.types.HasMember owner (".".intercalate parts) m) ∧
      ∃ result, Scope.LeadsTo context.scopes owner parts result ∧ result.toInteger? = none

/-- A value keeps to the rule if it is the member's, or the field's where there is no member. -/
theorem MemberFirst.of_ok {n : Int}
    (hmember : ∀ m, context.types.HasMember owner (".".intercalate parts) m → m = n)
    (hfield : (∀ m, ¬ context.types.HasMember owner (".".intercalate parts) m) →
      ∃ result, Scope.LeadsTo context.scopes owner parts result ∧ result.toInteger? = some n) :
    MemberFirst context owner parts (.ok (.int n)) where
  member h := by rw [hmember _ h]
  field h leads integer := by
    obtain ⟨result, hleads, hinteger⟩ := hfield h
    rw [leads.unique hleads, hinteger] at integer
    rw [Option.some.inj integer]
  unknown := by
    refine ⟨nofun, fun ⟨h, hnowhere⟩ => ?_⟩
    obtain ⟨result, hleads, -⟩ := hfield h
    exact absurd hleads (hnowhere result)
  noInteger := by
    refine ⟨nofun, fun ⟨h, result, hleads, hnone⟩ => ?_⟩
    obtain ⟨other, hother, hinteger⟩ := hfield h
    rw [hleads.unique hother, hinteger] at hnone
    cases hnone

/-- An error keeps to the rule if there is no member and no integer, and it tells the two reasons for the
latter apart. -/
theorem MemberFirst.of_error {error : EvalError}
    (hmember : ∀ m, ¬ context.types.HasMember owner (".".intercalate parts) m)
    (hfield : ∀ result, Scope.LeadsTo context.scopes owner parts result → result.toInteger? = none)
    (hunknown : error.isUnknownName = true ↔ ∀ result, ¬ Scope.LeadsTo context.scopes owner parts result) :
    MemberFirst context owner parts (.error error) where
  member h := absurd h (hmember _)
  field _ leads integer := by
    rw [hfield _ leads] at integer
    cases integer
  unknown := by
    constructor
    · rintro ⟨_, heq, h⟩
      cases heq
      exact ⟨hmember, hunknown.1 h⟩
    · rintro ⟨-, hnowhere⟩
      exact ⟨error, rfl, hunknown.2 hnowhere⟩
  noInteger := by
    have hknown : error.isUnknownName = false ↔ ∃ result, Scope.LeadsTo context.scopes owner parts result := by
      rw [← Bool.not_eq_true, hunknown, Classical.not_forall_not]
    constructor
    · rintro ⟨_, heq, h⟩
      cases heq
      obtain ⟨result, hleads⟩ := hknown.1 h
      exact ⟨hmember, result, hleads, hfield result hleads⟩
    · rintro ⟨-, result, hleads, -⟩
      exact ⟨error, rfl, hknown.2 ⟨result, hleads⟩⟩

theorem Reference.memberFirst {value : Except EvalError Outcome}
    (h : Reference context term owner parts value)
    (hreached : ¬ (context.types.LacksMember owner (".".intercalate parts) ∧
      ∃ result, Scope.LeadsTo context.scopes owner parts result)) :
    MemberFirst context owner parts value := by
  cases h with
  | member hmember => exact .of_ok (fun _ h => h.unique hmember) fun h => absurd hmember (h _)
  | field noEnum leads integer =>
    exact .of_ok (fun _ h => absurd h (TypeTable.not_hasMember_of_noEnum noEnum))
      fun _ => ⟨_, leads, integer⟩
  | lacking lacks =>
    have hnowhere : ∀ result, ¬ Scope.LeadsTo context.scopes owner parts result := fun result hleads =>
      hreached ⟨lacks, result, hleads⟩
    exact .of_error (fun _ => lacks.not_hasMember) (fun _ hleads => absurd hleads (hnowhere _))
      ⟨fun _ => hnowhere, fun _ => rfl⟩
  | noInteger noEnum leads integer =>
    refine .of_error (fun _ => TypeTable.not_hasMember_of_noEnum noEnum) (fun _ hleads => ?_)
      ⟨nofun, fun hnowhere => absurd leads (hnowhere _)⟩
    rw [← leads.unique hleads, integer]
  | nowhere noEnum hnowhere =>
    exact .of_error (fun _ => TypeTable.not_hasMember_of_noEnum noEnum)
      (fun _ hleads => absurd hleads (hnowhere _)) ⟨fun _ => hnowhere, fun _ => rfl⟩

theorem Reference.eq_of_lacksMember {value : Except EvalError Outcome}
    (h : Reference context term owner parts value)
    (hlacks : context.types.LacksMember owner (".".intercalate parts)) :
    value = .error ⟨.noMember term.text owner (".".intercalate parts), term.pos⟩ := by
  cases h with
  | lacking => rfl
  | member hmember => exact absurd hmember hlacks.not_hasMember
  | field noEnum | noInteger noEnum | nowhere noEnum =>
    exact absurd hlacks (TypeTable.not_lacksMember_of_noEnum noEnum)

theorem Reference.memberFirst_iff {value : Except EvalError Outcome}
    (h : Reference context term owner parts value) :
    MemberFirst context owner parts value ↔
      ¬ (context.types.LacksMember owner (".".intercalate parts) ∧
        ∃ result, Scope.LeadsTo context.scopes owner parts result) := by
  refine ⟨fun hfirst ⟨hlacks, result, hleads⟩ => ?_, h.memberFirst⟩
  -- The word is refused as unknown, but it leads to a field.
  have hvalue := h.eq_of_lacksMember hlacks
  exact (hfirst.unknown.1 ⟨_, hvalue, rfl⟩).2 result hleads

theorem evaluate_congr_types (h : term.IsDotted owner parts) (start : Position) {types : TypeTable}
    (htypes : types.find? owner = context.types.find? owner) :
    evaluate ⟨[term], start⟩ { context with types } = evaluate ⟨[term], start⟩ context := by
  rw [evaluate_single h.ne_operator, evaluate_single h.ne_operator, operandValue, operandValue, h.kind]
  unfold constantValue
  rw [splitConstant_of_isDotted h]
  dsimp only
  rw [htypes]

/-- A dotted word means a member before it means a field, with one exception: if the enum of its first name
lacks the member, the word is refused even where it leads to a field. A definition of another name changes
nothing. -/
theorem evaluate_memberFirst_iff (h : term.IsDotted owner parts) (context : EvalContext)
    (start : Position) :
    (MemberFirst context owner parts (evaluate ⟨[term], start⟩ context) ↔
      ¬ (context.types.LacksMember owner (".".intercalate parts) ∧
        ∃ result, Scope.LeadsTo context.scopes owner parts result)) ∧
    (context.types.LacksMember owner (".".intercalate parts) → evaluate ⟨[term], start⟩ context
      = .error ⟨.noMember term.text owner (".".intercalate parts), term.pos⟩) ∧
    (∀ definition types, context.types.define definition = .ok types → definition.name ≠ owner →
      evaluate ⟨[term], start⟩ { context with types } = evaluate ⟨[term], start⟩ context) := by
  have hreference := evaluate_reference h context start
  exact ⟨hreference.memberFirst_iff, hreference.eq_of_lacksMember, fun _ _ hdefine hname =>
    evaluate_congr_types h start (TypeTable.find?_define_of_ne hdefine hname)⟩

/-- A packet whose head has a kind. -/
def packetScope : Scope :=
  let kind : Result := {
    kind := .primitive, name := "kind", offset := 0, size := 1, typeName := "byte", value := .int 7 }
  let head : Result := {
    kind := .struct, name := "head", offset := 0, size := 1, typeName := "Head", value := .scope [kind] }
  [{ kind := .struct, name := "packet", offset := 0, size := 1, typeName := "Packet"
     value := .scope [head] }]

def packetKind : Term := ⟨.constant, "packet.head.kind", ⟨2, 5⟩⟩

theorem packetKind_isDotted : packetKind.IsDotted "packet" ["head", "kind"] where
  kind := rfl
  text := by decide
  goesOn := by decide
  ownerPlain := by decide
  partsPlain := by decide

theorem packetScope_leads : ∃ result, Scope.LeadsTo [packetScope] "packet" ["head", "kind"] result ∧
    result.toInteger? = some 7 :=
  ⟨_, ⟨_, .here rfl, .inside rfl rfl (.inside rfl rfl .here)⟩, rfl⟩

def packetEnum : EnumDef := ⟨"packet", .byte, [⟨"data", 0⟩], ⟨1, 1⟩⟩

theorem evaluate_memberFirst_iff_packet :
    MemberFirst ⟨0, 1, [packetScope], .empty⟩ "packet" ["head", "kind"]
      (evaluate ⟨[packetKind], ⟨2, 5⟩⟩ ⟨0, 1, [packetScope], .empty⟩) ∧
    evaluate ⟨[packetKind], ⟨2, 5⟩⟩
        ⟨0, 1, [packetScope], { definitions := [.enum { packetEnum with name := "Port" }] }⟩
      = .ok (.int 7) := by
  have hnone : ¬ TypeTable.empty.LacksMember "packet" (".".intercalate ["head", "kind"]) :=
    TypeTable.not_lacksMember_of_noEnum nofun
  obtain ⟨hfirst, -, hdefine⟩ :=
    evaluate_memberFirst_iff packetKind_isDotted ⟨0, 1, [packetScope], .empty⟩ ⟨2, 5⟩
  refine ⟨hfirst.2 fun ⟨hlacks, _⟩ => hnone hlacks, ?_⟩
  refine (hdefine (.enum { packetEnum with name := "Port" }) _ rfl (by decide)).trans ?_
  obtain ⟨result, hleads, hinteger⟩ := packetScope_leads
  exact (hfirst.2 fun ⟨hlacks, _⟩ => hnone hlacks).field
    (fun _ => TypeTable.not_hasMember_of_noEnum nofun) hleads hinteger

/-- With the enum in the table the path to the kind is not found. -/
theorem evaluate_not_memberFirst :
    ¬ MemberFirst ⟨0, 1, [packetScope], { definitions := [.enum packetEnum] }⟩ "packet" ["head", "kind"]
      (evaluate ⟨[packetKind], ⟨2, 5⟩⟩
        ⟨0, 1, [packetScope], { definitions := [.enum packetEnum] }⟩) := by
  intro h
  have hlacks : TypeTable.LacksMember { definitions := [.enum packetEnum] } "packet"
      (".".intercalate ["head", "kind"]) := ⟨packetEnum, rfl, by decide⟩
  obtain ⟨result, hleads, -⟩ := packetScope_leads
  exact (evaluate_reference packetKind_isDotted _ _).memberFirst_iff.1 h ⟨hlacks, result, hleads⟩

end Expression

end BinarySchema
