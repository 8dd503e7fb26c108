import BinarySchema.Proofs.Decode.Step
import BinarySchema.Proofs.Expression.Constants
import BinarySchema.Proofs.Schema.Identifiers
import BinarySchema.Proofs.Token.Layout

/-!
# Enum fields and enum constants

A decode looks the members of an enum up by value, and shows the name of the first one that has it. An
expression looks them up by name, and takes the value of the first one that has it. Both end in the list of
members, so a name that is shown is always a constant, in every context of the same types; names of compiled
schemas have no points in them, which makes the constant a word of an expression.

The constant is the field's raw integer if all members of the name have one value. Members with one value
and several names are no obstacle. But a name may be declared twice with different values, and then the
second value is shown under a name that stands for the first.
-/

namespace BinarySchema

def EnumDef.word (enumName member : String) (pos : Position) : Term :=
  ⟨.constant, ".".intercalate [enumName, member], pos⟩

/-- That a term mentions a decoded field, by its name or by a path to it. -/
inductive Term.Mentions (context : EvalContext) (result : Result) (term : Term) : Prop
  | name (kind : term.kind = .name) (found : Scope.Sees term.text result context.scopes)
  | path {owner : String} {parts : List String} (word : term.IsDotted owner parts)
      (noEnum : ∀ enum, context.types.find? owner ≠ some (.enum enum))
      (leads : Scope.LeadsTo context.scopes owner parts result)

namespace EnumDef

variable {type : EnumDef} {raw : Int} {name : String}

/-- That the members of one name have one value. -/
def Unambiguous (type : EnumDef) : Prop :=
  ∀ member ∈ type.members, ∀ other ∈ type.members, member.name = other.name → member.value = other.value

theorem mem_of_memberValue (h : Decoder.memberValue type raw = .text name) :
    ⟨name, raw⟩ ∈ type.members := by
  unfold Decoder.memberValue at h
  cases hfound : type.memberFor? raw with
  | none => simp [hfound] at h
  | some member =>
    simp only [hfound, Datum.text.injEq] at h
    have hvalue : member.value = raw := by simpa using List.find?_some hfound
    have hmember := List.mem_of_find?_eq_some hfound
    rwa [← h, ← hvalue]

theorem exists_valueOf? (h : ⟨name, raw⟩ ∈ type.members) :
    ∃ first, type.valueOf? name = some first ∧ ⟨name, first⟩ ∈ type.members := by
  obtain ⟨member, hfound⟩ : ∃ member, type.members.find? (·.name = name) = some member := by
    rw [← Option.isSome_iff_exists, List.find?_isSome]
    exact ⟨_, h, by simp⟩
  have hname : member.name = name := by simpa using List.find?_some hfound
  refine ⟨member.value, by rw [valueOf?, hfound, Option.map_some], ?_⟩
  rw [← hname]
  exact List.mem_of_find?_eq_some hfound

end EnumDef

namespace Expression

open Number (Outcome)

variable {context : EvalContext} {left right : Term} {l r : Outcome} {result : Result} {n : Int}

theorem evaluate_equals (hleft : Operand context left l) (hright : Operand context right r)
    (sign start : Position) : evaluate ⟨[left, ⟨.operator, "=", sign⟩, right], start⟩ context
      = .ok (.bool (l.toInt = r.toInt)) := by
  refine evaluate_ok_iff.2 ⟨[], [left], l, _, rfl, .operand hleft, ?_⟩
  have hjoins : Climbs context 0 l (⟨.operator, "=", sign⟩ :: ([right] ++ []))
      (.bool (l.toInt = r.toInt)) [] :=
    .joins ⟨rfl, rfl⟩ (Nat.zero_le 1) (.operand hright) .ends .equal .ends
  exact hjoins

theorem operand_of_mentions (h : left.Mentions context result) (hinteger : result.toInteger? = some n) :
    Operand context left (.int n) := by
  cases h with
  | name kind found => exact .field kind (Scope.resolve?_eq_some_iff.2 found) hinteger
  | @path owner parts word noEnum leads =>
    obtain ⟨outer, hsees, hinner⟩ := leads
    have hsplit := splitConstant_of_isDotted word
    have howner : ∀ enum, context.types.find? (splitConstant left.text).1 ≠ some (.enum enum) := by
      rwa [hsplit]
    have hfound : Scope.resolve? context.scopes (splitConstant left.text).1 = some outer := by
      rw [hsplit]
      exact Scope.resolve?_eq_some_iff.2 hsees
    have hfollow : follow? outer (Text.pieces '.' (splitConstant left.text).2) = some result := by
      rw [hsplit, pieces_of_isDotted word]
      exact follow?_eq_some_iff.2 hinner
    exact .path word.kind howner hfound hfollow hinteger

theorem operand_word {enumName member : String} {type : EnumDef} {pos : Position}
    (hword : (EnumDef.word enumName member pos).IsDotted enumName [member])
    (hfound : context.types.find? enumName = some (.enum type)) (hvalue : type.valueOf? member = some n) :
    Operand context (EnumDef.word enumName member pos) (.int n) := by
  have hsplit : splitConstant (EnumDef.word enumName member pos).text = (enumName, member) :=
    splitConstant_of_isDotted hword
  have howner : context.types.find? (splitConstant (EnumDef.word enumName member pos).text).1
      = some (.enum type) := by rwa [hsplit]
  have hmember : type.valueOf? (splitConstant (EnumDef.word enumName member pos).text).2 = some n := by
    rwa [hsplit]
  exact .member hword.kind howner hmember

theorem evaluate_word {enumName member : String} {type : EnumDef} {pos : Position}
    (hword : (EnumDef.word enumName member pos).IsDotted enumName [member])
    (hfound : context.types.find? enumName = some (.enum type)) (hvalue : type.valueOf? member = some n)
    (start : Position) : evaluate ⟨[EnumDef.word enumName member pos], start⟩ context = .ok (.int n) := by
  rw [evaluate_single hword.ne_operator]
  exact operandValue_ok_iff.2 (operand_word hword hfound hvalue)

theorem condition_equals_word {enumName member : String} {type : EnumDef} {pos : Position} {m : Int}
    (hword : (EnumDef.word enumName member pos).IsDotted enumName [member])
    (hfound : context.types.find? enumName = some (.enum type)) (hvalue : type.valueOf? member = some n)
    (hmentions : left.Mentions context result) (hinteger : result.toInteger? = some m)
    (sign start : Position) :
    condition ⟨[left, ⟨.operator, "=", sign⟩, EnumDef.word enumName member pos], start⟩ context
      = .ok (m = n) :=
  condition_of_bool (evaluate_equals (operand_of_mentions hmentions hinteger)
    (operand_word hword hfound hvalue) sign start)

end Expression

/-! ### Fields of compiled schemas -/

theorem Schema.Compiled.isDotted_word {schema : Schema} (h : schema.Compiled) {enumName member : String}
    {type : EnumDef} (hfound : schema.types.find? enumName = some (.enum type)) {value : Int}
    (hmember : ⟨member, value⟩ ∈ type.members) (pos : Position) :
    (EnumDef.word enumName member pos).IsDotted enumName [member] := by
  have hplain := h.plainNames _ (TypeTable.mem_of_find? hfound)
  have hname : type.name = enumName := TypeTable.name_of_find? hfound
  refine ⟨rfl, rfl, List.cons_ne_nil _ _, ?_, ?_⟩
  · rw [← hname]
    exact Piece.point_not_mem_of_isIdentifier hplain.name
  · rw [List.forall_mem_singleton]
    exact Piece.point_not_mem_of_isIdentifier
      (hplain.members _ (List.mem_map_of_mem (f := EnumMember.name) hmember))

/-- A field of an enum that shows a name has the raw integer of a member of this name. The name's constant
is the value of the first member of the name, so that the field equals it exactly if its own member has
this value, as it has if no name is declared with two values. -/
theorem shown_name_constant {schema : Schema} (hcompiled : schema.Compiled) {options : Options}
    {enter : List Node → Decoder Scope} {enumName name shown : String} {comment : Option String}
    {r s : Reading} {result : Result}
    (h : Decoder.value ⟨schema.types, options⟩ enter (.named .enum enumName) name comment r
      = .ok result s) (hshown : result.value = .text shown) :
    ∃ type raw first, schema.types.find? enumName = some (.enum type) ∧ result.raw = some raw ∧
      ⟨shown, raw⟩ ∈ type.members ∧ type.valueOf? shown = some first ∧
      (type.Unambiguous → first = raw) ∧
      ∀ (context : EvalContext) (pos start : Position), context.types = schema.types →
        Expression.evaluate ⟨[EnumDef.word enumName shown pos], start⟩ context = .ok (.int first) ∧
        ∀ (term : Term) (sign : Position), term.Mentions context result →
          Expression.condition ⟨[term, ⟨.operator, "=", sign⟩, EnumDef.word enumName shown pos], start⟩
            context = .ok (raw = first) := by
  cases Decoder.value_ok h with
  | @enum _ type _ _ found run =>
    obtain ⟨raw, size, t, -, -, rfl⟩ := Decoder.enum_ok run
    have hmember : ⟨shown, raw⟩ ∈ type.members := EnumDef.mem_of_memberValue hshown
    obtain ⟨first, hfirst, hfirstMember⟩ := EnumDef.exists_valueOf? hmember
    refine ⟨type, raw, first, found, rfl, hmember, hfirst,
      fun hunambiguous => hunambiguous _ hfirstMember _ hmember rfl, ?_⟩
    intro context pos start htypes
    have hword := hcompiled.isDotted_word found hmember pos
    have found' : context.types.find? enumName = some (.enum type) := by rwa [htypes]
    exact ⟨Expression.evaluate_word hword found' hfirst start, fun term sign hmentions =>
      Expression.condition_equals_word hword found' hfirst hmentions rfl sign start⟩

def Schema.enum? (schema : Schema) (name : String) : Option EnumDef :=
  match schema.types.find? name with
  | some (.enum type) => some type
  | _ => none

theorem Schema.exists_compiled {text name : String} {type : EnumDef}
    (h : (compile {} text).toOption.bind (·.enum? name) = some type) :
    ∃ schema : Schema, schema.Compiled ∧ schema.types.find? name = some (.enum type) := by
  cases hrun : compile {} text with
  | error e =>
    rw [hrun] at h
    cases h
  | ok schema =>
    rw [hrun] at h
    change schema.enum? name = some type at h
    refine ⟨schema, .text hrun, ?_⟩
    unfold enum? at h
    split at h
    · rename_i found hfound
      rw [hfound, Option.some.inj h]
    · cases h

/-- Two names for one value, and none of them for two. -/
def EnumDef.switch : EnumDef :=
  ⟨"Switch", .short, [⟨"Off", 0⟩, ⟨"On", -2⟩, ⟨"Active", -2⟩], ⟨1, 6⟩⟩

theorem shown_name_constant_switch : ∃ (schema : Schema) (result : Result) (s : Reading),
    schema.Compiled ∧ schema.types.find? "Switch" = some (.enum .switch) ∧
    Decoder.value ⟨schema.types, {}⟩ (fun _ => throw .endless) (.named .enum "Switch") "s" none
      ⟨.ofBytes [0xfe, 0xff], []⟩ = .ok result s ∧
    result.value = .text "On" ∧ result.raw = some (-2) ∧
    Expression.evaluate ⟨[EnumDef.word "Switch" "On" ⟨2, 1⟩], ⟨2, 1⟩⟩ ⟨2, 2, [[result]], schema.types⟩
      = .ok (.int (-2)) := by
  have hcompile : (Schema.compile {} "enum Switch:short\x7bOff,On=-2,Active=-2\x7d").toOption.bind
      (·.enum? "Switch") = some .switch := by decide +kernel
  obtain ⟨schema, hcompiled, hfound⟩ := Schema.exists_compiled hcompile
  obtain ⟨result, s, hrun, hshown, hraw⟩ : ∃ result s, Decoder.value ⟨schema.types, {}⟩
      (fun _ => throw .endless) (.named .enum "Switch") "s" none ⟨.ofBytes [0xfe, 0xff], []⟩
        = .ok result s ∧ result.value = .text "On" ∧ result.raw = some (-2) := by
    unfold Decoder.value
    simp only [hfound]
    exact ⟨_, _, rfl, rfl, rfl⟩
  obtain ⟨type, raw, first, hfound', hraw', -, -, hfirst, hvalue⟩ :=
    shown_name_constant hcompiled hrun hshown
  obtain rfl : type = .switch := by simpa [hfound] using hfound'.symm
  have hunambiguous : EnumDef.switch.Unambiguous := by
    unfold EnumDef.Unambiguous
    decide
  obtain rfl : raw = -2 := Option.some.inj (hraw'.symm.trans hraw)
  obtain rfl := hfirst hunambiguous
  exact ⟨schema, result, s, hcompiled, hfound, hrun, hshown, hraw,
    (hvalue ⟨2, 2, [[result]], schema.types⟩ ⟨2, 1⟩ ⟨2, 1⟩ rfl).1⟩

/-- One name for two values. -/
def EnumDef.doubled : EnumDef :=
  ⟨"Switch", .byte, [⟨"On", 1⟩, ⟨"On", 2⟩], ⟨1, 6⟩⟩

/-- A field with the second value of a name shows the name, and does not equal the name's constant. -/
theorem shown_name_of_second_value : ∃ (schema : Schema) (result : Result) (s : Reading),
    schema.Compiled ∧ schema.types.find? "Switch" = some (.enum .doubled) ∧
    Decoder.value ⟨schema.types, {}⟩ (fun _ => throw .endless) (.named .enum "Switch") "s" none
      ⟨.ofBytes [2], []⟩ = .ok result s ∧
    result.value = .text "On" ∧ result.raw = some 2 ∧
    Expression.evaluate ⟨[EnumDef.word "Switch" "On" ⟨2, 5⟩], ⟨2, 5⟩⟩ ⟨1, 1, [[result]], schema.types⟩
      = .ok (.int 1) ∧
    Expression.condition
      ⟨[⟨.name, "s", ⟨2, 1⟩⟩, ⟨.operator, "=", ⟨2, 3⟩⟩, EnumDef.word "Switch" "On" ⟨2, 5⟩], ⟨2, 1⟩⟩
      ⟨1, 1, [[result]], schema.types⟩ = .ok false := by
  have hcompile : (Schema.compile {} "enum Switch:byte\x7bOn=1,On=2\x7d").toOption.bind
      (·.enum? "Switch") = some .doubled := by decide +kernel
  obtain ⟨schema, hcompiled, hfound⟩ := Schema.exists_compiled hcompile
  obtain ⟨result, s, hrun, hshown, hraw, hname⟩ : ∃ result s, Decoder.value ⟨schema.types, {}⟩
      (fun _ => throw .endless) (.named .enum "Switch") "s" none ⟨.ofBytes [2], []⟩ = .ok result s ∧
        result.value = .text "On" ∧ result.raw = some 2 ∧ Scope.get? [result] "s" = some result := by
    unfold Decoder.value
    simp only [hfound]
    exact ⟨_, _, rfl, rfl, rfl, rfl⟩
  have hmember : (⟨"On", 1⟩ : EnumMember) ∈ EnumDef.doubled.members := List.mem_cons_self
  have hword := hcompiled.isDotted_word hfound hmember ⟨2, 5⟩
  have hvalue : EnumDef.doubled.valueOf? "On" = some 1 := by decide
  have hinteger : result.toInteger? = some 2 := by rw [Entry.toInteger?, hraw, Option.orElse_some]
  have hmentions : Term.Mentions ⟨1, 1, [[result]], schema.types⟩ result ⟨.name, "s", ⟨2, 1⟩⟩ :=
    .name rfl (.here hname)
  exact ⟨schema, result, s, hcompiled, hfound, hrun, hshown, hraw,
    Expression.evaluate_word hword hfound hvalue ⟨2, 5⟩,
    Expression.condition_equals_word hword hfound hvalue hmentions hinteger ⟨2, 3⟩ ⟨2, 1⟩⟩

end BinarySchema
