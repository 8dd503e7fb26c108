import BinarySchema.Expression.Evaluate
import BinarySchema.Proofs.Except

/-!
# The grammar of expressions

What terms mean, said without an order of reading: a comparison joins sums, a sum joins products, a
product joins signed operands, and each of these chains is folded from its left end. `Relation` is the
whole grammar; it relates a list of terms to every value that some reading of them has.

Below it are the two places where values come from. `Operand` says what a single term stands for, and
`Operates` what an operator gives for two integers, where a quotient is what leaves a remainder that is
smaller than the divisor and not on the other side of zero.
-/

namespace BinarySchema.Expression

open Number (Outcome)

/-! ### Operands -/

/-- What a term stands for where an expression is evaluated. -/
inductive Operand (context : EvalContext) (term : Term) : Outcome → Prop
  | number {n : Int} (kind : term.kind = .number n) : Operand context term (.int n)
  | atEnd (kind : term.kind = .probe) (text : term.text = "@eof") :
      Operand context term (.bool (context.size ≤ context.position))
  | position (kind : term.kind = .probe) (text : term.text = "@pos") :
      Operand context term (.int context.position)
  | size (kind : term.kind = .probe) (text : term.text = "@size") :
      Operand context term (.int context.size)
  | field {result : Result} {n : Int} (kind : term.kind = .name)
      (found : Scope.resolve? context.scopes term.text = some result)
      (integer : result.toInteger? = some n) : Operand context term (.int n)
  | member {enum : EnumDef} {n : Int} (kind : term.kind = .constant)
      (owner : context.types.find? (splitConstant term.text).1 = some (.enum enum))
      (value : enum.valueOf? (splitConstant term.text).2 = some n) :
      Operand context term (.int n)
  | path {outer result : Result} {n : Int} (kind : term.kind = .constant)
      (owner : ∀ enum, context.types.find? (splitConstant term.text).1 ≠ some (.enum enum))
      (found : Scope.resolve? context.scopes (splitConstant term.text).1 = some outer)
      (inner : follow? outer (Text.pieces '.' (splitConstant term.text).2) = some result)
      (integer : result.toInteger? = some n) : Operand context term (.int n)

theorem fieldInteger_ok_iff {result : Result} {term : Term} {n : Int} :
    fieldInteger result term = .ok n ↔ result.toInteger? = some n := by
  unfold fieldInteger
  cases result.toInteger? <;> simp

theorem constantValue_ok {context : EvalContext} {term : Term} (h : term.kind = .constant)
    {n : Int} (hvalue : constantValue context term = .ok n) : Operand context term (.int n) := by
  unfold constantValue at hvalue
  dsimp only at hvalue
  split at hvalue
  · rename_i enum howner
    cases hmember : enum.valueOf? (splitConstant term.text).2 with
    | none => simp [hmember] at hvalue
    | some m =>
      rw [hmember] at hvalue
      cases hvalue
      exact .member h howner hmember
  · rename_i howner
    cases hfound : Scope.resolve? context.scopes (splitConstant term.text).1 with
    | none => simp [hfound] at hvalue
    | some outer =>
      rw [hfound, Option.bind_some] at hvalue
      cases hinner : follow? outer (Text.pieces '.' (splitConstant term.text).2) with
      | none => simp [hinner] at hvalue
      | some result =>
        rw [hinner] at hvalue
        exact .path h howner hfound hinner (fieldInteger_ok_iff.1 hvalue)

/-- The value that evaluation gives a term is the one that it stands for. -/
theorem operandValue_ok_iff {context : EvalContext} {term : Term} {v : Outcome} :
    operandValue context term = .ok v ↔ Operand context term v := by
  constructor
  · intro h
    unfold operandValue at h
    cases hkind : term.kind with
    | number n =>
      simp only [hkind, Except.ok.injEq] at h
      exact h ▸ .number hkind
    | probe =>
      simp only [hkind] at h
      split at h
      · cases h
        exact .atEnd hkind ‹_›
      · cases h
        exact .position hkind ‹_›
      · cases h
        exact .size hkind ‹_›
      · cases h
    | name =>
      simp only [hkind] at h
      cases hfound : Scope.resolve? context.scopes term.text with
      | none => simp [hfound] at h
      | some result =>
        rw [hfound] at h
        obtain ⟨n, hn, rfl⟩ := Except.map_ok_iff.1 h
        exact .field hkind hfound (fieldInteger_ok_iff.1 hn)
    | constant =>
      simp only [hkind] at h
      obtain ⟨n, hn, rfl⟩ := Except.map_ok_iff.1 h
      exact constantValue_ok hkind hn
    | operator => simp [hkind] at h
  · intro h
    unfold operandValue
    cases h with
    | number kind => rw [kind]
    | atEnd kind text => simp only [kind, text]
    | position kind text => simp only [kind, text]
    | size kind text => simp only [kind, text]
    | field kind found integer =>
      rw [kind]
      simp only [found]
      exact Except.map_ok_iff.2 ⟨_, fieldInteger_ok_iff.2 integer, rfl⟩
    | member kind owner value =>
      rw [kind]
      refine Except.map_ok_iff.2 ⟨_, ?_, rfl⟩
      simp only [constantValue, owner, value]
    | path kind owner found inner integer =>
      rw [kind]
      refine Except.map_ok_iff.2 ⟨_, ?_, rfl⟩
      unfold constantValue
      dsimp only
      split
      · exact absurd ‹_› (owner _)
      · rw [found, Option.bind_some, inner]
        exact fieldInteger_ok_iff.2 integer

/-! ### Operators -/

/-- What a binary operator gives for two integers. -/
inductive Operates (left right : Int) : String → Outcome → Prop
  | add : Operates left right "+" (.int (left + right))
  | subtract : Operates left right "-" (.int (left - right))
  | multiply : Operates left right "*" (.int (left * right))
  | divide {quotient remainder : Int} (nonzero : right ≠ 0)
      (split : left = quotient * right + remainder)
      (small : remainder.natAbs < right.natAbs)
      (side : remainder = 0 ∨ remainder.sign = left.sign) :
      Operates left right "/" (.int quotient)
  | equal : Operates left right "=" (.bool (left = right))
  | unequal : Operates left right "!=" (.bool (left ≠ right))
  | less : Operates left right "<" (.bool (left < right))
  | greater : Operates left right ">" (.bool (left > right))
  | atMost : Operates left right "<=" (.bool (left ≤ right))
  | atLeast : Operates left right ">=" (.bool (left ≥ right))

theorem tdiv_eq_of_split {left right quotient remainder : Int}
    (split : left = quotient * right + remainder) (small : remainder.natAbs < right.natAbs)
    (side : remainder = 0 ∨ remainder.sign = left.sign) : left.tdiv right = quotient := by
  have hright : right ≠ 0 := by
    rintro rfl
    simp at small
  have hsum : remainder + right * quotient = left := by
    rw [split, Int.mul_comm, Int.add_comm]
  rcases Int.le_total 0 left with hleft | hleft
  · have hsign : 0 ≤ remainder := by
      rcases side with rfl | hside
      · exact Int.le_refl 0
      · rw [← Int.sign_nonneg_iff, hside, Int.sign_nonneg_iff]
        exact hleft
    exact ((Int.tdiv_tmod_unique hleft hright).2 ⟨hsum, hsign, by omega⟩).1
  · have hsign : remainder ≤ 0 := by
      rcases side with rfl | hside
      · exact Int.le_refl 0
      · rw [← Int.sign_nonpos_iff, hside, Int.sign_nonpos_iff]
        exact hleft
    exact ((Int.tdiv_tmod_unique' hleft hright).2 ⟨hsum, by omega, hsign⟩).1

theorem operates_tdiv {left right : Int} (hright : right ≠ 0) :
    Operates left right "/" (.int (left.tdiv right)) := by
  have hsplit : left = left.tdiv right * right + left.tmod right := by
    rw [Int.mul_comm, Int.add_comm, Int.tmod_add_mul_tdiv]
  have hsmall : (left.tmod right).natAbs < right.natAbs := by
    rw [Int.natAbs_tmod]
    exact Nat.mod_lt _ (Int.natAbs_pos.2 hright)
  refine .divide hright hsplit hsmall ?_
  by_cases hdvd : right ∣ left
  · exact .inl (Int.tmod_eq_zero_of_dvd hdvd)
  · right
    rw [Int.sign_tmod, if_neg hdvd]

theorem precedence?_eq_some_iff {operator : String} {level : Nat} :
    precedence? operator = some level ↔
      level = 3 ∧ operator ∈ ["*", "/"] ∨ level = 2 ∧ operator ∈ ["+", "-"] ∨
        level = 1 ∧ operator ∈ ["=", "!=", "<", ">", "<=", ">="] := by
  constructor
  · intro h
    unfold precedence? at h
    split at h <;> cases h <;> simp
  · simp only [List.mem_cons, List.not_mem_nil, or_false]
    rintro (⟨rfl, rfl | rfl⟩ | ⟨rfl, rfl | rfl⟩ | ⟨rfl, rfl | rfl | rfl | rfl | rfl | rfl⟩) <;> rfl

theorem operate?_eq_some_iff {operator : String} {level : Nat}
    (h : precedence? operator = some level) {left right : Int} {v : Outcome} :
    operate? operator left right = some v ↔ Operates left right operator v := by
  constructor
  · intro hvalue
    simp only [precedence?_eq_some_iff, List.mem_cons, List.not_mem_nil, or_false] at h
    rcases h with ⟨-, rfl | rfl⟩ | ⟨-, rfl | rfl⟩ | ⟨-, rfl | rfl | rfl | rfl | rfl | rfl⟩
    case inl.inr =>
      by_cases hright : right = 0
      · simp [operate?, hright] at hvalue
      · rw [operate?, if_neg hright] at hvalue
        cases hvalue
        exact operates_tdiv hright
    all_goals
      cases hvalue
      constructor
  · intro hoperates
    cases hoperates with
    | divide nonzero split small side =>
      rw [operate?, if_neg nonzero, tdiv_eq_of_split split small side]
    | _ => rfl

/-! ### Layers -/

/-- One or more parts with operators between them, folded from the left. -/
inductive Chain (operators : List String) (part : List Term → Outcome → Prop) :
    List Term → Outcome → Prop
  | one {terms : List Term} {v : Outcome} (only : part terms v) : Chain operators part terms v
  | more {left right : List Term} {operator : Term} {l r v : Outcome}
      (front : Chain operators part left l) (kind : operator.kind = .operator)
      (listed : operator.text ∈ operators) (last : part right r)
      (value : Operates l.toInt r.toInt operator.text v) :
      Chain operators part (left ++ operator :: right) v

/-- An operand behind any number of signs. -/
inductive Unary (context : EvalContext) : List Term → Outcome → Prop
  | operand {term : Term} {v : Outcome} (value : Operand context term v) : Unary context [term] v
  | not {sign : Term} {terms : List Term} {v : Outcome} (kind : sign.kind = .operator)
      (text : sign.text = "!") (inner : Unary context terms v) :
      Unary context (sign :: terms) (.bool (v.toInt = 0))
  | negative {sign : Term} {terms : List Term} {v : Outcome} (kind : sign.kind = .operator)
      (text : sign.text = "-") (inner : Unary context terms v) :
      Unary context (sign :: terms) (.int (-v.toInt))

def Product (context : EvalContext) : List Term → Outcome → Prop :=
  Chain ["*", "/"] (Unary context)

def Sum (context : EvalContext) : List Term → Outcome → Prop :=
  Chain ["+", "-"] (Product context)

def Relation (context : EvalContext) : List Term → Outcome → Prop :=
  Chain ["=", "!=", "<", ">", "<=", ">="] (Sum context)

end BinarySchema.Expression
