import BinarySchema.Proofs.Expression.Grammar

/-!
# Climbing precedences

Evaluation reads terms by climbing precedences, in one recursion and from left to right. This module
shows that it reads the grammar.

`Climbs` is what a successful climb does, without counting its steps. From there both directions go
through the layers of the grammar. A climb that starts behind a reading at some layer ends behind a
reading at the layer it was asked for, in front of an operator that binds more loosely; and a reading
at a layer can stand for its terms in every climb that is asked for this layer or a looser one.
-/

namespace BinarySchema.Expression

open Number (Outcome)

variable {whole : Expression} {context : EvalContext}

/-! ### Signed operands -/

theorem isOperator_iff {term : Term} {text : String} :
    isOperator term text = true ↔ term.kind = .operator ∧ term.text = text := by
  simp [isOperator]

theorem not_operand_of_operator {term : Term} (h : term.kind = .operator) {v : Outcome} :
    ¬ Operand context term v := by
  intro hoperand
  cases hoperand <;> simp_all

theorem unary_ok {terms rest : List Term} {v : Outcome}
    (h : unary whole context terms = .ok (v, rest)) :
    ∃ front, terms = front ++ rest ∧ Unary context front v := by
  induction terms generalizing v with
  | nil => cases h
  | cons term terms ih =>
    unfold unary at h
    by_cases hnot : isOperator term "!" = true
    · rw [if_pos hnot] at h
      obtain ⟨⟨inner, left⟩, hinner, hpure⟩ := Except.bind_ok_iff.1 h
      cases hpure
      obtain ⟨front, rfl, hfront⟩ := ih hinner
      obtain ⟨hkind, htext⟩ := isOperator_iff.1 hnot
      exact ⟨term :: front, rfl, .not hkind htext hfront⟩
    rw [if_neg hnot] at h
    by_cases hminus : isOperator term "-" = true
    · rw [if_pos hminus] at h
      obtain ⟨⟨inner, left⟩, hinner, hpure⟩ := Except.bind_ok_iff.1 h
      cases hpure
      obtain ⟨front, rfl, hfront⟩ := ih hinner
      obtain ⟨hkind, htext⟩ := isOperator_iff.1 hminus
      exact ⟨term :: front, rfl, .negative hkind htext hfront⟩
    · rw [if_neg hminus] at h
      obtain ⟨value, hvalue, hpure⟩ := Except.bind_ok_iff.1 h
      cases hpure
      exact ⟨[term], rfl, .operand (operandValue_ok_iff.1 hvalue)⟩

theorem unary_of_unary {front : List Term} {v : Outcome} (h : Unary context front v)
    (rest : List Term) : unary whole context (front ++ rest) = .ok (v, rest) := by
  induction h with
  | operand value =>
    rename_i term v
    have hno (text : String) : ¬ isOperator term text = true := fun hsign =>
      not_operand_of_operator (isOperator_iff.1 hsign).1 value
    rw [List.singleton_append, unary, if_neg (hno _), if_neg (hno _)]
    exact Except.bind_ok_iff.2 ⟨v, operandValue_ok_iff.2 value, rfl⟩
  | not kind text inner ih =>
    rw [List.cons_append, unary, if_pos (isOperator_iff.2 ⟨kind, text⟩)]
    exact Except.bind_ok_iff.2 ⟨_, ih, rfl⟩
  | negative kind text inner ih =>
    rename_i sign terms v
    have hno : ¬ isOperator sign "!" = true := by
      intro hsign
      rw [isOperator_iff, text] at hsign
      exact absurd hsign.2 (by decide)
    rw [List.cons_append, unary, if_neg hno, if_pos (isOperator_iff.2 ⟨kind, text⟩)]
    exact Except.bind_ok_iff.2 ⟨_, ih, rfl⟩

theorem Unary.ne_nil {front : List Term} {v : Outcome} (h : Unary context front v) :
    front ≠ [] := by
  cases h <;> simp

/-! ### Climbs -/

/-- Whether a term is a binary operator of a level. -/
structure Binds (term : Term) (level : Nat) : Prop where
  kind : term.kind = .operator
  level : precedence? term.text = some level

theorem operatorPrecedence_ok_iff {term : Term} {level : Nat} :
    operatorPrecedence term = .ok level ↔ Binds term level := by
  constructor
  · intro h
    unfold operatorPrecedence at h
    split at h
    · rename_i hkind hlevel
      cases h
      exact ⟨hkind, hlevel⟩
    · cases h
  · rintro ⟨hkind, hlevel⟩
    rw [operatorPrecedence, hkind, hlevel]

/-- Extending a left operand by the operators in front that bind at least as closely as `least`. -/
inductive Climbs (context : EvalContext) :
    (least : Nat) → Outcome → List Term → Outcome → List Term → Prop
  | ends {least : Nat} {left : Outcome} : Climbs context least left [] left []
  | stops {least level : Nat} {left : Outcome} {term : Term} {rest : List Term}
      (binds : Binds term level) (loose : level < least) :
      Climbs context least left (term :: rest) left (term :: rest)
  | joins {least level : Nat} {left operand right value result : Outcome} {term : Term}
      {front after remaining rest : List Term} (binds : Binds term level) (close : least ≤ level)
      (first : Unary context front operand)
      (inner : Climbs context (level + 1) operand after right remaining)
      (operates : Operates left.toInt right.toInt term.text value)
      (outer : Climbs context least value remaining result rest) :
      Climbs context least left (term :: (front ++ after)) result rest

theorem extend_ok {steps least : Nat} {left v : Outcome} {terms rest : List Term}
    (h : extend whole context steps least left terms = .ok (v, rest)) :
    Climbs context least left terms v rest := by
  -- Both climbs that follow an operator have a step less, so the induction is on the steps.
  induction steps generalizing least left v terms rest with
  | zero =>
    cases terms with
    | nil =>
      cases h
      exact .ends
    | cons term terms => cases h
  | succ steps ih =>
    cases terms with
    | nil =>
      cases h
      exact .ends
    | cons term terms =>
      rw [extend] at h
      obtain ⟨level, hlevel, hclose⟩ := Except.bind_ok_iff.1 h
      have hbinds := operatorPrecedence_ok_iff.1 hlevel
      by_cases hloose : level < least
      · rw [if_pos hloose] at hclose
        cases hclose
        exact .stops hbinds hloose
      rw [if_neg hloose] at hclose
      obtain ⟨⟨operand, after⟩, hunary, hright⟩ := Except.bind_ok_iff.1 hclose
      obtain ⟨⟨right, remaining⟩, hinner, houter⟩ := Except.bind_ok_iff.1 hright
      obtain ⟨front, rfl, hfront⟩ := unary_ok hunary
      cases hoperate : operate? term.text left.toInt right.toInt with
      | none => simp [hoperate] at houter
      | some value =>
        simp only [hoperate] at houter
        have hoperates := (operate?_eq_some_iff hbinds.level).1 hoperate
        exact .joins hbinds (Nat.le_of_not_lt hloose) hfront (ih hinner) hoperates (ih houter)

theorem Climbs.length_le {least : Nat} {left v : Outcome} {terms rest : List Term}
    (h : Climbs context least left terms v rest) : rest.length ≤ terms.length := by
  induction h with
  | ends => exact Nat.le_refl _
  | stops => exact Nat.le_refl _
  | joins _ _ _ _ _ _ hinner houter =>
    rw [List.length_cons, List.length_append]
    omega

/-- As many steps as there are terms are enough for a climb. -/
theorem Climbs.extend {least : Nat} {left v : Outcome} {terms rest : List Term}
    (h : Climbs context least left terms v rest) {steps : Nat} (hsteps : terms.length ≤ steps) :
    extend whole context steps least left terms = .ok (v, rest) := by
  induction h generalizing steps with
  | ends => cases steps <;> rfl
  | stops binds loose =>
    cases steps with
    | zero => simp at hsteps
    | succ steps =>
      rw [Expression.extend]
      refine Except.bind_ok_iff.2 ⟨_, operatorPrecedence_ok_iff.2 binds, ?_⟩
      rw [if_pos loose]
      rfl
  | @joins least level left operand right value result term front after remaining rest
      binds close first inner operates outer hinner houter =>
    have hremaining := inner.length_le
    rw [List.length_cons, List.length_append] at hsteps
    cases steps with
    | zero => omega
    | succ steps =>
      rw [Expression.extend]
      refine Except.bind_ok_iff.2 ⟨_, operatorPrecedence_ok_iff.2 binds, ?_⟩
      rw [if_neg (Nat.not_lt.2 close)]
      refine Except.bind_ok_iff.2 ⟨_, unary_of_unary first after, ?_⟩
      refine Except.bind_ok_iff.2 ⟨_, hinner (by omega), ?_⟩
      simp only [(operate?_eq_some_iff binds.level).2 operates]
      exact houter (by omega)

/-! ### Layers -/

/-- The readings whose operators bind at least as closely as a level. -/
def Layer (context : EvalContext) : (level : Nat) → List Term → Outcome → Prop
  | 0 | 1 => Relation context
  | 2 => Sum context
  | 3 => Product context
  | _ => Unary context

theorem Layer.loosen {level : Nat} {terms : List Term} {v : Outcome}
    (h : Layer context (level + 1) terms v) : Layer context level terms v := by
  match level with
  | 0 => exact h
  | 1 => exact .one h
  | 2 => exact .one h
  | 3 => exact .one h
  | _ + 4 => exact h

theorem Layer.mono {least level : Nat} (hle : least ≤ level) {terms : List Term} {v : Outcome}
    (h : Layer context level terms v) : Layer context least terms v := by
  induction hle with
  | refl => exact h
  | step _ ih => exact ih h.loosen

/-- An operator joins a reading of its own layer with one of the next. -/
theorem Layer.join {level : Nat} {operator : Term} (binds : Binds operator level)
    {left right : List Term} {l r v : Outcome} (hleft : Layer context level left l)
    (hright : Layer context (level + 1) right r)
    (hvalue : Operates l.toInt r.toInt operator.text v) :
    Layer context level (left ++ operator :: right) v := by
  rcases precedence?_eq_some_iff.1 binds.level with ⟨rfl, hlisted⟩ | ⟨rfl, hlisted⟩ | ⟨rfl, hlisted⟩
  · exact .more hleft binds.kind hlisted hright hvalue
  · exact .more hleft binds.kind hlisted hright hvalue
  · exact .more hleft binds.kind hlisted hright hvalue

/-- Whether terms are at their end or in front of an operator of a level below the bound. -/
def Below (bound : Nat) (terms : List Term) : Prop :=
  ∀ term ∈ terms.head?, ∃ level < bound, Binds term level

theorem Below.mono {bound larger : Nat} (hle : bound ≤ larger) {terms : List Term}
    (h : Below bound terms) : Below larger terms := by
  intro term hterm
  obtain ⟨level, hlevel, hbinds⟩ := h term hterm
  exact ⟨level, Nat.lt_of_lt_of_le hlevel hle, hbinds⟩

theorem Binds.level_lt {term : Term} {level : Nat} (h : Binds term level) : level < 4 := by
  rcases precedence?_eq_some_iff.1 h.level with ⟨rfl, -⟩ | ⟨rfl, -⟩ | ⟨rfl, -⟩ <;> decide

theorem Binds.below {term : Term} {level : Nat} (h : Binds term level) (rest : List Term) :
    Below (level + 1) (term :: rest) := by
  intro _ hterm
  cases hterm
  exact ⟨level, Nat.lt_succ_self level, h⟩

theorem Climbs.begins {least : Nat} {left v : Outcome} {terms rest : List Term}
    (h : Climbs context least left terms v rest) : Below 4 terms := by
  cases h with
  | ends => simp [Below]
  | stops binds _ => exact (binds.below _).mono binds.level_lt
  | joins binds _ _ _ _ _ => exact (binds.below _).mono binds.level_lt

theorem Below.climbs {bound : Nat} {terms : List Term} (h : Below bound terms) (v : Outcome) :
    Climbs context bound v terms v terms := by
  cases terms with
  | nil => exact .ends
  | cons term terms =>
    obtain ⟨level, hlevel, hbinds⟩ := h term rfl
    exact .stops hbinds hlevel

/-- A climb behind a reading ends behind a reading. -/
theorem Climbs.layer {least : Nat} {left v : Outcome} {terms rest : List Term}
    (h : Climbs context least left terms v rest) {level : Nat} (hle : least ≤ level)
    (hbelow : Below (level + 1) terms) {read : List Term} (hread : Layer context level read left) :
    ∃ front, terms = front ++ rest ∧ Layer context least (read ++ front) v ∧ Below least rest := by
  induction h generalizing level read with
  | ends =>
    refine ⟨[], rfl, ?_, by simp [Below]⟩
    rw [List.append_nil]
    exact hread.mono hle
  | stops binds loose =>
    refine ⟨[], rfl, ?_, ?_⟩
    · rw [List.append_nil]
      exact hread.mono hle
    · intro term hterm
      cases hterm
      exact ⟨_, loose, binds⟩
  | @joins least own left operand right value result term front after remaining rest
      binds close first inner operates outer hinner houter =>
    -- What was read so far can be a left operand, since the operator binds no closer than it.
    have hown : own ≤ level := by
      obtain ⟨_, hlt, hsame⟩ := hbelow term rfl
      obtain rfl := Option.some.inj (hsame.level.symm.trans binds.level)
      exact Nat.le_of_lt_succ hlt
    -- The right operand begins as a signed operand, at the innermost layer.
    have hclosest : own + 1 ≤ 4 := binds.level_lt
    obtain ⟨inside, rfl, hright, hremaining⟩ :=
      hinner hclosest (inner.begins.mono (Nat.le_succ 4)) first
    have hjoined := Layer.join binds (hread.mono hown) hright operates
    obtain ⟨behind, rfl, hresult, hrest⟩ := houter close hremaining hjoined
    refine ⟨term :: (front ++ inside ++ behind), by simp, ?_, hrest⟩
    have hterms : read ++ term :: (front ++ inside ++ behind)
        = read ++ term :: (front ++ inside) ++ behind := by simp
    rw [hterms]
    exact hresult

/-! ### Readings as operands -/

/-- Whether a climb that wants operators of some level may take a first operand from the terms and come
to the result. -/
def Reads (context : EvalContext) (least : Nat) (terms : List Term) (v : Outcome)
    (rest : List Term) : Prop :=
  ∃ front operand after, terms = front ++ after ∧ Unary context front operand ∧
    Climbs context least operand after v rest

/-- Whether a value can stand for terms in all climbs for a level or a looser one. -/
def StandsFor (context : EvalContext) (level : Nat) (v : Outcome) (terms : List Term) : Prop :=
  ∀ least ≤ level, ∀ rest, Below (level + 1) rest → ∀ result last,
    Climbs context least v rest result last → Reads context least (terms ++ rest) result last

theorem Unary.standsFor {level : Nat} {terms : List Term} {v : Outcome}
    (h : Unary context terms v) : StandsFor context level v terms :=
  fun _ _ rest _ _ _ hclimbs => ⟨terms, v, rest, rfl, h, hclimbs⟩

theorem Chain.standsFor {level : Nat} {operators : List String}
    {part : List Term → Outcome → Prop}
    (hoperators : ∀ operator ∈ operators, precedence? operator = some level)
    (hpart : ∀ terms v, part terms v → StandsFor context (level + 1) v terms)
    {terms : List Term} {v : Outcome} (h : Chain operators part terms v) :
    StandsFor context level v terms := by
  induction h with
  | one only =>
    intro least hleast rest hrest
    exact hpart _ _ only least (Nat.le_succ_of_le hleast) rest (hrest.mono (Nat.le_succ _))
  | @more left right operator l r v front kind listed last value ih =>
    intro least hleast rest hrest result final hclimbs
    have hbinds : Binds operator level := ⟨kind, hoperators _ listed⟩
    -- The last part is the right operand: a climb for the next level ends where the part does.
    obtain ⟨first, operand, after, hterms, hfirst, hinner⟩ :=
      hpart _ _ last (level + 1) (Nat.le_refl _) rest (hrest.mono (Nat.le_succ _)) _ _
        (hrest.climbs r)
    have hjoins : Climbs context least l (operator :: (right ++ rest)) result final := by
      rw [hterms]
      exact .joins hbinds hleast hfirst hinner value hclimbs
    rw [List.append_assoc]
    exact ih least hleast _ (hbinds.below _) _ _ hjoins

theorem Relation.standsFor {terms : List Term} {v : Outcome} (h : Relation context terms v) :
    StandsFor context 1 v terms := by
  have hproduct (terms : List Term) (v : Outcome) (h : Product context terms v) :
      StandsFor context 3 v terms :=
    Chain.standsFor (by decide) (fun _ _ hpart => hpart.standsFor) h
  have hsum (terms : List Term) (v : Outcome) (h : Sum context terms v) :
      StandsFor context 2 v terms :=
    Chain.standsFor (by decide) hproduct h
  exact Chain.standsFor (by decide) hsum h

/-! ### Evaluation -/

theorem evaluate_ok_iff {expression : Expression} {context : EvalContext} {v : Outcome} :
    evaluate expression context = .ok v ↔ ∃ rest, Reads context 0 expression.terms v rest := by
  unfold evaluate
  cases hterms : expression.terms with
  | nil =>
    constructor
    · intro h
      cases h
    · rintro ⟨rest, front, operand, after, hsplit, hfront, -⟩
      exact absurd (List.append_eq_nil_iff.1 hsplit.symm).1 hfront.ne_nil
  | cons term terms =>
    constructor
    · intro h
      obtain ⟨⟨operand, after⟩, hunary, hextend⟩ := Except.bind_ok_iff.1 h
      obtain ⟨⟨value, rest⟩, hclimb, hpure⟩ := Except.bind_ok_iff.1 hextend
      cases hpure
      obtain ⟨front, hsplit, hfront⟩ := unary_ok hunary
      exact ⟨rest, front, operand, after, hsplit, hfront, extend_ok hclimb⟩
    · rintro ⟨rest, front, operand, after, hsplit, hfront, hclimbs⟩
      rw [hsplit]
      have hhead : (front ++ after).isEmpty = false := by
        rw [← hsplit]
        rfl
      rw [hhead]
      refine Except.bind_ok_iff.2 ⟨_, unary_of_unary hfront after, ?_⟩
      exact Except.bind_ok_iff.2 ⟨_, hclimbs.extend (Nat.le_refl _), rfl⟩

theorem condition_of_bool {expression : Expression} {b : Bool}
    (h : evaluate expression context = .ok (.bool b)) : condition expression context = .ok b := by
  rw [condition, h]
  cases b <;> rfl

/-- Evaluation succeeds exactly with the values of the readings of the whole list of terms, and ends
with an error of an expression where there is no reading. -/
theorem evaluate_reads_grammar (expression : Expression) (context : EvalContext) :
    (∀ v, evaluate expression context = .ok v ↔ Relation context expression.terms v) ∧
      ((¬ ∃ v, Relation context expression.terms v) →
        ∃ error, evaluate expression context = .error error) := by
  have hvalue (v : Outcome) :
      evaluate expression context = .ok v ↔ Relation context expression.terms v := by
    rw [evaluate_ok_iff]
    constructor
    · rintro ⟨rest, front, operand, after, hterms, hfront, hclimbs⟩
      obtain ⟨behind, rfl, hresult, hrest⟩ :=
        hclimbs.layer (Nat.zero_le 4) (hclimbs.begins.mono (Nat.le_succ 4)) hfront
      have hend : rest = [] := by
        cases rest with
        | nil => rfl
        | cons term rest =>
          obtain ⟨level, hlevel, -⟩ := hrest term rfl
          exact absurd hlevel (Nat.not_lt_zero level)
      rw [hterms, hend, List.append_nil]
      exact hresult
    · intro hrelation
      refine ⟨[], ?_⟩
      have hreads :=
        hrelation.standsFor 0 (Nat.zero_le 1) [] (by simp [Below]) v [] .ends
      rwa [List.append_nil] at hreads
  refine ⟨hvalue, ?_⟩
  intro hnone
  cases hevaluate : evaluate expression context with
  | ok v => exact absurd ⟨v, (hvalue v).1 hevaluate⟩ hnone
  | error error => exact ⟨error, rfl⟩

end BinarySchema.Expression
