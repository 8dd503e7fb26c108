import BinarySchema.Definition.Table
import BinarySchema.Result.Integer
import BinarySchema.Text.Split

/-!
# Evaluating expressions

Terms are read by climbing precedences: the signs `!` and `-` bind closest, then `*` and `/`, then
`+` and `-`, then the comparisons, and operators of one level associate to the left. Values are
computed while the terms are read, from left to right, so the first fault met decides the error.

Arithmetic is on unbounded integers; division drops the fraction. Comparisons and `!` give booleans,
which count as 0 and 1.
-/

namespace BinarySchema

/-- The value of an expression. -/
inductive Number.Outcome where
  | int (value : Int)
  | bool (value : Bool)
  deriving DecidableEq, Repr

namespace Number.Outcome

def toInt : Outcome → Int
  | .int n => n
  | .bool b => if b then 1 else 0

end Number.Outcome

/-- Why an expression has no value. -/
inductive EvalFault where
  | empty
  | unexpectedEnd (expression : String)
  | notOperator (text : String)
  | notOperand (text : String)
  | unknownProbe (text : String)
  | notDecoded (name : String)
  | noInteger (field typeName : String)
  | divisionByZero (expression : String)
  | noMember (constant enum member : String)
  | unresolved (constant : String)
  deriving DecidableEq, Repr

structure EvalError where
  fault : EvalFault
  pos : Position
  deriving DecidableEq, Repr

/-- What an expression is evaluated against: the state of the input, the fields decoded so far, the
innermost scope first, and the declared types. -/
structure EvalContext where
  position : Int
  size : Int
  scopes : List Scope
  types : TypeTable

namespace Expression

open Number (Outcome)

/-- How closely a binary operator binds. -/
def precedence? : String → Option Nat
  | "*" | "/" => some 3
  | "+" | "-" => some 2
  | "=" | "!=" | "<" | ">" | "<=" | ">=" => some 1
  | _ => none

/-- A binary operation; none where it would divide by zero. -/
def operate? (operator : String) (left right : Int) : Option Outcome :=
  match operator with
  | "+" => some (.int (left + right))
  | "-" => some (.int (left - right))
  | "*" => some (.int (left * right))
  | "/" => if right = 0 then none else some (.int (left.tdiv right))
  | "=" => some (.bool (left = right))
  | "!=" => some (.bool (left ≠ right))
  | "<" => some (.bool (left < right))
  | ">" => some (.bool (right < left))
  | "<=" => some (.bool (left ≤ right))
  | _ => some (.bool (right ≤ left))

def fieldInteger (result : Result) (term : Term) : Except EvalError Int :=
  match result.toInteger? with
  | some n => .ok n
  | none => .error ⟨.noInteger result.name result.typeName, term.pos⟩

/-- Follows names through nested scopes. -/
def follow? (result : Result) : List String → Option Result
  | [] => some result
  | part :: parts =>
    match result.value with
    | .scope entries => (Scope.get? entries part).bind fun next => follow? next parts
    | _ => none

/-- A dotted word split at its first point. -/
def splitConstant (text : String) : String × String :=
  let chars := text.toList
  (String.ofList (chars.takeWhile (· != '.')), String.ofList ((chars.dropWhile (· != '.')).drop 1))

/-- The value of a dotted word: a member of the enum before its first point if there is such an
enum, else a field inside decoded scopes. -/
def constantValue (context : EvalContext) (term : Term) : Except EvalError Int :=
  let (owner, member) := splitConstant term.text
  match context.types.find? owner with
  | some (.enum enum) =>
    match enum.valueOf? member with
    | some n => .ok n
    | none => .error ⟨.noMember term.text owner member, term.pos⟩
  | _ =>
    match (Scope.resolve? context.scopes owner).bind (follow? · (Text.pieces '.' member)) with
    | some result => fieldInteger result term
    | none => .error ⟨.unresolved term.text, term.pos⟩

def operandValue (context : EvalContext) (term : Term) : Except EvalError Outcome :=
  match term.kind with
  | .number value => .ok (.int value)
  | .probe =>
    match term.text with
    | "@eof" => .ok (.bool (context.size ≤ context.position))
    | "@pos" => .ok (.int context.position)
    | "@size" => .ok (.int context.size)
    | text => .error ⟨.unknownProbe text, term.pos⟩
  | .name =>
    match Scope.resolve? context.scopes term.text with
    | some result => (fieldInteger result term).map .int
    | none => .error ⟨.notDecoded term.text, term.pos⟩
  | .constant => (constantValue context term).map .int
  | .operator => .error ⟨.notOperand term.text, term.pos⟩

def isOperator (term : Term) (text : String) : Bool :=
  term.kind = .operator && term.text = text

/-- Reads an operand behind any number of signs. -/
def unary (whole : Expression) (context : EvalContext) :
    List Term → Except EvalError (Outcome × List Term)
  | [] => .error ⟨.unexpectedEnd whole.text, whole.pos⟩
  | term :: rest =>
    if isOperator term "!" then do
      let (value, left) ← unary whole context rest
      return (.bool (value.toInt = 0), left)
    else if isOperator term "-" then do
      let (value, left) ← unary whole context rest
      return (.int (-value.toInt), left)
    else do
      return (← operandValue context term, rest)

/-- The binding of the binary operator at the head of the remaining terms. -/
def operatorPrecedence (term : Term) : Except EvalError Nat :=
  match term.kind, precedence? term.text with
  | .operator, some level => .ok level
  | _, _ => .error ⟨.notOperator term.text, term.pos⟩

/-- Extends a left operand by the operators that bind at least as closely as `least`, each with the
operand that its own closeness gives it. Every operator takes a term, so their number bounds the
steps. -/
def extend (whole : Expression) (context : EvalContext) :
    (steps : Nat) → (least : Nat) → Outcome → List Term → Except EvalError (Outcome × List Term)
  | _, _, left, [] => .ok (left, [])
  | 0, _, _, _ :: _ => .error ⟨.unexpectedEnd whole.text, whole.pos⟩
  | steps + 1, least, left, term :: rest => do
    let level ← operatorPrecedence term
    if level < least then return (left, term :: rest)
    let (operand, afterOperand) ← unary whole context rest
    let (right, remaining) ← extend whole context steps (level + 1) operand afterOperand
    match operate? term.text left.toInt right.toInt with
    | some value => extend whole context steps least value remaining
    | none => .error ⟨.divisionByZero whole.text, term.pos⟩

/-- The value of an expression. -/
def evaluate (expression : Expression) (context : EvalContext) : Except EvalError Outcome := do
  if expression.terms.isEmpty then throw ⟨.empty, expression.pos⟩
  let (operand, rest) ← unary expression context expression.terms
  let (value, _) ← extend expression context rest.length 0 operand rest
  return value

/-- The value as a count of array elements; a negative one counts as zero. -/
def length (expression : Expression) (context : EvalContext) : Except EvalError Nat :=
  (evaluate expression context).map fun value => value.toInt.toNat

def condition (expression : Expression) (context : EvalContext) : Except EvalError Bool :=
  (evaluate expression context).map fun value => value.toInt ≠ 0

end Expression

namespace EvalError

/-- Whether the error is about a dotted word that names nothing. -/
def isUnknownName (error : EvalError) : Bool :=
  match error.fault with
  | .noMember .. | .unresolved .. => true
  | _ => false

/-- What went wrong, without the place of a malformed expression. -/
def reason (error : EvalError) : String :=
  let place := s!"({error.pos.line}:{error.pos.column}) "
  match error.fault with
  | .empty => "empty expression"
  | .unexpectedEnd expression => s!"unexpected end of expression '{expression}'"
  | .notOperator text => s!"expected binary operator, got [{text}]"
  | .notOperand text => s!"expected operand, got [{text}]"
  | .unknownProbe text => s!"unknown macro {text}"
  | .notDecoded name => s!"'{name}' is not a decoded field in this scope"
  | .noInteger field typeName => s!"field '{field}' of type {typeName} has no integer value"
  | .divisionByZero expression => s!"division by zero in '{expression}'"
  | .noMember _ enum member => s!"{place}enum {enum} has no member {member}"
  | .unresolved constant => s!"{place}cannot resolve constant {constant}"

/-- The reason, behind its place unless it already names it or has none. -/
def message (error : EvalError) : String :=
  if error.isUnknownName || error.pos.line = 0 then error.reason
  else s!"({error.pos.line}:{error.pos.column}) {error.reason}"

end EvalError

end BinarySchema
