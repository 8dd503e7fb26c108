import BinarySchema.Number.Double

/-!
# Quantities

Numbers of either kind, integers and doubles. The distance of two integers is exact; if one of the
two is a double, the other is first rounded to a double, which the largest integers cannot be.
-/

namespace BinarySchema.Number

inductive Quantity where
  | int (value : Int)
  | double (value : Double)
  deriving DecidableEq, Repr

/-- An integer beyond the range of doubles was to be rounded to one. -/
inductive RangeFault where
  | beyondDoubles
  deriving DecidableEq, Repr

namespace Quantity

def toDouble : Quantity → Except RangeFault Double
  | .double x => .ok x
  | .int n =>
    match Double.ofInt? n with
    | some x => .ok x
    | none => .error .beyondDoubles

def distance (left right : Quantity) : Except RangeFault Quantity :=
  match left, right with
  | .int m, .int n => .ok (.int (m - n).natAbs)
  | _, _ => do return .double ((← left.toDouble).sub (← right.toDouble)).abs

/-- The exact order of two quantities; none if one is not a number. -/
def compare? : Quantity → Quantity → Option Ordering
  | .int m, .int n => some (compare m n)
  | .double x, .int n => x.compareInt? n
  | .int m, .double y => (y.compareInt? m).map Ordering.swap
  | .double x, .double y => x.compare? y

def atMost (left right : Quantity) : Bool :=
  (left.compare? right).any Ordering.isLE

end Quantity

end BinarySchema.Number
