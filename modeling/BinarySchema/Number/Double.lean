/-!
# Doubles

A double is kept as its 64 bits and computed with exactly: its finite values are fractions with a
power of two below, an operation is carried out on the fractions, and the result is rounded once,
to the nearest double and to the even one of two nearest.
-/

namespace BinarySchema.Number

structure Double where
  bits : UInt64
  deriving DecidableEq, Repr

namespace Double

/-- What a double stands for: nothing, an infinity, or a mantissa times a power of two. -/
inductive View where
  | nan
  | infinite (negative : Bool)
  | finite (negative : Bool) (mantissa : Nat) (exponent : Int)
  deriving DecidableEq, Repr

def isNegative (x : Double) : Bool :=
  x.bits >>> 63 == 1

def exponentBits (x : Double) : Nat :=
  ((x.bits >>> 52) &&& 0x7ff).toNat

def fraction (x : Double) : Nat :=
  (x.bits &&& 0xfffffffffffff).toNat

def view (x : Double) : View :=
  if x.exponentBits = 0x7ff then
    if x.fraction = 0 then .infinite x.isNegative else .nan
  else if x.exponentBits = 0 then .finite x.isNegative x.fraction (-1074)
  else .finite x.isNegative (Nat.pow 2 52 + x.fraction) (x.exponentBits - 1075)

def isNaN (x : Double) : Bool :=
  x.view == .nan

def isFinite (x : Double) : Bool :=
  x.exponentBits != 0x7ff

/-- Puts a double together from its sign, exponent bits and fraction. -/
def ofParts (negative : Bool) (exponentBits fraction : Nat) : Double :=
  ⟨((if negative then 1 else 0 : UInt64) <<< 63) ||| (UInt64.ofNat exponentBits <<< 52) |||
    UInt64.ofNat fraction⟩

def infinity (negative : Bool) : Double := ofParts negative 0x7ff 0

def nan : Double := ofParts false 0x7ff (Nat.pow 2 51)

def zero (negative : Bool) : Double := ofParts negative 0 0

/-! ### Rounding -/

/-- A fraction rounded to the nearest natural number, to the even one of two. -/
def roundFraction (num den : Nat) : Nat :=
  let quotient := num / den
  let twice := 2 * (num % den)
  if twice < den ∨ (twice = den ∧ quotient % 2 = 0) then quotient else quotient + 1

/-- The exponent of the last bit of the doubles around `num / den`. The estimate from the lengths
of the two numbers is at most one too small, and never below the least exponent. -/
def lastBitExponent (num den : Nat) : Int :=
  let estimate := (num.log2 : Int) - (den.log2 : Int) - 53
  let fits := num * Nat.pow 2 (-estimate).toNat < Nat.pow 2 53 * (den * Nat.pow 2 estimate.toNat)
  max (-1074) (if fits then estimate else estimate + 1)

/-- The double nearest to a fraction, infinite if it is too large. -/
def ofFraction (negative : Bool) (num den : Nat) : Double :=
  if num = 0 then zero negative
  else
    let exponent := lastBitExponent num den
    let mantissa :=
      roundFraction (num * Nat.pow 2 (-exponent).toNat) (den * Nat.pow 2 exponent.toNat)
    let carried := mantissa = Nat.pow 2 53
    let mantissa := if carried then Nat.pow 2 52 else mantissa
    let exponent := if carried then exponent + 1 else exponent
    if mantissa < Nat.pow 2 52 then ofParts negative 0 mantissa
    else if exponent + 1075 < 0x7ff then
      ofParts negative (exponent + 1075).toNat (mantissa - Nat.pow 2 52)
    else infinity negative

/-- The double nearest to `digits * 10 ^ exponent`. Values beyond all doubles and below half of the
least one are known by their length, so their power of ten is never formed. -/
def ofDecimal (negative : Bool) (digits : Nat) (exponent : Int) : Double :=
  let length := (Nat.toDigits 10 digits).length
  if digits = 0 ∨ length + exponent < -330 then zero negative
  else if 310 < length + exponent then infinity negative
  else ofFraction negative (digits * Nat.pow 10 exponent.toNat) (Nat.pow 10 (-exponent).toNat)

/-- The double nearest to an integer, if the integer is within the range of doubles. -/
def ofInt? (n : Int) : Option Double :=
  let x := ofFraction (n < 0) n.natAbs 1
  if x.isFinite then some x else none

/-- The double of the same value as a single with the given 32 bits. -/
def ofSingle (bits : UInt32) : Double :=
  let negative := bits >>> 31 == 1
  let exponentBits := ((bits >>> 23) &&& 0xff).toNat
  let fraction := (bits &&& 0x7fffff).toNat
  if exponentBits = 0xff then
    if fraction = 0 then infinity negative else ofParts negative 0x7ff (fraction * Nat.pow 2 29)
  else if exponentBits = 0 then ofFraction negative fraction (Nat.pow 2 149)
  else ofParts negative (exponentBits + 896) (fraction * Nat.pow 2 29)

/-! ### Arithmetic and order -/

/-- A finite value as a multiple of `2 ^ exponent`, for an exponent not above its own. -/
def scaled (negative : Bool) (mantissa : Nat) (own exponent : Int) : Int :=
  let magnitude : Int := mantissa * Int.pow 2 (own - exponent).toNat
  if negative then -magnitude else magnitude

/-- The fraction `n * 2 ^ exponent` rounded to a double; a zero takes the given sign. -/
def ofScaled (n : Int) (exponent : Int) (negativeZero : Bool) : Double :=
  let negative := if n = 0 then negativeZero else n < 0
  ofFraction negative (n.natAbs * Nat.pow 2 exponent.toNat) (Nat.pow 2 (-exponent).toNat)

def sub (x y : Double) : Double :=
  match x.view, y.view with
  | .nan, _ | _, .nan => nan
  | .infinite a, .infinite b => if a = b then nan else infinity a
  | .infinite a, .finite .. => infinity a
  | .finite .., .infinite b => infinity !b
  | .finite a m e, .finite b k f =>
    let exponent := min e f
    ofScaled (scaled a m e exponent - scaled b k f exponent) exponent (a && !b)

def abs (x : Double) : Double :=
  ⟨x.bits &&& 0x7fffffffffffffff⟩

def neg (x : Double) : Double :=
  ⟨x.bits ^^^ 0x8000000000000000⟩

def add (x y : Double) : Double :=
  x.sub y.neg

def mul (x y : Double) : Double :=
  match x.view, y.view with
  | .nan, _ | _, .nan => nan
  | .infinite a, .infinite b => infinity (a != b)
  | .infinite a, .finite b m _ | .finite a m _, .infinite b =>
    if m = 0 then nan else infinity (a != b)
  | .finite a m e, .finite b k f =>
    let negative := a != b
    ofScaled (if negative then -(m * k : Int) else m * k) (e + f) negative

/-- The order of two doubles; none if either is not a number. -/
def compare? (x y : Double) : Option Ordering :=
  match x.view, y.view with
  | .nan, _ | _, .nan => none
  | .infinite a, .infinite b => some (compare b a)
  | .infinite a, .finite .. => some (if a then .lt else .gt)
  | .finite .., .infinite b => some (if b then .gt else .lt)
  | .finite a m e, .finite b k f =>
    let exponent := min e f
    some (compare (scaled a m e exponent) (scaled b k f exponent))

/-- The exact order of a double and an integer; none if the double is not a number. -/
def compareInt? (x : Double) (n : Int) : Option Ordering :=
  match x.view with
  | .nan => none
  | .infinite negative => some (if negative then .lt else .gt)
  | .finite negative m e =>
    let exponent := min e 0
    some (compare (scaled negative m e exponent) (scaled (n < 0) n.natAbs 0 exponent))

/-- The integer nearest to a finite double, the even one of two. -/
def round? (x : Double) : Option Int :=
  match x.view with
  | .finite negative m e =>
    let n : Int := roundFraction (m * Nat.pow 2 e.toNat) (Nat.pow 2 (-e).toNat)
    some (if negative then -n else n)
  | _ => none

end Double

end BinarySchema.Number
