import BinarySchema.Number.Double

/-!
# Shortest decimal text of a double

A double is written with the fewest significant digits that still lie among the numbers that round
to it, the nearest such digits and the even ones of two equally near. Numbers from 0.0001 up to,
but not including, ten to the sixteenth are written positionally, with at least one digit on
either side of the point; all others with an exponent of a sign and at least two digits.
-/

namespace BinarySchema.Number

/-- The positive decimal number `digits * 10 ^ exponent`. -/
structure Decimal where
  digits : Nat
  exponent : Int
  deriving DecidableEq, Repr

namespace Double

/-- The order of `a * 10 ^ i` and `n * 2 ^ j`. -/
def compareScaled (a : Nat) (i : Int) (n : Nat) (j : Int) : Ordering :=
  compare (a * Nat.pow 10 i.toNat * Nat.pow 2 (-j).toNat)
    (n * Nat.pow 2 j.toNat * Nat.pow 10 (-i).toNat)

/-- Whether a decimal lies among the numbers that round to `mantissa * 2 ^ exponent`. They reach
halfway to either neighbour, and to the halves themselves when the mantissa is even. -/
def readsBack (mantissa : Nat) (exponent : Int) (d : Decimal) : Bool :=
  let narrow := mantissa = Nat.pow 2 52 ∧ -1074 < exponent
  let low := if narrow then 4 * mantissa - 1 else 4 * mantissa - 2
  let high := 4 * mantissa + 2
  let atLow := compareScaled d.digits d.exponent low (exponent - 2)
  let atHigh := compareScaled d.digits d.exponent high (exponent - 2)
  let closed := mantissa % 2 = 0
  (atLow = .gt || (closed && atLow = .eq)) && (atHigh = .lt || (closed && atHigh = .eq))

/-- The least `k` with `mantissa * 2 ^ exponent < 10 ^ k`, found upwards from an estimate. -/
def decimalScale (mantissa : Nat) (exponent : Int) : Int :=
  let bits : Int := mantissa.log2 + exponent
  let estimate := bits * 30103 / 100000 - 1
  let below (k : Int) : Bool := compareScaled 1 k mantissa exponent = .gt
  if below estimate then estimate
  else if below (estimate + 1) then estimate + 1
  else if below (estimate + 2) then estimate + 2
  else estimate + 3

/-- The nearest decimal among the multiples of `10 ^ grid` that reads back to the double. -/
def nearestOnGrid (mantissa : Nat) (exponent grid : Int) : Option Decimal :=
  let num := mantissa * Nat.pow 2 exponent.toNat * Nat.pow 10 (-grid).toNat
  let den := Nat.pow 2 (-exponent).toNat * Nat.pow 10 grid.toNat
  let down : Decimal := ⟨num / den, grid⟩
  let up : Decimal := ⟨num / den + 1, grid⟩
  let twice := 2 * (num % den)
  let downFirst := twice < den ∨ (twice = den ∧ down.digits % 2 = 0)
  let (near, far) := if downFirst then (down, up) else (up, down)
  if readsBack mantissa exponent near then some near
  else if readsBack mantissa exponent far then some far
  else none

/-- Moves trailing zeros of the digits into the exponent. -/
def dropZeros : Nat → Decimal → Decimal
  | 0, d => d
  | fuel + 1, d =>
    if d.digits % 10 = 0 && d.digits != 0 then dropZeros fuel ⟨d.digits / 10, d.exponent + 1⟩ else d

/-- The shortest decimal that reads back to `mantissa * 2 ^ exponent`, for a positive mantissa. -/
def shortest (mantissa : Nat) (exponent : Int) : Decimal :=
  let scale := decimalScale mantissa exponent
  let grids := (List.range 17).map fun places : Nat => scale - 1 - places
  let exact : Decimal :=
    ⟨mantissa * Nat.pow 2 exponent.toNat * Nat.pow 5 (-exponent).toNat, min exponent 0⟩
  let found := (grids.findSome? (nearestOnGrid mantissa exponent)).getD exact
  dropZeros (found.digits.log2 + 1) found

/-- Lays a decimal out. -/
def layout (d : Decimal) : String :=
  let digits := Nat.toDigits 10 d.digits
  let point : Int := digits.length + d.exponent
  if -4 < point ∧ point ≤ 16 then
    if point ≤ 0 then
      String.ofList ('0' :: '.' :: List.replicate (-point).toNat '0' ++ digits)
    else
      let whole := digits.take point.toNat ++ List.replicate (point.toNat - digits.length) '0'
      let part := digits.drop point.toNat
      String.ofList (whole ++ '.' :: (if part.isEmpty then ['0'] else part))
  else
    let power := point - 1
    let powerDigits := Nat.toDigits 10 power.natAbs
    let padded := if powerDigits.length < 2 then '0' :: powerDigits else powerDigits
    let part := digits.drop 1
    String.ofList (digits.take 1 ++ (if part.isEmpty then [] else '.' :: part) ++
      'e' :: (if power < 0 then '-' else '+') :: padded)

def text (x : Double) : String :=
  match x.view with
  | .nan => "nan"
  | .infinite negative => if negative then "-inf" else "inf"
  | .finite negative mantissa exponent =>
    let magnitude := if mantissa = 0 then "0.0" else layout (shortest mantissa exponent)
    if negative then "-" ++ magnitude else magnitude

end Double

end BinarySchema.Number
