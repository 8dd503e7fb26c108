/-!
# Base64

Bytes as text: three bytes are four digits of six bits each. The last digits are completed with
zeros, and equals signs fill their group of four. A line has at most 76 digits, and a line feed ends
it.
-/

namespace BinarySchema.Text

def base64Digit (value : Nat) : Char :=
  if value < 26 then Char.ofNat ('A'.toNat + value)
  else if value < 52 then Char.ofNat ('a'.toNat + (value - 26))
  else if value < 62 then Char.ofNat ('0'.toNat + (value - 52))
  else if value = 62 then '+' else '/'

/-- The first `digits` of the four digits of three bytes. -/
def base64Group (digits : Nat) (first second third : UInt8) : List Char :=
  let bits := first.toNat * 65536 + second.toNat * 256 + third.toNat
  let all := [bits / 262144, bits / 4096 % 64, bits / 64 % 64, bits % 64].map base64Digit
  all.take digits ++ List.replicate (4 - digits) '='

/-- The digits of bytes, without line feeds. -/
def base64 : List UInt8 → List Char
  | [] => []
  | [a] => base64Group 2 a 0 0
  | [a, b] => base64Group 3 a b 0
  | a :: b :: c :: rest => base64Group 4 a b c ++ base64 rest

def base64LineBytes : Nat := 57

/-- The lines of bytes, none for no bytes. -/
def base64Lines (bytes : List UInt8) : List String :=
  match bytes with
  | [] => []
  | byte :: rest =>
    let line := (byte :: rest).take base64LineBytes
    String.ofList (base64 line) :: base64Lines (rest.drop (base64LineBytes - 1))
termination_by bytes.length
decreasing_by
  simp only [List.length_drop, List.length_cons]
  omega

end BinarySchema.Text
