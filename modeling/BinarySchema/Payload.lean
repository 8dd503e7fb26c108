import BinarySchema.Datum
import BinarySchema.Text.Blank

/-!
# Payloads

The bytes of an input written as data: as hexadecimal text or as a list of the values of the bytes.
In text `0x`, blanks and commas are dropped wherever they stand, also within a byte; what is left
must be pairs of hexadecimal digits.
-/

namespace BinarySchema

inductive PayloadError where
  /-- Something else stands where a hexadecimal digit should, after separators are dropped. -/
  | notHex (position : Nat)
  /-- An item is an integer but no byte. -/
  | notByte
  /-- An item is no integer. -/
  | notInteger
  | unsupported (value : Datum)
  deriving Repr

namespace PayloadError

def message : PayloadError → String
  | .notHex position => s!"non-hexadecimal number found in fromhex() arg at position {position}"
  | .notByte => "bytes must be in range(0, 256)"
  | .notInteger => "bytes must be integers"
  | .unsupported value =>
    match value.literal? with
    | some literal => "Cannot parse payload: " ++ literal
    | none => Number.tooLongToWrite

def isAboutContent : PayloadError → Bool
  | .notInteger => false
  | _ => true

end PayloadError

namespace Payload

/-- Text without separators. A `0x` goes before the blanks and commas around it do, so what these
separate is not joined to one. -/
def dropSeparators : List Char → List Char
  | [] => []
  | '0' :: 'x' :: rest => dropSeparators rest
  | c :: rest =>
    if Text.isBlank c || c = ',' then dropSeparators rest else c :: dropSeparators rest

/-- Reads pairs of hexadecimal digits, or tells where there is none. -/
def bytesOfHex (position : Nat) : List Char → Except Nat (List UInt8)
  | [] => .ok []
  | [c] => .error (if Text.isHexDigit c then position + 1 else position)
  | a :: b :: rest =>
    match Text.hexValue? a, Text.hexValue? b with
    | some high, some low =>
      (bytesOfHex (position + 2) rest).map (UInt8.ofNat (16 * high + low) :: ·)
    | none, _ => .error position
    | some _, none => .error (position + 1)

/-- The bytes of hexadecimal text. A character beyond ASCII is reported before all others. -/
def ofText (text : String) : Except PayloadError (List UInt8) :=
  let digits := dropSeparators text.toList
  match digits.findIdx? (0x7f < ·.toNat) with
  | some position => .error (.notHex position)
  | none => (bytesOfHex 0 digits).mapError .notHex

/-- The bytes of their values. The first item that is no byte decides. -/
def ofItems : List Datum → Except PayloadError (List UInt8)
  | [] => .ok []
  | .int n :: rest =>
    if 0 ≤ n ∧ n < 256 then (ofItems rest).map (UInt8.ofNat n.toNat :: ·) else .error .notByte
  | .bool b :: rest => (ofItems rest).map ((if b then 1 else 0) :: ·)
  | _ :: _ => .error .notInteger

def ofDatum : Datum → Except PayloadError (List UInt8)
  | .bytes bytes => .ok bytes
  | .list items => ofItems items
  | .text text => ofText text
  | .codes points => ofText (String.ofList (Text.ofCodes points))
  | value => .error (.unsupported value)

/-- The written form of a payload: two upper-case digits for each byte. -/
def hex (bytes : List UInt8) : String :=
  String.ofList (bytes.flatMap fun byte => Text.upperHexDigits 2 byte.toNat)

end Payload

end BinarySchema
