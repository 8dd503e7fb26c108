import BinarySchema.Options
import BinarySchema.Result

/-!
# Primitive values

How the bytes of a primitive are read as a value. Numbers take the byte order of the options, signed
ones in two's complement; an address always has its most significant byte first.
-/

namespace BinarySchema

/-- The number of a row of bytes, most significant first, continuing from `high`. -/
def bigEndian (high : Nat) : List UInt8 → Nat
  | [] => high
  | byte :: rest => bigEndian (high * 256 + byte.toNat) rest

/-- The number of a row of bytes, least significant first. -/
def littleEndian : List UInt8 → Nat
  | [] => 0
  | byte :: rest => byte.toNat + 256 * littleEndian rest

def Endian.toNat (endian : Endian) (bytes : List UInt8) : Nat :=
  match endian with
  | .little => littleEndian bytes
  | .big => bigEndian 0 bytes

/-- The number that a natural below `256 ^ size` stands for in two's complement. -/
def twosComplement (size n : Nat) : Int :=
  if 2 * n < Nat.pow 256 size then n else (n : Int) - Int.pow 256 size

namespace Primitive

/-- The value of a primitive's bytes. Only text can be without one. -/
def ofBytes (primitive : Primitive) (options : Options) (bytes : List UInt8) :
    Except Text.CodecFault Datum :=
  let number := options.endian.toNat
  match primitive with
  | .bool => .ok (.bool (number bytes ≠ 0))
  | .byte | .ushort | .uint | .ulong => .ok (.int (number bytes))
  | .sbyte | .short | .int | .long => .ok (.int (twosComplement primitive.size (number bytes)))
  | .float => .ok (.double (.ofSingle (UInt32.ofNat (number bytes))))
  | .double => .ok (.double ⟨UInt64.ofNat (number bytes)⟩)
  | .char | .string => (options.textEncoding.read bytes).map .text
  | .ipaddress => .ok (.address (bigEndian 0 bytes))
  | .epoch => .ok (.time (.ofSeconds (number bytes)))

end Primitive

/-- The integer behind a value of an enum's or bitfield's base. -/
def Datum.baseInteger? : Datum → Option Int
  | .bool b => some (if b then 1 else 0)
  | .int n => some n
  | .double x => x.round?
  | .address n => some n
  | .time t => some t.seconds
  | .text s =>
    match s.toList with
    | [c] => some c.toNat
    | _ => none
  | _ => none

end BinarySchema
