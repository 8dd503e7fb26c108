/-!
# Primitive types

The types that a schema knows without declaring them. Their keywords are recognised in any letter
case.
-/

namespace BinarySchema

inductive Primitive where
  | bool
  | byte
  | sbyte
  | ushort
  | short
  | uint
  | int
  | ulong
  | long
  | float
  | double
  | char
  | string
  | ipaddress
  | epoch
  deriving DecidableEq, Repr

namespace Primitive

def all : List Primitive :=
  [bool, byte, sbyte, ushort, short, uint, int, ulong, long, float, double, char, string,
   ipaddress, epoch]

def keyword : Primitive → String
  | bool => "bool"
  | byte => "byte"
  | sbyte => "sbyte"
  | ushort => "ushort"
  | short => "short"
  | uint => "uint"
  | int => "int"
  | ulong => "ulong"
  | long => "long"
  | float => "float"
  | double => "double"
  | char => "char"
  | string => "string"
  | ipaddress => "ipaddress"
  | epoch => "epoch"

/-- The number of bytes that a value takes; 0 for a string, which ends at its terminator. -/
def size : Primitive → Nat
  | bool | byte | sbyte | char => 1
  | ushort | short => 2
  | uint | int | float | ipaddress | epoch => 4
  | ulong | long | double => 8
  | string => 0

/-- The one-letter code of the types that are laid out as one number. -/
def layoutLetter? : Primitive → Option Char
  | bool => some '?'
  | byte => some 'B'
  | sbyte => some 'b'
  | ushort => some 'H'
  | short => some 'h'
  | uint | epoch => some 'I'
  | int => some 'i'
  | ulong => some 'Q'
  | long => some 'q'
  | float => some 'f'
  | double => some 'd'
  | char | string | ipaddress => none

def ofWord? (word : String) : Option Primitive :=
  let lower := word.toLower
  all.find? (·.keyword = lower)

end Primitive

end BinarySchema
