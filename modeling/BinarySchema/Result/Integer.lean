import BinarySchema.Result

/-!
# Results as integers

The integer that a decoded field stands for in an expression. The raw integer wins over the value.
A finite double is rounded, an address is the number of its four bytes, a `char` of one character is
its code point, and other text is read as a numeral.
-/

namespace BinarySchema

def Datum.toInteger? (typeName : String) : Datum → Option Int
  | .bool b => some (if b then 1 else 0)
  | .int n => some n
  | .double x => x.round?
  | .address n => some n
  | .text s =>
    match s.toList with
    | [c] =>
      if typeName = Primitive.char.keyword then some c.toNat
      else (Number.readInteger 0 [c]).toOption
    | chars => (Number.readInteger 0 chars).toOption
  | _ => none

def Entry.toInteger? (result : Result) : Option Int :=
  result.raw.orElse fun _ => result.value.toInteger? result.typeName

end BinarySchema
