import BinarySchema.Command
import BinarySchema.Result.Tree

/-!
# The demo command

Decodes a small payload with a schema that has a declaration of every kind, and prints the tree.
-/

namespace BinarySchema.Command

def demoSource : String := "
    enum Kind : byte \x7b Empty, Text = 5, Blob \x7d
    bitfield Flags : byte \x7b compressed : 1; version : 3; reserved : 4; \x7d
    struct Record \x7b kind : Kind; flags : Flags; length : ushort; data : byte[length]; \x7d
    schema \x7b
        magic : char[4];          // file signature
        count : byte;
        records : Record[count];
    \x7d
"

def demoPayload : List UInt8 := [
  0x44, 0x45, 0x4d, 0x4f, 2,
  5, 0x13, 2, 0, 0xaa, 0xbb,
  6, 0x00, 1, 0, 0xcc]

def demo : Output :=
  let head := "=== Binary Interpreter Demo ===\n\n" ++
    s!"Payload: {Payload.hex demoPayload}\nPayload length: {demoPayload.length} bytes\n\n"
  match Schema.compile {} demoSource with
  | .error error => .broken (.schema (.compile error))
  | .ok schema =>
    match schema.decodeBytes {} demoPayload with
    | .error failure => .broken (.decode failure) head
    | .ok decoded =>
      { stdout := head ++ decoded.fields.tree 0 ++ s!"\n\nBytes consumed: {decoded.consumed}\n" }

end BinarySchema.Command
