/-!
# Addresses

An address of four bytes, kept as one number, in its dotted form.
-/

namespace BinarySchema.Text

/-- The four bytes of an address in decimal, most significant first. -/
def address (value : Nat) : String :=
  ".".intercalate ([24, 16, 8, 0].map fun shift => Nat.repr (value >>> shift % 256))

end BinarySchema.Text
