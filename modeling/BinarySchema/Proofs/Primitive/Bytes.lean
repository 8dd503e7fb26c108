import BinarySchema.Decode.Primitive
import Mathlib.Tactic.Ring

/-!
# Writing primitives

The writing direction of the byte layouts that a decode reads: integers in two's complement and the
chosen byte order, addresses with their most significant byte first, text as Latin-1. The main fact is
`Primitive.bytesOfInt_ofBytes`: for the primitives that are laid out as one integer, the integer that
their bytes are read as determines the bytes.
-/

namespace BinarySchema

/-- The lowest bytes of a number, the least significant first. -/
def littleEndianBytes : (size : Nat) → Nat → List UInt8
  | 0, _ => []
  | size + 1, n => UInt8.ofNat n :: littleEndianBytes size (n / 256)

theorem littleEndian_lt (bytes : List UInt8) : littleEndian bytes < 256 ^ bytes.length := by
  induction bytes with
  | nil => decide
  | cons byte rest ih =>
    have hbyte := byte.toNat_lt
    rw [littleEndian, List.length_cons, Nat.pow_succ]
    omega

theorem littleEndianBytes_littleEndian (bytes : List UInt8) :
    littleEndianBytes bytes.length (littleEndian bytes) = bytes := by
  induction bytes with
  | nil => rfl
  | cons byte rest ih =>
    have hbyte := byte.toNat_lt
    have hhead : UInt8.ofNat (byte.toNat + 256 * littleEndian rest) = byte := by
      apply UInt8.toNat_inj.1
      rw [UInt8.toNat_ofNat']
      omega
    have hrest : (byte.toNat + 256 * littleEndian rest) / 256 = littleEndian rest := by omega
    rw [littleEndian, List.length_cons, littleEndianBytes, hhead, hrest, ih]

theorem length_littleEndianBytes (size n : Nat) : (littleEndianBytes size n).length = size := by
  induction size generalizing n with
  | zero => rfl
  | succ size ih => rw [littleEndianBytes, List.length_cons, ih]

theorem littleEndian_littleEndianBytes (size n : Nat) :
    littleEndian (littleEndianBytes size n) = n % 256 ^ size := by
  induction size generalizing n with
  | zero => rw [littleEndianBytes, littleEndian, Nat.pow_zero, Nat.mod_one]
  | succ size ih =>
    have hbyte : (UInt8.ofNat n).toNat = n % 256 := UInt8.toNat_ofNat'
    rw [littleEndianBytes, littleEndian, ih, hbyte, Nat.pow_succ', Nat.mod_mul]

theorem littleEndian_append (left right : List UInt8) :
    littleEndian (left ++ right) = littleEndian left + 256 ^ left.length * littleEndian right := by
  induction left with
  | nil => simp [littleEndian]
  | cons byte rest ih =>
    rw [List.cons_append, littleEndian, ih, littleEndian, List.length_cons, Nat.pow_succ]
    ring

theorem bigEndian_eq (high : Nat) (bytes : List UInt8) :
    bigEndian high bytes = littleEndian bytes.reverse + 256 ^ bytes.length * high := by
  induction bytes generalizing high with
  | nil => simp [bigEndian, littleEndian]
  | cons byte rest ih =>
    rw [bigEndian, ih, List.reverse_cons, littleEndian_append, List.length_reverse,
      List.length_cons, Nat.pow_succ]
    simp only [littleEndian]
    ring

namespace Endian

def bytes (endian : Endian) (size n : Nat) : List UInt8 :=
  match endian with
  | .little => littleEndianBytes size n
  | .big => (littleEndianBytes size n).reverse

theorem bytes_toNat (endian : Endian) (content : List UInt8) :
    endian.bytes content.length (endian.toNat content) = content := by
  cases endian with
  | little => exact littleEndianBytes_littleEndian content
  | big =>
    -- Most significant first is least significant first from the other end.
    have h := littleEndianBytes_littleEndian content.reverse
    rw [List.length_reverse] at h
    rw [bytes, toNat, bigEndian_eq, Nat.mul_zero, Nat.add_zero, h, List.reverse_reverse]

theorem toNat_lt (endian : Endian) (content : List UInt8) :
    endian.toNat content < 256 ^ content.length := by
  cases endian with
  | little => exact littleEndian_lt content
  | big =>
    have h := littleEndian_lt content.reverse
    rw [List.length_reverse] at h
    rwa [toNat, bigEndian_eq, Nat.mul_zero, Nat.add_zero]

theorem length_bytes (endian : Endian) (size n : Nat) : (endian.bytes size n).length = size := by
  cases endian with
  | little => exact length_littleEndianBytes size n
  | big => rw [bytes, List.length_reverse, length_littleEndianBytes]

theorem toNat_bytes (endian : Endian) {size n : Nat} (h : n < 256 ^ size) :
    endian.toNat (endian.bytes size n) = n := by
  cases endian with
  | little => rw [bytes, toNat, littleEndian_littleEndianBytes, Nat.mod_eq_of_lt h]
  | big =>
    rw [bytes, toNat, bigEndian_eq, List.reverse_reverse, littleEndian_littleEndianBytes, Nat.mul_zero,
      Nat.add_zero, Nat.mod_eq_of_lt h]

/-- An integer written in so many bytes, in two's complement. -/
def bytesOfInt (endian : Endian) (size : Nat) (n : Int) : List UInt8 :=
  endian.bytes size (n % (256 : Int) ^ size).toNat

theorem bytesOfInt_natCast (endian : Endian) {size n : Nat} (h : n < 256 ^ size) :
    endian.bytesOfInt size n = endian.bytes size n := by
  have hpow : (256 : Int) ^ size = ((256 ^ size : Nat) : Int) := by push_cast; rfl
  rw [bytesOfInt, hpow, ← Int.natCast_emod, Int.toNat_natCast, Nat.mod_eq_of_lt h]

theorem bytesOfInt_twosComplement (endian : Endian) {size n : Nat} (h : n < 256 ^ size) :
    endian.bytesOfInt size (twosComplement size n) = endian.bytes size n := by
  rw [← bytesOfInt_natCast endian h]
  unfold twosComplement
  split
  · rfl
  · have hpow : Int.pow 256 size = (256 : Int) ^ size := rfl
    rw [bytesOfInt, bytesOfInt, hpow, Int.sub_emod_right]

end Endian

namespace Primitive

def isInteger : Primitive → Bool
  | byte | sbyte | ushort | short | uint | int | ulong | long | ipaddress | epoch => true
  | bool | float | double | char | string => false

/-- The bytes of a primitive that is one integer. An address ignores the byte order. -/
def bytesOfInt (type : Primitive) (endian : Endian) (n : Int) : List UInt8 :=
  match type with
  | .ipaddress => Endian.big.bytesOfInt type.size n
  | _ => endian.bytesOfInt type.size n

/-- The integer that bytes are read as is written as these bytes. -/
theorem bytesOfInt_ofBytes {type : Primitive} (h : type.isInteger = true) (options : Options)
    {content : List UInt8} (hlength : content.length = type.size) :
    ∃ value n, type.ofBytes options content = .ok value ∧ value.baseInteger? = some n ∧
      type.bytesOfInt options.endian n = content := by
  have hnat (endian : Endian) :
      endian.bytesOfInt type.size (endian.toNat content) = content := by
    rw [← hlength, Endian.bytesOfInt_natCast _ (endian.toNat_lt content), endian.bytes_toNat]
  have hint (endian : Endian) :
      endian.bytesOfInt type.size (twosComplement type.size (endian.toNat content)) = content := by
    rw [← hlength, Endian.bytesOfInt_twosComplement _ (endian.toNat_lt content),
      endian.bytes_toNat]
  cases type with
  | bool | float | double | char | string => cases h
  | byte | ushort | uint | ulong => exact ⟨_, _, rfl, rfl, hnat options.endian⟩
  | sbyte | short | int | long => exact ⟨_, _, rfl, rfl, hint options.endian⟩
  | ipaddress => exact ⟨_, _, rfl, rfl, hnat .big⟩
  | epoch =>
    refine ⟨_, _, rfl, rfl, ?_⟩
    rw [DateTime.seconds_ofSeconds]
    exact hnat options.endian

end Primitive

/-! ### Text -/

def latin1Bytes (text : String) : List UInt8 :=
  text.toList.map fun c => UInt8.ofNat c.toNat

theorem latin1Bytes_decode (content : List UInt8) :
    latin1Bytes (String.ofList (Text.Encoding.latin1.decode content)) = content := by
  have hbyte (byte : UInt8) : UInt8.ofNat (Char.ofUInt8 byte).toNat = byte := by
    have hcode : (Char.ofUInt8 byte).toNat = byte.toNat := rfl
    rw [hcode, UInt8.ofNat_toNat]
  rw [latin1Bytes, Text.Encoding.decode, String.toList_ofList, List.map_map]
  exact (List.map_congr_left fun byte _ => hbyte byte).trans (List.map_id content)

end BinarySchema
