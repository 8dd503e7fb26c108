import BinarySchema.Proofs.Decode.Exact
import BinarySchema.Proofs.Number.Packing
import BinarySchema.Proofs.Primitive.Bytes
import Mathlib.Algebra.Order.BigOperators.Group.List

/-!
# Bitfields

The members of a bitfield are its integer unpacked: `memberResults` takes for each member what masks and
shifts leave, and that is `Number.unpacked`. So the members packed again are the integer without the bits
above their widths, whatever the base is and whether or not the integer is negative. For the unsigned bases
the members also determine the bytes: values that fit are packed, stored in the byte order of the options,
and decoded to themselves.
-/

namespace BinarySchema

def BitfieldDef.widths (type : BitfieldDef) : List Nat :=
  type.members.map BitfieldMember.width

/-- That the results inside a result have these names, and these integers as values. -/
structure HoldsMembers (result : Result) (names : List String) (values : List Int) : Prop where
  names : Scope.names result.children = names
  values : result.children.map Entry.value = values.map Datum.int

namespace Primitive

/-- The unsigned integers, which are stored in the byte order of the options. -/
def isUnsigned : Primitive → Bool
  | byte | ushort | uint | ulong => true
  | _ => false

theorem isIntegral_of_isUnsigned {type : Primitive} (h : type.isUnsigned = true) :
    type.isIntegral = true := by
  cases type <;> first | rfl | cases h

theorem ofBytes_of_isUnsigned {type : Primitive} (h : type.isUnsigned = true) (options : Options)
    (bytes : List UInt8) : type.ofBytes options bytes = .ok (.int (options.endian.toNat bytes)) := by
  cases type <;> first | rfl | cases h

theorem size_le (type : Primitive) : type.size ≤ 8 := by
  cases type <;> decide

end Primitive

namespace Decoder

variable {context : DecodeContext} {type : BitfieldDef} {name : String} {comment : Option String}
  {result : Result} {r s : Reading}

theorem names_memberResults (base : Primitive) (offset size : Nat) (members : List BitfieldMember)
    (bits : Int) :
    Scope.names (memberResults base offset size members bits) = members.map (·.name) := by
  induction members generalizing bits with
  | nil => rfl
  | cons member rest ih =>
    rw [memberResults, List.map_cons, ← ih]
    rfl

theorem values_memberResults (base : Primitive) (offset size : Nat) (members : List BitfieldMember)
    (bits : Int) :
    (memberResults base offset size members bits).map Entry.value
      = (Number.unpacked (members.map (·.width)) bits).map Datum.int := by
  induction members generalizing bits with
  | nil => rfl
  | cons member rest ih =>
    rw [memberResults, List.map_cons, ih, lowBits_eq, dropBits_eq, List.map_cons, Number.unpacked,
      List.map_cons]

theorem bitfield_unpacked (h : bitfield context type name comment r = .ok result s) :
    ∃ raw size, baseInteger context type.base name r = .ok (raw, size) s ∧ result.raw = some raw ∧
      HoldsMembers result (type.members.map (·.name)) (Number.unpacked type.widths raw) := by
  obtain ⟨raw, size, hread, rfl⟩ := bitfield_ok h
  exact ⟨raw, size, hread, rfl, names_memberResults .., values_memberResults ..⟩

theorem baseInteger_stored {base : Primitive} (hbase : base.isUnsigned = true) {n size : Nat} {raw : Int}
    {after : List UInt8} (hn : n < 256 ^ base.size)
    (hrest : r.source.rest = context.options.endian.bytes base.size n ++ after)
    (h : baseInteger context base name r = .ok (raw, size) s) : raw = n ∧ s.source.rest = after := by
  obtain ⟨value, hread, hraw⟩ := baseInteger_ok h
  obtain ⟨bytes, hvalue, -, hlength, hconsumes, -⟩ := primitive_ok hread
  have hnotString : base ≠ .string := by
    rintro rfl
    cases hbase
  have hterminator : base.terminator = [] := by
    cases base <;> first | rfl | cases hbase
  rw [hterminator, List.append_nil] at hconsumes
  -- Both splits of the unread bytes have the base's size in front.
  obtain ⟨hbytes, hafter⟩ := List.append_inj (hconsumes.rest.symm.trans hrest)
    (by rw [hlength hnotString, Endian.length_bytes])
  rw [Primitive.ofBytes_of_isUnsigned hbase, hbytes, Endian.toNat_bytes _ hn] at hvalue
  cases hvalue
  cases hraw
  exact ⟨rfl, hafter⟩

theorem exists_bitfield (hbase : type.base.isUnsigned = true)
    (hdistinct : (type.members.map (·.name)).Nodup) (hwidths : type.widths.sum ≤ 8 * type.base.size)
    (hchunk : r.source.chunk = none) (hunread : type.base.size ≤ r.source.unread) :
    ∃ result s, bitfield context type name comment r = .ok result s := by
  have hnarrow : ∀ member ∈ type.members, member.width ≤ 64 := by
    intro member hmember
    have hle : member.width ≤ type.widths.sum := List.le_sum_of_mem (List.mem_map_of_mem hmember)
    have hsize := type.base.size_le
    omega
  have hcodec (hchar : type.base = .char) : context.options.textEncoding.codec.Complete := by
    rw [hchar] at hbase
    cases hbase
  have hexactly := Exactly.bitfield hcodec (Primitive.isIntegral_of_isUnsigned hbase) hdistinct hnarrow
    name comment
  obtain ⟨result, _, -, hok, -⟩ := hexactly.enough rfl hchunk hunread
  exact ⟨result, _, hok⟩

/-- Values that fit an unsigned base are decoded from the bytes that they are packed into. -/
theorem bitfield_stored (hbase : type.base.isUnsigned = true)
    (hdistinct : (type.members.map (·.name)).Nodup) (hwidths : type.widths.sum ≤ 8 * type.base.size)
    {values : List Int} (hfits : List.Forall₂ Number.Fits type.widths values)
    (hchunk : r.source.chunk = none) {after : List UInt8}
    (hrest : r.source.rest = context.options.endian.bytes type.base.size
      (Number.packed 0 type.widths values).toNat ++ after) :
    ∃ result s, bitfield context type name comment r = .ok result s ∧
      result.raw = some (Number.packed 0 type.widths values) ∧
      HoldsMembers result (type.members.map (·.name)) values ∧ s.source.rest = after := by
  obtain ⟨hnonneg, hlt⟩ := Number.packed_fits hfits
  have hstored : (Number.packed 0 type.widths values).toNat < 256 ^ type.base.size := by
    calc (Number.packed 0 type.widths values).toNat < 2 ^ type.widths.sum := by
          rw [Int.toNat_lt hnonneg]
          exact_mod_cast hlt
      _ ≤ 2 ^ (8 * type.base.size) := Nat.pow_le_pow_right (by decide) hwidths
      _ = 256 ^ type.base.size := Nat.pow_mul ..
  have hunread : type.base.size ≤ r.source.unread := by
    rw [Source.unread_eq, hrest, List.length_append, Endian.length_bytes]
    exact Nat.le_add_right _ _
  obtain ⟨result, s, hok⟩ := exists_bitfield hbase hdistinct hwidths hchunk hunread
  obtain ⟨raw, size, hread, hraw, hholds⟩ := bitfield_unpacked hok
  obtain ⟨hstoredRaw, hafter⟩ := baseInteger_stored hbase hstored hrest hread
  rw [Int.toNat_of_nonneg hnonneg] at hstoredRaw
  rw [hstoredRaw, Number.unpacked_packed hfits] at hholds
  exact ⟨result, s, hok, by rw [hraw, hstoredRaw], hholds, hafter⟩

/-- The members of a decoded bitfield fit their widths and make up its integer, up to the bits that
they do not cover. Values that fit an unsigned base are decoded from the bytes that they are packed into. -/
theorem bitfield_packs (context : DecodeContext) (type : BitfieldDef) (name : String)
    (comment : Option String) (r : Reading) :
    (∀ result s, bitfield context type name comment r = .ok result s →
      ∃ raw values, result.raw = some raw ∧ HoldsMembers result (type.members.map (·.name)) values ∧
        List.Forall₂ Number.Fits type.widths values ∧
        Number.packed 0 type.widths values = raw % 2 ^ type.widths.sum) ∧
    (∀ values after, type.base ∈ [.byte, .ushort, .uint, .ulong] →
      (type.members.map (·.name)).Nodup → type.widths.sum ≤ 8 * type.base.size →
      List.Forall₂ Number.Fits type.widths values → r.source.chunk = none →
      r.source.rest = context.options.endian.bytes type.base.size
        (Number.packed 0 type.widths values).toNat ++ after →
      ∃ result s, bitfield context type name comment r = .ok result s ∧
        result.raw = some (Number.packed 0 type.widths values) ∧
        HoldsMembers result (type.members.map (·.name)) values ∧ s.source.rest = after) := by
  constructor
  · intro result s h
    obtain ⟨raw, size, -, hraw, hholds⟩ := bitfield_unpacked h
    exact ⟨raw, Number.unpacked type.widths raw, hraw, hholds, Number.unpacked_fits _ raw,
      Number.packed_unpacked _ raw⟩
  · intro values after hmem hdistinct hwidths hfits hchunk hrest
    have hbase : type.base.isUnsigned = true := by
      simp only [List.mem_cons, List.not_mem_nil, or_false] at hmem
      obtain h | h | h | h := hmem <;> rw [h] <;> rfl
    exact bitfield_stored hbase hdistinct hwidths hfits hchunk hrest

/-- Members of three bits, none and nine. -/
def wideMembers (base : Primitive) : BitfieldDef where
  name := "Wide"
  base
  members := [⟨"low", 3, none⟩, ⟨"none", 0, none⟩, ⟨"high", 9, none⟩]
  pos := ⟨1, 1⟩

theorem bitfield_packs_wide :
    (∃ result s values, bitfield ⟨.empty, {}⟩ (wideMembers .sbyte) "x" none ⟨.ofBytes [0xf5], []⟩
        = .ok result s ∧
      result.raw = some (-11) ∧ HoldsMembers result ["low", "none", "high"] values ∧
      List.Forall₂ Number.Fits [3, 0, 9] values ∧ Number.packed 0 [3, 0, 9] values = 4085) ∧
    (∃ result s, bitfield ⟨.empty, { endian := .big }⟩ (wideMembers .ushort) "x" none
        ⟨.ofBytes [0x0a, 0xbd, 0xff], []⟩ = .ok result s ∧
      result.raw = some 0xabd ∧ HoldsMembers result ["low", "none", "high"] [5, 0, 0x157] ∧
      s.source.rest = [0xff]) := by
  constructor
  · obtain ⟨result, s, hok, hraw⟩ : ∃ result s,
        bitfield ⟨.empty, {}⟩ (wideMembers .sbyte) "x" none ⟨.ofBytes [0xf5], []⟩ = .ok result s ∧
          result.raw = some (-11) := ⟨_, _, rfl, rfl⟩
    obtain ⟨raw, values, hraw', hholds, hfits, hpacked⟩ := (bitfield_packs ..).1 result s hok
    obtain rfl : raw = -11 := Option.some.inj (hraw'.symm.trans hraw)
    exact ⟨result, s, values, hok, hraw, hholds, hfits, hpacked⟩
  · obtain ⟨result, s, hok, hraw, hholds, hrest⟩ :=
      (bitfield_packs ⟨.empty, { endian := .big }⟩ (wideMembers .ushort) "x" none
        ⟨.ofBytes [0x0a, 0xbd, 0xff], []⟩).2 [5, 0, 0x157] [0xff] (by decide) (by decide) (by decide)
        (.cons (by decide) (.cons (by decide) (.cons (by decide) .nil))) rfl rfl
    exact ⟨result, s, hok, hraw, hholds, hrest⟩

end Decoder

end BinarySchema
