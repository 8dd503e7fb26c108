import BinarySchema.Proofs.Decode.Curtailed
import BinarySchema.Proofs.Decode.Exact

/-!
# Two ways to an integer

An integer is taken from a decoded value in two places: from a field, where an expression mentions it, and
from the bytes of a base, where an enum or bitfield is decoded. The first goes by the raw integer, the value
and the name of the type, the second by the value alone. `toInteger?_ofBytes` is that they agree for the
value of every primitive but a string: seconds are kept beside a time as its raw integer, and a complete
codec, such as that of an encoding, reads the one byte of a character as one character, so that neither of
them reads it as a numeral.

A string is left out because it is read as a numeral in an expression, and has no integer as a base unless
it is a single character.
-/

namespace BinarySchema

open Decoder (rawSeconds)

theorem Primitive.toInteger?_ofBytes {type : Primitive} (hstring : type ≠ .string) {options : Options}
    (hcodec : options.textEncoding.codec.Complete) {bytes : List UInt8}
    (hlength : bytes.length = type.size) {value : Datum} (h : type.ofBytes options bytes = .ok value) :
    ((rawSeconds value).orElse fun _ => value.toInteger? type.keyword) = value.baseInteger? := by
  cases type with
  | string => exact absurd rfl hstring
  | char =>
    obtain ⟨c, hc⟩ := exists_ofBytes_char hcodec hlength
    obtain rfl := Except.ok.inj (h.symm.trans hc)
    rw [Datum.baseInteger?, String.toList_ofList]
    show Datum.toInteger? _ (.text _) = _
    rw [Datum.toInteger?, String.toList_ofList]
    exact if_pos rfl
  | _ =>
    cases h
    rfl

namespace Decoder

variable {context : DecodeContext} {enter : List Node → Decoder Scope} {type : Primitive}
  {name : String} {comment : Option String} {value : Datum} {size : Nat} {raw : Int}
  {plain : Result} {r s : Reading}

theorem value_toInteger? (hcodec : context.options.textEncoding.codec.Complete)
    (hstring : type ≠ .string)
    (h : Decoder.value context enter (.primitive type) name comment r = .ok plain s) :
    ∃ value size, primitive context type name r = .ok (value, size) s ∧
      plain.toInteger? = value.baseInteger? := by
  cases value_ok h with
  | @primitive _ value size _ run =>
    obtain ⟨bytes, hvalue, -, hlength, -, -⟩ := primitive_ok run
    exact ⟨_, _, run, Primitive.toInteger?_ofBytes hstring hcodec (hlength hstring) hvalue⟩

theorem baseInteger_of_some (h : primitive context type name r = .ok (value, size) s)
    (hraw : value.baseInteger? = some raw) :
    baseInteger context type name r = .ok (raw, size) s := by
  unfold baseInteger
  rw [position_bind, bind_of_ok h]
  dsimp only
  rw [hraw]
  rfl

theorem baseInteger_of_none (h : primitive context type name r = .ok (value, size) s)
    (hraw : value.baseInteger? = none) : baseInteger context type name r
      = .error (.decode ⟨.noInteger value, some name, some r.source.position⟩) s := by
  unfold baseInteger
  rw [position_bind, bind_of_ok h]
  dsimp only
  rw [hraw]
  rfl

theorem checkListed_lenient (hstrict : context.options.strictEnums = false) (type : EnumDef)
    (name : String) (raw : Int) (offset : Nat) (r : Reading) :
    ∃ warnings, checkListed context type name raw offset r = .ok () ⟨r.source, warnings⟩ := by
  unfold checkListed
  rw [hstrict]
  split
  · exact ⟨_, rfl⟩
  · exact ⟨_, rfl⟩

theorem exists_enum (hstrict : context.options.strictEnums = false) {type : EnumDef}
    (h : baseInteger context type.base name r = .ok (raw, size) s) (comment : Option String) :
    ∃ shown t, enum context type name comment r = .ok shown t ∧ shown.raw = some raw ∧
      t.source = s.source := by
  obtain ⟨warnings, hlisted⟩ := checkListed_lenient hstrict type name raw r.source.position s
  rw [enum_eq, position_bind, bind_of_ok h]
  dsimp only
  rw [bind_of_ok hlisted]
  exact ⟨_, _, rfl, rfl, rfl⟩

theorem enum_of_error {type : EnumDef} {failure : Failure}
    (h : baseInteger context type.base name r = .error failure s) (comment : Option String) :
    enum context type name comment r = .error failure s := by
  rw [enum_eq, position_bind, bind_of_error h]

/-- The integer that an expression takes from a field is the raw integer of an enum over the same bytes, and
there is none exactly if the enum is refused because its base has none. -/
theorem toInteger?_iff_enum_raw (hcodec : context.options.textEncoding.codec.Complete)
    (type : EnumDef) (hstring : type.base ≠ .string) (hstrict : context.options.strictEnums = false)
    (remark : Option String)
    (h : Decoder.value context enter (.primitive type.base) name comment r = .ok plain s) :
    (∀ n, plain.toInteger? = some n ↔ ∃ shown t, enum context type name remark r = .ok shown t ∧
      shown.raw = some n ∧ t.source = s.source) ∧
    (plain.toInteger? = none ↔ ∃ value t, enum context type name remark r
      = .error (.decode ⟨.noInteger value, some name, some r.source.position⟩) t) := by
  obtain ⟨value, size, hread, hinteger⟩ := value_toInteger? hcodec hstring h
  cases hraw : value.baseInteger? with
  | some raw =>
    obtain ⟨shown, t, henum, hshown, hsource⟩ :=
      exists_enum hstrict (baseInteger_of_some hread hraw) remark
    rw [hinteger, hraw, henum]
    constructor
    · intro n
      constructor
      · rintro ⟨⟩
        exact ⟨shown, t, rfl, hshown, hsource⟩
      · rintro ⟨_, _, ⟨⟩, hn, -⟩
        rw [← hshown, hn]
    · exact ⟨nofun, nofun⟩
  | none =>
    have henum := enum_of_error (baseInteger_of_none hread hraw) remark
    rw [hinteger, hraw, henum]
    exact ⟨fun n => ⟨nofun, nofun⟩, fun _ => ⟨value, s, rfl⟩, fun _ => rfl⟩

def readingEnum : EnumDef := ⟨"Reading", .float, [⟨"none", 0⟩], ⟨1, 1⟩⟩

theorem toInteger?_iff_enum_raw_reading :
    (∃ shown t, enum ⟨.empty, {}⟩ readingEnum "x" none ⟨.ofBytes [0x00, 0x00, 0x20, 0xc0], []⟩
        = .ok shown t ∧ shown.raw = some (-2)) ∧
    ∃ value t, enum ⟨.empty, {}⟩ readingEnum "x" none ⟨.ofBytes [0x00, 0x00, 0x80, 0x7f], []⟩
      = .error (.decode ⟨.noInteger value, some "x", some 0⟩) t := by
  have hcodec : (TextEncoding.ascii).codec.Complete := Text.Encoding.complete .ascii
  constructor
  · obtain ⟨plain, s, hplain, hinteger⟩ : ∃ plain s, Decoder.value ⟨.empty, {}⟩ (fun _ => throw .endless)
        (.primitive .float) "x" none ⟨.ofBytes [0x00, 0x00, 0x20, 0xc0], []⟩ = .ok plain s ∧
          plain.toInteger? = some (-2) := ⟨_, _, rfl, by decide +kernel⟩
    obtain ⟨shown, t, henum, hraw, -⟩ :=
      ((toInteger?_iff_enum_raw hcodec readingEnum (by decide) rfl none hplain).1 (-2)).1 hinteger
    exact ⟨shown, t, henum, hraw⟩
  · obtain ⟨plain, s, hplain, hinteger⟩ : ∃ plain s, Decoder.value ⟨.empty, {}⟩ (fun _ => throw .endless)
        (.primitive .float) "x" none ⟨.ofBytes [0x00, 0x00, 0x80, 0x7f], []⟩ = .ok plain s ∧
          plain.toInteger? = none := ⟨_, _, rfl, by decide +kernel⟩
    exact (toInteger?_iff_enum_raw hcodec readingEnum (by decide) rfl none hplain).2.1 hinteger

end Decoder

end BinarySchema
