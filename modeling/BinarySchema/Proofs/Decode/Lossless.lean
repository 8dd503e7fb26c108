import BinarySchema.Proofs.Decode.Accumulation
import BinarySchema.Proofs.Except
import BinarySchema.Proofs.Primitive.Bytes
import BinarySchema.Proofs.Result.Leaves

/-!
# Decoding without loss

For schemas of integers, addresses, times and Latin-1 text, a result tree holds everything that was
read: writing its leaves one behind the other gives the bytes that the decode consumed. So inputs with
the same tree agree in the bytes that were consumed of them.

A leaf is written from its raw integer if it has one and else from its value; the members of a bitfield
are not written, because the bitfield holds their bytes already.
-/

namespace BinarySchema

/-! ### Writing a tree -/

def Entry.integer (leaf : Result) : Int :=
  (leaf.raw.or leaf.value.baseInteger?).getD 0

def Datum.textBytes : Datum → List UInt8
  | .text s => latin1Bytes s
  | _ => []

/-- A leaf written as bytes: as text if it was read as text, with the end of a string behind it, and
else as an integer. -/
def Entry.bytes (types : TypeTable) (endian : Endian) (leaf : Result) : List UInt8 :=
  match leaf.base? types with
  | some .string => leaf.value.textBytes ++ [0]
  | some .char | none => leaf.value.textBytes
  | some type => type.bytesOfInt endian leaf.integer

/-- The leaves of a scope written one behind the other. -/
def Scope.bytes (types : TypeTable) (endian : Endian) (scope : Scope) : List UInt8 :=
  scope.leaves.flatMap (Entry.bytes types endian)

section

variable {types : TypeTable} {endian : Endian}

theorem Entry.bytes_of_isInteger {leaf : Result} {type : Primitive}
    (hbase : leaf.base? types = some type) (htype : type.isInteger = true) :
    leaf.bytes types endian = type.bytesOfInt endian leaf.integer := by
  unfold Entry.bytes
  rw [hbase]
  cases type <;> first | rfl | cases htype

theorem Entry.bytes_of_isText {leaf : Result} {type : Primitive}
    (hbase : leaf.base? types = some type) (htype : type = .char ∨ type = .string) :
    leaf.bytes types endian = leaf.value.textBytes ++ type.terminator := by
  unfold Entry.bytes
  rw [hbase]
  rcases htype with rfl | rfl
  · exact (List.append_nil _).symm
  · rfl

theorem Scope.bytes_append (left right : Scope) :
    bytes types endian (left ++ right) = bytes types endian left ++ bytes types endian right := by
  rw [bytes, leaves_append, List.flatMap_append]
  rfl

theorem Scope.bytes_group {entry : Result} (h : entry.isGroup = true) :
    bytes types endian [entry] = bytes types endian entry.children := by
  rw [bytes, leaves_group h, bytes]

theorem Scope.bytes_leaf {entry : Result} (h : entry.isGroup = false) :
    bytes types endian [entry] = entry.bytes types endian := by
  rw [bytes, leaves_leaf h, List.flatMap_singleton]

theorem Scope.bytes_rename (name : Result → String) (scope : Scope) :
    bytes types endian (scope.map fun entry => entry.rename (name entry))
      = bytes types endian scope := by
  rw [bytes, List.flatMap_def, map_leaves_rename fun _ _ => rfl, ← List.flatMap_def]
  rfl

end

/-! ### Schemas without loss -/

/-- Whether the values of a field's type keep all that they were read from. A named type does if its
definition does. -/
def TypeRef.Lossless : TypeRef → Prop
  | .primitive type => type.isInteger = true ∨ type = .char ∨ type = .string
  | .named _ _ => True

instance : DecidablePred TypeRef.Lossless
  | .primitive type => inferInstanceAs (Decidable (type.isInteger = true ∨ _ ∨ _))
  | .named _ _ => isTrue trivial

/-- That all fields are integers or text, and all enums and bitfields are based on integers. -/
structure Schema.Lossless (schema : Schema) : Prop where
  root : ∀ declared ∈ bodyFields (schema.root.getD []), declared.type.Lossless
  structs : ∀ definition ∈ schema.types.definitions, ∀ declared ∈ definition.fields,
    declared.type.Lossless
  bases : ∀ definition ∈ schema.types.definitions, ∀ base ∈ definition.base?,
    base.isInteger = true

namespace Decoder

variable {context : DecodeContext} {r s : Reading}

theorem read_latin1Bytes {options : Options}
    (htext : options.textEncoding.codec = Text.Encoding.latin1.codec) {content : List UInt8}
    {text : String} (h : options.textEncoding.read content = .ok text) : latin1Bytes text = content := by
  unfold TextEncoding.read at h
  rw [htext] at h
  obtain rfl := Except.ok.inj h
  exact latin1Bytes_decode content

theorem ofBytes_textBytes {type : Primitive} (htype : type = .char ∨ type = .string)
    {options : Options} (htext : options.textEncoding.codec = Text.Encoding.latin1.codec)
    {content : List UInt8} {value : Datum} (h : type.ofBytes options content = .ok value) :
    value.textBytes = content := by
  rcases htype with rfl | rfl
  all_goals
    obtain ⟨text, hread, rfl⟩ := Except.map_ok_iff.1 h
    exact read_latin1Bytes htext hread

theorem primitive_bytesOfInt {type : Primitive} (htype : type.isInteger = true) {name : String}
    {value : Datum} {size : Nat} (h : primitive context type name r = .ok (value, size) s) :
    ∃ n, value.baseInteger? = some n ∧
      r.source.Consumes (type.bytesOfInt context.options.endian n) s.source := by
  obtain ⟨content, hvalue, -, hlength, hconsumes, -⟩ := primitive_ok h
  have hstring : type ≠ .string := by rintro rfl; cases htype
  have hterminator : type.terminator = [] := by cases type <;> first | rfl | cases htype
  obtain ⟨integer, n, hinteger, hn, hcontent⟩ :=
    Primitive.bytesOfInt_ofBytes htype context.options (hlength hstring)
  obtain rfl := Except.ok.inj (hinteger.symm.trans hvalue)
  refine ⟨n, hn, ?_⟩
  rwa [hcontent, ← List.append_nil content, ← hterminator]

theorem baseInteger_bytesOfInt {base : Primitive} (hbase : base.isInteger = true) {name : String}
    {raw : Int} {size : Nat} (h : baseInteger context base name r = .ok (raw, size) s) :
    r.source.Consumes (base.bytesOfInt context.options.endian raw) s.source := by
  obtain ⟨value, hread, hraw⟩ := baseInteger_ok h
  obtain ⟨n, hn, hconsumes⟩ := primitive_bytesOfInt hbase hread
  obtain rfl : n = raw := Option.some.inj (hn.symm.trans hraw)
  exact hconsumes

theorem rawSeconds_or_baseInteger? (value : Datum) :
    (rawSeconds value).or value.baseInteger? = value.baseInteger? := by
  cases value <;> rfl

/-- A schema without loss is decoded to results that are written as the bytes between the readings. -/
theorem bytes_accumulates {schema : Schema} {options : Options} (hschema : schema.Lossless)
    (htext : options.textEncoding.codec = Text.Encoding.latin1.codec) :
    Accumulates ⟨schema.types, options⟩ TypeRef.Lossless fun before results after =>
      before.source.Consumes (Scope.bytes schema.types options.endian results) after.source where
  bodies hdeclared := hschema.structs _ hdeclared
  nil r := .refl r.source
  append hleft hright := by
    rw [Scope.bytes_append]
    exact hleft.trans hright
  rename name h := by rwa [Scope.bytes_rename]
  primitive {type name comment value size r s} htype hread := by
    rw [Scope.bytes_leaf rfl]
    have hbase : Entry.base? schema.types
        ({ kind := .primitive, name, offset := r.source.position, size, typeName := type.keyword
           value, comment, raw := rawSeconds value } : Result) = some type := by
      simp [Entry.base?, Primitive.ofWord?_keyword]
    rcases htype with hinteger | htype
    · obtain ⟨n, hn, hconsumes⟩ := primitive_bytesOfInt hinteger hread
      -- A time is written from its seconds, which the result also has as its raw integer.
      rw [Entry.bytes_of_isInteger hbase hinteger, Entry.integer, rawSeconds_or_baseInteger?, hn]
      exact hconsumes
    · obtain ⟨content, hvalue, -, -, hconsumes, -⟩ := primitive_ok hread
      rw [Entry.bytes_of_isText hbase htype, ofBytes_textBytes htype htext hvalue]
      exact hconsumes
  enum hfound hrun := by
    obtain ⟨raw, size, t, hread, hsource, rfl⟩ := enum_ok hrun
    have hbase := hschema.bases _ (TypeTable.mem_of_find? hfound) _ rfl
    rw [Scope.bytes_leaf rfl, Entry.bytes_of_isInteger (by simp [Entry.base?, hfound]; rfl) hbase,
      hsource]
    exact baseInteger_bytesOfInt hbase hread
  bitfield hfound hrun := by
    obtain ⟨raw, size, hread, rfl⟩ := bitfield_ok hrun
    have hbase := hschema.bases _ (TypeTable.mem_of_find? hfound) _ rfl
    rw [Scope.bytes_leaf rfl, Entry.bytes_of_isInteger (by simp [Entry.base?, hfound]; rfl) hbase]
    exact baseInteger_bytesOfInt hbase hread
  struct h := by rwa [Scope.bytes_group rfl]
  text {declared count content text r s} hread hcoded := by
    rw [Scope.bytes_leaf rfl]
    change r.source.Consumes (latin1Bytes text) s.source
    rw [read_latin1Bytes htext hcoded]
    exact (read_ok hread).2.1
  items h := by rwa [Scope.bytes_group rfl]

end Decoder

theorem Schema.decode_bytes {schema : Schema} (hschema : schema.Lossless) {options : Options}
    (htext : options.textEncoding.codec = Text.Encoding.latin1.codec) {source : Source} {decoded : Decoded}
    {reading : Reading} (h : schema.decode options source = .ok decoded reading) :
    decoded.fields.bytes schema.types options.endian = source.rest.take decoded.consumed ∧
      (decoded.fields.bytes schema.types options.endian).length = decoded.consumed := by
  cases hroot : schema.root with
  | none => simp [decode, hroot] at h
  | some body =>
    have hadmits := hschema.root
    rw [hroot] at hadmits
    obtain ⟨hconsumes, hconsumed, -⟩ :=
      (Decoder.bytes_accumulates hschema htext).decode hroot hadmits h
    have hlength := hconsumed.trans hconsumes.length
    refine ⟨?_, hlength.symm⟩
    rw [hlength]
    exact hconsumes.take.symm

/-- A decoded tree is written as the bytes that were consumed, and no input with the same tree has
others in their place. -/
theorem decode_lossless {schema : Schema} (hschema : schema.Lossless) {options : Options}
    (htext : options.textEncoding.codec = Text.Encoding.latin1.codec) {bytes : List UInt8} {start : Nat}
    {chunk : Option Nat} {decoded : Decoded} {reading : Reading}
    (h : schema.decode options (.ofBytes bytes start chunk) = .ok decoded reading) :
    decoded.fields.bytes schema.types options.endian = (bytes.drop start).take decoded.consumed ∧
      (decoded.fields.bytes schema.types options.endian).length = decoded.consumed ∧
      ∀ (otherBytes : List UInt8) (otherStart : Nat) (otherChunk : Option Nat) (other : Decoded)
        (last : Reading),
        schema.decode options (.ofBytes otherBytes otherStart otherChunk) = .ok other last →
        other.fields = decoded.fields →
          (otherBytes.drop otherStart).take other.consumed
            = (bytes.drop start).take decoded.consumed := by
  obtain ⟨hbytes, hlength⟩ := Schema.decode_bytes hschema htext h
  refine ⟨hbytes, hlength, ?_⟩
  intro otherBytes otherStart otherChunk other last hother hsame
  obtain ⟨hotherBytes, -⟩ := Schema.decode_bytes hschema htext hother
  rw [hsame, hbytes] at hotherBytes
  exact hotherBytes.symm

/-- Latin-1 text and numbers with their most significant byte first. -/
def Options.latin1BigEndian : Options where
  endian := .big
  textEncoding := ⟨"latin-1", Text.Encoding.latin1.codec⟩

/-- A host with its name, and behind it events with a level and flags up to the end of the input. -/
def Schema.hostLog : Schema where
  types := {
    definitions := [
      .enum ⟨"Level", .short, [⟨"Info", 0⟩, ⟨"Alarm", -2⟩], ⟨1, 1⟩⟩,
      .bitfield ⟨"Flags", .byte, [⟨"retry", 1, none⟩, ⟨"age", 7, none⟩], ⟨2, 1⟩⟩,
      .struct ⟨"Event", [
        .field { name := "at", type := .primitive .epoch, pos := ⟨3, 16⟩ },
        .field { name := "level", type := .named .enum "Level", pos := ⟨3, 26⟩ },
        .field { name := "flags", type := .named .bitfield "Flags", pos := ⟨3, 39⟩ }], ⟨3, 1⟩⟩]
    frozen := true }
  root := some [
    .field { name := "host", type := .primitive .ipaddress, pos := ⟨5, 3⟩ },
    .field { name := "tag", type := .primitive .char, pos := ⟨6, 3⟩
             length := some ⟨[⟨.number 2, "2", ⟨6, 13⟩⟩], ⟨6, 13⟩⟩ },
    .field { name := "label", type := .primitive .string, pos := ⟨7, 3⟩ },
    .block ⟨⟨true, true⟩, ⟨[⟨.probe, "@eof", ⟨8, 10⟩⟩], ⟨8, 10⟩⟩, ⟨8, 3⟩⟩ [
      .field { name := "event", type := .named .struct "Event", pos := ⟨9, 5⟩ }]]

theorem decode_lossless_hostLog :
    ∃ decoded reading,
      Schema.hostLog.decode .latin1BigEndian (.ofBytes
        [9, 192, 168, 0, 1, 255, 66, 233, 0, 1, 2, 3, 4, 255, 254, 7, 128, 0, 0, 0, 0, 0, 6] 1)
          = .ok decoded reading ∧
      decoded.fields.bytes Schema.hostLog.types .big =
        [192, 168, 0, 1, 255, 66, 233, 0, 1, 2, 3, 4, 255, 254, 7, 128, 0, 0, 0, 0, 0, 6] := by
  have hlossless : Schema.hostLog.Lossless :=
    ⟨by decide +kernel, by decide +kernel, by decide +kernel⟩
  have hcount : Schema.hostLog.consumed? .latin1BigEndian (.ofBytes
      [9, 192, 168, 0, 1, 255, 66, 233, 0, 1, 2, 3, 4, 255, 254, 7, 128, 0, 0, 0, 0, 0, 6] 1)
        = some 22 := by
    decide +kernel
  obtain ⟨decoded, reading, hrun, hconsumed⟩ := Schema.decode_of_consumed? hcount
  obtain ⟨hbytes, -⟩ := decode_lossless hlossless rfl hrun
  rw [hconsumed] at hbytes
  exact ⟨decoded, reading, hrun, hbytes⟩

end BinarySchema
