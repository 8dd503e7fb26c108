import BinarySchema.Proofs.Decode.Faults

/-!
# Limits of a decode

A decode that ends without a result ends with an error about schema and input, of its decoding or of an
expression in it. Two numbers that it encounters can break this rule, and with the encodings for text
nothing else can: the width of a bitfield member, when its mask has no place in an integer or in memory, and
the length of a text, when it cannot be written into the message that refuses it.
-/

namespace BinarySchema

/-- What is known of a failure of a decode: it is an error about schema and input, or the decode does not
end, or something that the decode encounters is beyond a limit. -/
theorem Schema.decode_bounds {schema : Schema} {options : Options} {source : Source} {failure : Failure}
    {reading : Reading} (h : schema.decode options source = .error failure reading)
    (hends : failure ≠ .endless) :
    failure.isSchemaError = true ∨ ∃ encounter ∈ schema.encounters options source,
      encounter.Exceeds options.textEncoding.codec failure := by
  have hpermits : Decoder.Permits ⟨schema.types, options⟩ (fun _ => True)
      (fun failure => failure.isSchemaError = true ∨ failure = .endless) := {
    bodies := fun _ _ _ => trivial
    decode := fun _ => .inl rfl
    eval := fun _ _ _ => .inl rfl
    reference := fun _ _ => .inl rfl }
  have hfails := decode_fails hpermits (.inr rfl) (fun _ _ _ _ => trivial) h
  exact hfails.imp_left fun hfinding => hfinding.resolve_right hends

theorem Schema.decodeBytes_bounds {schema : Schema} {options : Options} {bytes : List UInt8}
    {failure : Failure} (h : schema.decodeBytes options bytes = .error failure)
    (hends : failure ≠ .endless) :
    failure.isSchemaError = true ∨ ∃ encounter ∈ schema.encounters options (.ofBytes bytes),
      encounter.Exceeds options.textEncoding.codec failure := by
  unfold decodeBytes at h
  split at h
  · cases h
  · rename_i reading hdecode
    obtain rfl := Except.error.inj h
    exact decode_bounds hdecode hends

/-- A decode that ends gives a result, or an error about schema and input, unless it encounters a text of a
length that is too large to be written, or a bitfield with a member that is too wide. -/
theorem decode_schema_error_or_limit {schema : Schema} {options : Options} {encoding : Text.Encoding}
    (htext : options.textEncoding.codec = encoding.codec) {source : Source} {failure : Failure}
    {reading : Reading} (h : schema.decode options source = .error failure reading)
    (hends : failure ≠ .endless) :
    failure.isSchemaError = true ∨
      failure = .numeralTooLong ∧
        (∃ count : Nat, .count count ∈ schema.encounters options source ∧ Number.hasNumeral count = false) ∨
      ∃ type, .bitfield type ∈ schema.encounters options source ∧ ∃ member ∈ type.members,
        failure = .widthTooLarge ∧ Decoder.widestMember < member.width ∨
        failure = .noMemory ∧ Decoder.memoryBits < member.width := by
  refine (Schema.decode_bounds h hends).imp_right ?_
  rintro ⟨encounter, hmem, hexceeds⟩
  cases hexceeds with
  | @count count long => exact .inl ⟨rfl, count, hmem, long⟩
  | text unread =>
    rw [htext] at unread
    cases unread
  | @width type member mem wide => exact .inr ⟨type, hmem, member, mem, .inl ⟨rfl, wide⟩⟩
  | @memory type member mem wide => exact .inr ⟨type, hmem, member, mem, .inr ⟨rfl, wide⟩⟩

/-- A text of more characters than a numeral can say. -/
def Schema.longText : Schema where
  types := { frozen := true }
  root := some [.field {
    name := "x", type := .primitive .char, pos := .first
    length := some ⟨[⟨.number (.ofNat (Nat.pow 10 4300)), "", .first⟩], .first⟩ }]

theorem decode_schema_error_or_limit_longText :
    ∃ reading, Schema.longText.decode {} (.ofBytes [5]) = .error .numeralTooLong reading ∧
      (Failure.numeralTooLong.isSchemaError = true ∨
        Failure.numeralTooLong = .numeralTooLong ∧
          (∃ count : Nat, .count count ∈ Schema.longText.encounters {} (.ofBytes [5]) ∧
            Number.hasNumeral count = false) ∨
        ∃ type, .bitfield type ∈ Schema.longText.encounters {} (.ofBytes [5]) ∧ ∃ member ∈ type.members,
          Failure.numeralTooLong = .widthTooLarge ∧ Decoder.widestMember < member.width ∨
          Failure.numeralTooLong = .noMemory ∧ Decoder.memoryBits < member.width) := by
  have hfails : (match Schema.longText.decode {} (.ofBytes [5]) with
      | .error .numeralTooLong _ => true
      | _ => false) = true := by decide +kernel
  split at hfails
  · rename_i reading hrun
    have htext : ({} : Options).textEncoding.codec = Text.Encoding.ascii.codec := rfl
    exact ⟨reading, hrun, decode_schema_error_or_limit htext hrun nofun⟩
  · cases hfails

/-- A text whose length is decoded is encountered with the length that it has in the input. -/
example :
    let length : Expression := ⟨[⟨.name, "n", ⟨1, 35⟩⟩], ⟨1, 35⟩⟩
    let schema : Schema := {
      types := { frozen := true }
      root := some [
        .field { name := "n", type := .primitive .byte, pos := ⟨1, 10⟩ },
        .field { name := "text", type := .primitive .char, pos := ⟨1, 20⟩, length := some length }] }
    schema.encounters {} (.ofBytes [2, 65, 66]) = [.count 2, .text [65, 66]] := by
  decide +kernel

/-- A bitfield member wider than any integer is compiled, and ends a decode without such an error. -/
theorem wideMember_escapes :
    ∃ schema reading,
      Schema.compile {} "bitfield B : byte { a : 0x8000000000000000000; } schema { x : B; }"
        = .ok schema ∧
      schema.decode {} (.ofBytes [5]) = .error .widthTooLarge reading ∧
      Failure.widthTooLarge.isSchemaError = false := by
  have hfails :
      (Schema.compile {}
        "bitfield B : byte { a : 0x8000000000000000000; } schema { x : B; }").toOption.map
          (fun schema => match schema.decode {} (.ofBytes [5]) with
            | .error .widthTooLarge _ => true
            | _ => false) = some true := by
    decide +kernel
  cases hcompile : Schema.compile {}
      "bitfield B : byte { a : 0x8000000000000000000; } schema { x : B; }" with
  | error e =>
    rw [hcompile] at hfails
    cases hfails
  | ok schema =>
    rw [hcompile] at hfails
    have hdecode := Option.some.inj hfails
    dsimp only at hdecode
    split at hdecode
    · rename_i reading hrun
      exact ⟨schema, reading, rfl, hrun, rfl⟩
    · cases hdecode

end BinarySchema
