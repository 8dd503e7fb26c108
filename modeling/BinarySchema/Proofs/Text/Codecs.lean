import BinarySchema.Text.Encoding

/-!
# Codecs that read everything

The encodings give text for all bytes, and a single character for a single byte. Decoding relies on nothing
else where it says that a text is read.
-/

namespace BinarySchema.Text

structure Codec.Complete (codec : Codec) : Prop where
  total (bytes : List UInt8) : ∃ chars, codec.read bytes = .ok chars
  single (byte : UInt8) : ∃ c, codec.read [byte] = .ok [c]

theorem Encoding.exists_decode_single (encoding : Encoding) (byte : UInt8) :
    ∃ c, encoding.decode [byte] = [c] := by
  cases encoding with
  | utf8 =>
    unfold decode Utf8.pieces
    dsimp only
    cases Utf8.start byte with
    | none => exact ⟨_, rfl⟩
    | some started =>
      cases started with
      | inl c => exact ⟨_, rfl⟩
      | inr waiting => exact ⟨_, rfl⟩
  | ascii | latin1 | utf16le | cp1252 => exact ⟨_, rfl⟩

theorem Encoding.complete (encoding : Encoding) : encoding.codec.Complete where
  total _ := ⟨_, rfl⟩
  single byte := by
    obtain ⟨c, hdecode⟩ := encoding.exists_decode_single byte
    exact ⟨c, congrArg Except.ok hdecode⟩

end BinarySchema.Text
