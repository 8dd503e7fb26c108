import BinarySchema.Text.Hex

/-!
# Text encodings

How bytes are read as text. The encodings here never fail to: a byte, or a run of bytes, that stands for
no character becomes the replacement character U+FFFD. For UTF-8 the reader also says what is wrong with
each such run, because files are refused with that description.

Which codecs there are depends on where a program runs, so they are given as `Codecs`, under their labels.
Some of them are not for text at all, and some cannot replace what they cannot read.
-/

namespace BinarySchema.Text

inductive Encoding where
  | ascii
  | latin1
  | utf8
  | utf16le
  | cp1252
  deriving DecidableEq, Repr

def replacement : Char := '\ufffd'

/-! ### One byte per character -/

def asciiChar (byte : UInt8) : Char :=
  if byte < 0x80 then Char.ofUInt8 byte else replacement

/-- The characters of code page 1252 for the bytes from 0x80 to 0x9f. -/
def cp1252Controls : List Char :=
  ['\u20ac', '\ufffd', '\u201a', '\u0192', '\u201e', '\u2026', '\u2020', '\u2021',
   '\u02c6', '\u2030', '\u0160', '\u2039', '\u0152', '\ufffd', '\u017d', '\ufffd',
   '\ufffd', '\u2018', '\u2019', '\u201c', '\u201d', '\u2022', '\u2013', '\u2014',
   '\u02dc', '\u2122', '\u0161', '\u203a', '\u0153', '\ufffd', '\u017e', '\u0178']

def cp1252Char (byte : UInt8) : Char :=
  if 0x80 ≤ byte ∧ byte < 0xa0 then cp1252Controls.getD (byte.toNat - 0x80) replacement
  else Char.ofUInt8 byte

/-! ### UTF-8 -/

namespace Utf8

/-- Why a run of bytes is no UTF-8. -/
inductive Fault where
  | invalidStart
  | invalidContinuation
  | unexpectedEnd
  deriving DecidableEq, Repr

def Fault.reason : Fault → String
  | .invalidStart => "invalid start byte"
  | .invalidContinuation => "invalid continuation byte"
  | .unexpectedEnd => "unexpected end of data"

/-- A piece of a byte string: a character, or a run of bytes that stands for none. -/
inductive Piece where
  | char (c : Char)
  | fault (first : UInt8) (length : Nat) (fault : Fault)
  deriving DecidableEq, Repr

/-- A character that has begun: its first byte, the bytes read and still owed, the bounds of the
next byte and the bits gathered so far. -/
structure Partial where
  first : UInt8
  taken : Nat
  owed : Nat
  low : UInt8
  high : UInt8
  bits : Nat

/-- What a byte means between two characters: a character, the beginning of a longer one, or
neither. -/
def start (byte : UInt8) : Option (Char ⊕ Partial) :=
  let bits := byte.toNat
  if byte < 0x80 then some (.inl (Char.ofUInt8 byte))
  else if byte < 0xc2 then none
  else if byte < 0xe0 then some (.inr ⟨byte, 1, 1, 0x80, 0xbf, bits - 0xc0⟩)
  else if byte = 0xe0 then some (.inr ⟨byte, 1, 2, 0xa0, 0xbf, 0⟩)
  else if byte = 0xed then some (.inr ⟨byte, 1, 2, 0x80, 0x9f, 0xd⟩)
  else if byte < 0xf0 then some (.inr ⟨byte, 1, 2, 0x80, 0xbf, bits - 0xe0⟩)
  else if byte = 0xf0 then some (.inr ⟨byte, 1, 3, 0x90, 0xbf, 0⟩)
  else if byte < 0xf4 then some (.inr ⟨byte, 1, 3, 0x80, 0xbf, bits - 0xf0⟩)
  else if byte = 0xf4 then some (.inr ⟨byte, 1, 3, 0x80, 0x8f, 4⟩)
  else none

/-- Reads the bytes that follow a begun character, if there is one. A byte that cannot continue it
ends the faulty run before itself and is read as a first byte. -/
def pieces : Option Partial → List UInt8 → List Piece
  | none, [] => []
  | some p, [] => [.fault p.first p.taken .unexpectedEnd]
  | none, byte :: rest =>
    match start byte with
    | some (.inl c) => .char c :: pieces none rest
    | some (.inr p) => pieces (some p) rest
    | none => .fault byte 1 .invalidStart :: pieces none rest
  | some p, byte :: rest =>
    if p.low ≤ byte ∧ byte ≤ p.high then
      let bits := p.bits * 64 + (byte.toNat - 0x80)
      if p.owed = 1 then .char (Char.ofNat bits) :: pieces none rest
      else pieces (some ⟨p.first, p.taken + 1, p.owed - 1, 0x80, 0xbf, bits⟩) rest
    else
      let fault := Piece.fault p.first p.taken .invalidContinuation
      match start byte with
      | some (.inl c) => fault :: .char c :: pieces none rest
      | some (.inr q) => fault :: pieces (some q) rest
      | none => fault :: .fault byte 1 .invalidStart :: pieces none rest

def Piece.toChar : Piece → Char
  | .char c => c
  | .fault .. => replacement

/-- The number of bytes that a character takes. -/
def byteLength (c : Char) : Nat :=
  if c.toNat < 0x80 then 1 else if c.toNat < 0x800 then 2 else if c.toNat < 0x10000 then 3 else 4

/-- The first faulty run, with the number of bytes before it. -/
def firstFault : Nat → List Piece → Option (Nat × UInt8 × Nat × Fault)
  | _, [] => none
  | position, .char c :: rest => firstFault (position + byteLength c) rest
  | position, .fault first length fault :: _ => some (position, first, length, fault)

/-- How a faulty run is described: by its byte when it has only one, else by its positions. -/
def describe (position : Nat) (first : UInt8) (length : Nat) (fault : Fault) : String :=
  let place :=
    if length = 1 then s!"byte 0x{String.ofList (hexDigits 2 first.toNat)} in position {position}"
    else s!"bytes in position {position}-{position + length - 1}"
  s!"'utf-8' codec can't decode {place}: {fault.reason}"

/-- Whether bytes are the first two of the three that a surrogate would have. -/
def beginsSurrogate : List UInt8 → Bool
  | [first, second] => first = 0xed && 0xa0 ≤ second && second < 0xc0
  | _ => false

/-- Reads text that must be wholly UTF-8, or describes the first fault. When text is taken part by
part as it comes, a character or surrogate that its end cuts off is a part by itself, and is described
as one. -/
def read (bytes : List UInt8) (byParts : Bool := false) : Except String (List Char) :=
  let all := pieces none bytes
  match firstFault 0 all with
  | some (position, first, length, fault) =>
    let cutOff := fault = .unexpectedEnd || beginsSurrogate (bytes.drop position)
    .error (describe (if byParts && cutOff then 0 else position) first length fault)
  | none => .ok (all.map Piece.toChar)

end Utf8

/-! ### UTF-16, least significant byte first -/

namespace Utf16

/-- Reads 16-bit units. A high surrogate waits for its low one; a surrogate without its other half
is replaced, and a waiting surrogate takes the incomplete unit at the end with it. -/
def chars : Option Nat → List UInt8 → List Char
  | none, [] => []
  | none, [_] => [replacement]
  | some _, [] => [replacement]
  | some _, [_] => [replacement]
  | waiting, low :: high :: rest =>
    let unit := low.toNat + 256 * high.toNat
    if 0xdc00 ≤ unit ∧ unit < 0xe000 then
      let c := match waiting with
        | some first => Char.ofNat (0x10000 + (first - 0xd800) * 0x400 + (unit - 0xdc00))
        | none => replacement
      c :: chars none rest
    else
      let orphan := if waiting.isSome then [replacement] else []
      if 0xd800 ≤ unit ∧ unit < 0xdc00 then orphan ++ chars (some unit) rest
      else orphan ++ Char.ofNat unit :: chars none rest

end Utf16

/-! ### Reading and naming -/

namespace Encoding

/-- The text that bytes stand for, with the replacement character for what stands for nothing. -/
def decode : Encoding → List UInt8 → List Char
  | .ascii, bytes => bytes.map asciiChar
  | .latin1, bytes => bytes.map Char.ofUInt8
  | .utf8, bytes => (Utf8.pieces none bytes).map Utf8.Piece.toChar
  | .utf16le, bytes => Utf16.chars none bytes
  | .cp1252, bytes => bytes.map cp1252Char

/-- Brings a label to its standard spelling: letters, digits and points are kept in lower case,
each run of other characters between two of them becomes one underscore. -/
def normalizeLabel (label : List Char) : List Char :=
  go false label
where
  go (started : Bool) : List Char → List Char
    | [] => []
    | c :: rest =>
      if c.isAlphanum || c = '.' then c.toLower :: go true rest
      else if started then skip rest
      else go false rest
  skip : List Char → List Char
    | [] => []
    | c :: rest =>
      if c.isAlphanum || c = '.' then '_' :: c.toLower :: go true rest else skip rest

/-- The other names of each encoding. -/
def aliases : Encoding → List String
  | .ascii => ["646", "ansi_x3.4_1968", "ansi_x3_4_1968", "ansi_x3.4_1986", "cp367", "csascii",
      "ibm367", "iso646_us", "iso_646.irv_1991", "iso_ir_6", "us", "us_ascii"]
  | .latin1 => ["8859", "cp819", "csisolatin1", "ibm819", "iso8859", "iso8859_1", "iso_8859_1",
      "iso_8859_1_1987", "iso_ir_100", "l1", "latin", "latin1"]
  | .utf8 => ["u8", "utf", "utf8", "utf8_ucs2", "utf8_ucs4", "cp65001"]
  | .utf16le => ["unicodelittleunmarked", "utf_16le"]
  | .cp1252 => ["1252", "windows_1252"]

def name : Encoding → String
  | .ascii => "ascii"
  | .latin1 => "latin_1"
  | .utf8 => "utf_8"
  | .utf16le => "utf_16_le"
  | .cp1252 => "cp1252"

def all : List Encoding := [.ascii, .latin1, .utf8, .utf16le, .cp1252]

/-- Whether a label is a name or an alias, the latter also with its points written as underscores. -/
def isNamed (name : String) (aliases : List String) (label : String) : Bool :=
  let plain := normalizeLabel label.toList
  let text := String.ofList plain
  let underscored := String.ofList (plain.map fun c => if c = '.' then '_' else c)
  aliases.contains text || aliases.contains underscored || name == text

def ofLabel? (label : String) : Option Encoding :=
  all.find? fun encoding => isNamed encoding.name encoding.aliases label

end Encoding

/-! ### Codecs -/

/-- Why a codec gives no text. -/
inductive CodecFault where
  /-- The codec turns bytes into something else. -/
  | notText (label : String)
  /-- The codec replaces nothing, and there is something that it cannot read. -/
  | notReplaced (reason : String)
  deriving DecidableEq, Repr

def CodecFault.message : CodecFault → String
  | .notText label =>
    s!"'{label}' is not a text encoding; use codecs.decode() to handle arbitrary codecs"
  | .notReplaced reason => reason

/-- How bytes are read as text, with a replacement for what stands for no character. Text is made of
characters: a codec for escapes that makes lone surrogates of them is none of these. -/
structure Codec where
  read : List UInt8 → Except CodecFault (List Char)
  read_nil : read [] = .ok []

def Encoding.codec (encoding : Encoding) : Codec where
  read bytes := .ok (encoding.decode bytes)
  read_nil := by cases encoding <;> rfl

/-- A codec that is not for text. Where there are no bytes, it is not asked. -/
def Codec.notText (label : String) : Codec where
  read bytes := if bytes.isEmpty then .ok [] else .error (.notText label)
  read_nil := rfl

/-- The codecs that there are, under their labels. -/
structure Codecs where
  find? : String → Option Codec
  ascii : find? "ascii" = some Encoding.ascii.codec

namespace Codecs

/-- The names and aliases of codecs that are not for text. -/
def transforms : List (String × List String) := [
  ("base64_codec", ["base64", "base_64"]), ("bz2_codec", ["bz2"]), ("hex_codec", ["hex"]),
  ("quopri_codec", ["quopri", "quoted_printable", "quotedprintable"]), ("rot_13", ["rot13"]),
  ("uu_codec", ["uu"]), ("zlib_codec", ["zip", "zlib"])]

/-- The encodings above, and the codecs that are not for text. -/
def listed : Codecs where
  find? label :=
    match Encoding.ofLabel? label with
    | some encoding => some encoding.codec
    | none =>
      if transforms.any fun (name, aliases) => Encoding.isNamed name aliases label then
        some (.notText label)
      else none
  ascii := by
    have hascii : Encoding.ofLabel? "ascii" = some .ascii := by decide +kernel
    rw [hascii]

end Codecs

end BinarySchema.Text
