import BinarySchema.Text.Hex
import BinarySchema.Text.Printable

/-!
# Quoted text

Messages show text between quotes. Apostrophes enclose it unless it holds an apostrophe and no
double quote. Inside, the backslash and the enclosing quote stand behind a backslash, a line feed,
carriage return or tab is written by its letter, and any other unprintable character by its code
point in two, four or eight hexadecimal digits.
-/

namespace BinarySchema.Text

/-- An unprintable character by its code point. -/
def codeEscape (c : Char) : List Char :=
  if c.toNat < 0x100 then '\\' :: 'x' :: hexDigits 2 c.toNat
  else if c.toNat < 0x10000 then '\\' :: 'u' :: hexDigits 4 c.toNat
  else '\\' :: 'U' :: hexDigits 8 c.toNat

/-- One character as it stands between two quotes of the given kind. -/
def quoteChar (quote c : Char) : List Char :=
  if c = quote ∨ c = '\\' then ['\\', c]
  else if c = '\n' then ['\\', 'n']
  else if c = '\r' then ['\\', 'r']
  else if c = '\t' then ['\\', 't']
  else if isPrintable c then [c]
  else codeEscape c

def enclosingQuote (chars : List Char) : Char :=
  if chars.contains '\'' && !chars.contains '"' then '"' else '\''

def quoteChars (chars : List Char) : List Char :=
  let quote := enclosingQuote chars
  quote :: chars.flatMap (quoteChar quote) ++ [quote]

def quoted (text : String) : String :=
  String.ofList (quoteChars text.toList)

/-! ### Code points that are no characters -/

/-- The characters of code points. Surrogates are none, and the replacement character stands for
each of them. -/
def ofCodes (codes : List Nat) : List Char :=
  codes.map fun code => if code.isValidChar then Char.ofNat code else '\ufffd'

/-- The characters of code points, where a high and a low surrogate in a row stand for one. -/
def joinSurrogates : List Nat → List Char
  | [] => []
  | high :: low :: rest =>
    if 0xd800 ≤ high ∧ high < 0xdc00 ∧ 0xdc00 ≤ low ∧ low < 0xe000 then
      Char.ofNat (0x10000 + (high - 0xd800) * 0x400 + (low - 0xdc00)) :: joinSurrogates rest
    else ofCodes [high] ++ joinSurrogates (low :: rest)
  | [code] => ofCodes [code]

/-- One code point as it stands between two quotes of the given kind. -/
def quoteCode (quote : Char) (code : Nat) : List Char :=
  if code.isValidChar then quoteChar quote (Char.ofNat code) else '\\' :: 'u' :: hexDigits 4 code

/-- Quoted text with code points that may be surrogates. -/
def quotedCodes (codes : List Nat) : String :=
  let quote := enclosingQuote (ofCodes codes)
  String.ofList (quote :: codes.flatMap (quoteCode quote) ++ [quote])

end BinarySchema.Text
