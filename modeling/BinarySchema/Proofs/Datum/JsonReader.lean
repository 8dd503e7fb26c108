import BinarySchema.Datum.Json
import BinarySchema.Proofs.Number.Hexadecimal

/-!
# A reader of JSON

The value that a JSON text stands for, by the standard grammar: values with blank space around them,
lists and maps with commas between what is in them and none behind it, strings with escapes and without
control characters, and decimal numbers without needless zeros. Numbers with a fraction or an exponent are
doubles, and of two entries with one key the later one counts. Escapes of surrogates in a row make one
character.

A reader takes what it can read from the front of a text and leaves the rest. What it makes of the written
forms of strings and integers is `readString_escaped` and `readNumber_decimal`: it gives back the string
and the integer, up to what stands behind them.
-/

namespace BinarySchema.Datum.Json

def isSpace (c : Char) : Bool :=
  c = ' ' || c = '\t' || c = '\n' || c = '\r'

def skip (chars : List Char) : List Char :=
  chars.dropWhile isSpace

/-! ### Strings -/

/-- The character that an escape of one letter stands for. -/
def unescaped? (c : Char) : Option Char :=
  match c with
  | '"' | '\\' | '/' => some c
  | 'b' => some '\x08'
  | 'f' => some '\x0c'
  | 'n' => some '\n'
  | 'r' => some '\r'
  | 't' => some '\t'
  | _ => none

/-- The codes of a string up to the quote that closes it, those of surrogates one by one. -/
def readUnits : List Char → Option (List Nat × List Char)
  | [] => none
  | '"' :: rest => some ([], rest)
  | '\\' :: 'u' :: d₁ :: d₂ :: d₃ :: d₄ :: rest =>
    if [d₁, d₂, d₃, d₄].all Text.isHexDigit then
      (readUnits rest).map (Prod.map (Number.rowValue 16 [d₁, d₂, d₃, d₄] :: ·) id)
    else none
  | '\\' :: letter :: rest =>
    (unescaped? letter).bind fun c => (readUnits rest).map (Prod.map (c.toNat :: ·) id)
  | c :: rest =>
    if c < ' ' ∨ c = '\\' then none else (readUnits rest).map (Prod.map (c.toNat :: ·) id)

/-- The code points of codes in which a high and a low surrogate in a row stand for one. -/
def joinPairs : List Nat → List Nat
  | high :: low :: rest =>
    if 0xd800 ≤ high ∧ high < 0xdc00 ∧ 0xdc00 ≤ low ∧ low < 0xe000 then
      (0x10000 + (high - 0xd800) * 0x400 + (low - 0xdc00)) :: joinPairs rest
    else high :: joinPairs (low :: rest)
  | codes => codes

def readString (chars : List Char) : Option (Datum × List Char) :=
  (readUnits chars).map fun (units, rest) => (ofCodes (joinPairs units), rest)

/-! ### Numbers -/

/-- The digits of a fraction. There are none without a point, and at least one behind it. -/
def readFraction : List Char → Option (List Char × List Char)
  | '.' :: rest =>
    let digits := rest.takeWhile Char.isDigit
    if digits.isEmpty then none else some (digits, rest.dropWhile Char.isDigit)
  | chars => some ([], chars)

def readExponent (chars : List Char) : Option (Option Int × List Char) :=
  match chars with
  | [] => some (none, [])
  | mark :: rest =>
    if mark = 'e' ∨ mark = 'E' then
      let unsigned := if rest.head? = some '-' ∨ rest.head? = some '+' then rest.tail else rest
      let digits := unsigned.takeWhile Char.isDigit
      let size := (Nat.ofDigitChars 10 digits 0 : Int)
      if digits.isEmpty then none
      else some (some (if rest.head? = some '-' then -size else size), unsigned.dropWhile Char.isDigit)
    else some (none, chars)

/-- A number without its sign. -/
def readUnsigned (negative : Bool) (chars : List Char) : Option (Datum × List Char) :=
  let digits := chars.takeWhile Char.isDigit
  if digits.isEmpty ∨ (digits.head? = some '0' ∧ 1 < digits.length) then none
  else do
    let (fraction, behind) ← readFraction (chars.dropWhile Char.isDigit)
    let (exponent, rest) ← readExponent behind
    if fraction.isEmpty ∧ exponent.isNone then
      let size := (Nat.ofDigitChars 10 digits 0 : Int)
      pure (.int (if negative then -size else size), rest)
    else
      let size := Nat.ofDigitChars 10 (digits ++ fraction) 0
      pure (.double (.ofDecimal negative size (exponent.getD 0 - fraction.length)), rest)

def readNumber : List Char → Option (Datum × List Char)
  | '-' :: rest => readUnsigned true rest
  | chars => readUnsigned false chars

/-! ### Values -/

def readWord : List Char → Option (Datum × List Char)
  | 'n' :: 'u' :: 'l' :: 'l' :: rest => some (.null, rest)
  | 't' :: 'r' :: 'u' :: 'e' :: rest => some (.bool true, rest)
  | 'f' :: 'a' :: 'l' :: 's' :: 'e' :: rest => some (.bool false, rest)
  | _ => none

section

variable {α : Type} (closing : Char) (element : List Char → Option (α × List Char))

/-- At least one element, commas between the elements, and a bracket that closes them. -/
def readSeries : (steps : Nat) → List Char → Option (List α × List Char)
  | 0, _ => none
  | steps + 1, chars => do
    let (found, rest) ← element chars
    match skip rest with
    | [] => none
    | c :: behind =>
      if c = ',' then (readSeries steps behind).map (Prod.map (found :: ·) id)
      else if c = closing then some ([found], behind)
      else none

/-- Elements behind the bracket that opens them. There are fewer of them than characters. -/
def readBracketed (chars : List Char) : Option (List α × List Char) :=
  match skip chars with
  | [] => none
  | c :: behind =>
    if c = closing then some ([], behind) else readSeries closing element chars.length chars

end

/-- A key, a colon and a value. -/
def readEntry (value : List Char → Option (Datum × List Char)) (chars : List Char) :
    Option ((Datum × Datum) × List Char) :=
  match skip chars with
  | '"' :: rest => do
    let (key, behind) ← readString rest
    match skip behind with
    | ':' :: rest => (value rest).map (Prod.map (key, ·) id)
    | _ => none
  | _ => none

/-- A value with the given first character, with a reader for the values inside. -/
def readFrom (inner : List Char → Option (Datum × List Char)) (c : Char) (rest : List Char) :
    Option (Datum × List Char) :=
  if c = '"' then readString rest
  else if c = '[' then (readBracketed ']' inner rest).map (Prod.map .list id)
  else if c = '\x7b' then (readBracketed '\x7d' (readEntry inner) rest).map (Prod.map ofEntries id)
  else if c = '-' ∨ c.isDigit then readNumber (c :: rest)
  else readWord (c :: rest)

/-- A value in which values are nested at most to the given depth. -/
def readValue : (depth : Nat) → List Char → Option (Datum × List Char)
  | 0, _ => none
  | depth + 1, chars =>
    match skip chars with
    | [] => none
    | c :: rest => readFrom (readValue depth) c rest

/-- The value of a JSON text. No text has more levels than characters. -/
def read (json : String) : Option Datum :=
  match readValue json.length json.toList with
  | some (value, rest) => if (skip rest).isEmpty then some value else none
  | none => none

/-! ### Reading strings as they are written -/

/-- The codes that a character is written with. -/
def units (c : Char) : List Nat :=
  if c.toNat < 0x10000 then [c.toNat]
  else [0xd800 + (c.toNat - 0x10000) / 0x400, 0xdc00 + (c.toNat - 0x10000) % 0x400]

theorem readUnits_unicodeEscape {unit : Nat} (h : unit < 0x10000) (rest : List Char) :
    readUnits (unicodeEscape unit ++ rest)
      = (readUnits rest).map (Prod.map (unit :: ·) id) := by
  have hvalue : Number.rowValue 16 (Text.hexDigits 4 unit) = unit := by
    rw [Number.rowValue_hexDigits]
    exact Nat.mod_eq_of_lt h
  have hdigits : (Text.hexDigits 4 unit).all Text.isHexDigit = true :=
    List.all_eq_true.2 fun _ => Number.isHexDigit_of_mem
  obtain ⟨d₁, d₂, d₃, d₄, hfour⟩ : ∃ d₁ d₂ d₃ d₄, Text.hexDigits 4 unit = [d₁, d₂, d₃, d₄] :=
    ⟨_, _, _, _, rfl⟩
  rw [hfour] at hvalue hdigits
  rw [unicodeEscape, hfour]
  refine (if_pos hdigits).trans ?_
  rw [hvalue]
  rfl

/-- What is read of the written form of a character. -/
theorem readUnits_escapeChar (c : Char) (rest : List Char) :
    readUnits (escapeChar c ++ rest) = (readUnits rest).map (Prod.map (units c ++ ·) id) := by
  have hlast : c.toNat < 0x110000 := by
    rcases c.valid with h | h
    · exact Nat.lt_trans h (by decide)
    · exact h.2
  unfold escapeChar
  split
  iterate 7 rfl
  rename_i hquote hbackslash _ _ _ _ _
  split
  · -- A character that stands for itself.
    rename_i hprintable
    have hplane : c.toNat < 0x10000 := Nat.lt_of_le_of_lt hprintable.2 (by decide)
    have hvisible : ¬ c < ' ' := Char.not_lt.2 hprintable.1
    rw [List.singleton_append, readUnits.eq_5 c rest hquote (fun _ _ _ _ _ h _ => hbackslash h)
      fun _ _ h _ => hbackslash h, if_neg (not_or.2 ⟨hvisible, hbackslash⟩), units, if_pos hplane]
    rfl
  · split
    · rename_i hplane
      rw [readUnits_unicodeEscape hplane, units, if_pos hplane]
      rfl
    · rename_i hplane
      rw [List.append_assoc, readUnits_unicodeEscape (by omega), readUnits_unicodeEscape (by omega),
        Option.map_map, units, if_neg hplane]
      rfl

theorem readUnits_escaped (chars rest : List Char) :
    readUnits (chars.flatMap escapeChar ++ '"' :: rest) = some (chars.flatMap units, rest) := by
  induction chars with
  | nil => rfl
  | cons c chars ih =>
    rw [List.flatMap_cons, List.append_assoc, readUnits_escapeChar, ih, List.flatMap_cons]
    rfl

theorem joinPairs_cons {code : Nat} (h : ¬ (0xd800 ≤ code ∧ code < 0xdc00)) (rest : List Nat) :
    joinPairs (code :: rest) = code :: joinPairs rest := by
  cases rest with
  | nil => rfl
  | cons low rest => rw [joinPairs, if_neg fun hpair => h ⟨hpair.1, hpair.2.1⟩]

theorem joinPairs_units (chars : List Char) :
    joinPairs (chars.flatMap units) = chars.map Char.toNat := by
  induction chars with
  | nil => rfl
  | cons c chars ih =>
    have hvalid : c.toNat < 0xd800 ∨ 0xdfff < c.toNat ∧ c.toNat < 0x110000 := c.valid
    rw [List.flatMap_cons, units, List.map_cons, ← ih]
    split
    · exact joinPairs_cons (by omega) _
    · have hpair : 0xd800 ≤ 0xd800 + (c.toNat - 0x10000) / 0x400 ∧
          0xd800 + (c.toNat - 0x10000) / 0x400 < 0xdc00 ∧
          0xdc00 ≤ 0xdc00 + (c.toNat - 0x10000) % 0x400 ∧
          0xdc00 + (c.toNat - 0x10000) % 0x400 < 0xe000 := by
        omega
      have hcode : 0x10000 + (0xd800 + (c.toNat - 0x10000) / 0x400 - 0xd800) * 0x400 +
          (0xdc00 + (c.toNat - 0x10000) % 0x400 - 0xdc00) = c.toNat := by
        omega
      rw [List.cons_append, List.cons_append, List.nil_append, joinPairs, if_pos hpair, hcode]

theorem ofCodes_toNat (chars : List Char) :
    ofCodes (chars.map Char.toNat) = .text (String.ofList chars) := by
  have hvalid : (chars.map Char.toNat).all (fun point => point.isValidChar) = true := by
    rw [List.all_map]
    exact List.all_eq_true.2 fun c _ => decide_eq_true c.valid
  have hchars : Text.ofCodes (chars.map Char.toNat) = chars := by
    rw [Text.ofCodes, List.map_map]
    refine (List.map_congr_left fun c _ => ?_).trans (List.map_id' chars)
    exact (if_pos c.valid).trans (Char.ofNat_toNat c)
  rw [ofCodes, if_pos hvalid, hchars]

theorem readString_escaped (content : String) (rest : List Char) :
    readString (content.toList.flatMap escapeChar ++ '"' :: rest) = some (.text content, rest) := by
  rw [readString, readUnits_escaped, ← String.ofList_toList (s := content), ← ofCodes_toNat,
    ← joinPairs_units, String.toList_ofList]
  rfl

/-! ### Reading integers as they are written -/

def EndsNumber (rest : List Char) : Prop :=
  ∀ c ∈ rest.head?, c ∈ [',', ']', '\x7d', '\n']

section

variable {rest : List Char} (hrest : EndsNumber rest)

include hrest

theorem not_isDigit_of_endsNumber {c : Char} (h : c ∈ rest.head?) : c.isDigit = false := by
  have hc := hrest c h
  simp only [List.mem_cons, List.not_mem_nil, or_false] at hc
  rcases hc with rfl | rfl | rfl | rfl <;> rfl

theorem readFraction_of_endsNumber : readFraction rest = some ([], rest) := by
  cases rest with
  | nil => rfl
  | cons c rest =>
    have hc := hrest c rfl
    simp only [List.mem_cons, List.not_mem_nil, or_false] at hc
    rcases hc with rfl | rfl | rfl | rfl <;> rfl

theorem readExponent_of_endsNumber : readExponent rest = some (none, rest) := by
  cases rest with
  | nil => rfl
  | cons c rest =>
    have hc := hrest c rfl
    simp only [List.mem_cons, List.not_mem_nil, or_false] at hc
    rcases hc with rfl | rfl | rfl | rfl <;> rfl

theorem takeWhile_digits {digits : List Char} (h : ∀ c ∈ digits, c.isDigit = true) :
    (digits ++ rest).takeWhile Char.isDigit = digits ∧
      (digits ++ rest).dropWhile Char.isDigit = rest := by
  rw [List.takeWhile_append_of_pos h, List.dropWhile_append_of_pos h]
  cases rest with
  | nil => exact ⟨List.append_nil digits, rfl⟩
  | cons c rest =>
    have hc : ¬ c.isDigit = true := by
      rw [not_isDigit_of_endsNumber hrest rfl]
      exact Bool.false_ne_true
    rw [List.takeWhile_cons_of_neg hc, List.dropWhile_cons_of_neg hc]
    exact ⟨List.append_nil digits, rfl⟩

end

theorem eq_zero_of_head?_toDigits {n : Nat} (h : (Nat.toDigits 10 n).head? = some '0') : n = 0 := by
  induction n using Nat.strongRecOn with
  | ind n ih =>
    by_cases hone : n < 10
    · have hdigit : ∀ n < 10, Nat.digitChar n = '0' → n = 0 := by decide
      rw [Nat.toDigits_of_lt_base hone] at h
      exact hdigit n hone (Option.some.inj h)
    · rw [Nat.toDigits_of_base_le (by decide) (Nat.le_of_not_lt hone),
        List.head?_append_of_ne_nil _ Nat.toDigits_ne_nil] at h
      have hfront := ih (n / 10) (by omega) h
      omega

theorem readUnsigned_toDigits (negative : Bool) (n : Nat) {rest : List Char} (h : EndsNumber rest) :
    readUnsigned negative (Nat.toDigits 10 n ++ rest)
      = some (.int (if negative then -(n : Int) else n), rest) := by
  obtain ⟨htake, hdrop⟩ := takeWhile_digits h fun c hc =>
    Nat.isDigit_of_mem_toDigits (b := 10) (n := n) (by decide) (by decide) hc
  have hnumeral : ¬ ((Nat.toDigits 10 n).isEmpty ∨
      ((Nat.toDigits 10 n).head? = some '0' ∧ 1 < (Nat.toDigits 10 n).length)) := by
    rintro (hempty | ⟨hzero, hlong⟩)
    · exact Nat.toDigits_ne_nil (List.isEmpty_iff.1 hempty)
    · rw [eq_zero_of_head?_toDigits hzero] at hlong
      exact absurd hlong (by decide)
  unfold readUnsigned
  rw [htake, hdrop, if_neg hnumeral, readFraction_of_endsNumber h]
  change (readExponent rest).bind _ = _
  rw [readExponent_of_endsNumber h]
  change some (Datum.int (if negative then -(Nat.ofDigitChars 10 (Nat.toDigits 10 n) 0 : Int)
    else (Nat.ofDigitChars 10 (Nat.toDigits 10 n) 0 : Int)), rest) = _
  rw [Nat.ofDigitChars_ten_toDigits]

theorem toDigits_eq_cons (n : Nat) :
    ∃ c digits, Nat.toDigits 10 n = c :: digits ∧ c.isDigit = true := by
  obtain ⟨c, digits, h⟩ := List.exists_cons_of_ne_nil (Nat.toDigits_ne_nil (n := n) (b := 10))
  have hc : c ∈ Nat.toDigits 10 n := by
    rw [h]
    exact List.mem_cons_self
  exact ⟨c, digits, h, Nat.isDigit_of_mem_toDigits (by decide) (by decide) hc⟩

theorem readNumber_decimal (n : Int) {rest : List Char} (h : EndsNumber rest) :
    readNumber ((Number.decimal n).toList ++ rest) = some (.int n, rest) := by
  cases n with
  | ofNat n =>
    have hunsigned (more : List Char) (hsign : Nat.toDigits 10 n ++ rest = '-' :: more) : False := by
      obtain ⟨c, digits, hdigits, hc⟩ := toDigits_eq_cons n
      rw [hdigits] at hsign
      obtain rfl := (List.cons.inj hsign).1
      exact absurd hc (by decide)
    rw [Number.decimal, Nat.toList_repr, readNumber.eq_2 _ hunsigned]
    exact readUnsigned_toDigits false n h
  | negSucc n =>
    rw [Number.decimal, String.toList_append, Nat.toList_repr]
    exact readUnsigned_toDigits true (n + 1) h

end BinarySchema.Datum.Json
