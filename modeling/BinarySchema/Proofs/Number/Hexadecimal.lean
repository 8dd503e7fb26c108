import BinarySchema.Proofs.Number.Numerals
import Mathlib.Data.List.Basic

/-!
# Hexadecimal numerals

The numeral of a natural number behind its mark `0x`, as short as it can be, and that it is read as the
number again. A numeral consists of hexadecimal digits only, and they are read without any limit on
their number, so this holds of every natural.
-/

namespace BinarySchema.Number

/-- The digits of a number in base sixteen, a fixed number of them, most significant first. -/
def nibbles : (width : Nat) → Nat → List Nat
  | 0, _ => []
  | width + 1, n => nibbles width (n / 16) ++ [n % 16]

def hexNumeral (n : Nat) : List Char :=
  '0' :: 'x' :: Text.hexDigits (n.log2 / 4 + 1) n

theorem nibbles_lt {width n d : Nat} (h : d ∈ nibbles width n) : d < 16 := by
  induction width generalizing n with
  | zero => cases h
  | succ width ih =>
    rcases List.mem_append.1 h with hfront | hlast
    · exact ih hfront
    · rw [List.mem_singleton.1 hlast]
      exact Nat.mod_lt n (by decide)

theorem nibbles_ne_nil (width n : Nat) : nibbles (width + 1) n ≠ [] := by
  simp [nibbles]

theorem hexDigits_eq_nibbles (width n : Nat) :
    Text.hexDigits width n = (nibbles width n).map Text.hexDigit := by
  induction width generalizing n with
  | zero => rfl
  | succ width ih =>
    have hlast : Text.hexDigit (n % 16) = Text.hexDigit n := by
      rw [Text.hexDigit, Text.hexDigit, Nat.mod_mod]
    rw [Text.hexDigits, nibbles, List.map_append, List.map_singleton, ih, hlast]

theorem isHexDigit_of_mem {width n : Nat} {c : Char} (h : c ∈ Text.hexDigits width n) :
    Text.isHexDigit c = true := by
  rw [hexDigits_eq_nibbles] at h
  obtain ⟨d, hd, rfl⟩ := List.mem_map.1 h
  rw [Text.isHexDigit, Text.hexValue?_hexDigit (nibbles_lt hd)]
  rfl

/-! ### The value of digits -/

theorem digitsValue_append (base value : Nat) (front back : List Nat) :
    digitsValue base value (front ++ back)
      = digitsValue base (digitsValue base value front) back := by
  induction front generalizing value with
  | nil => rfl
  | cons d front ih => exact ih _

theorem digitsValue_nibbles (width n : Nat) :
    digitsValue 16 0 (nibbles width n) = n % Nat.pow 16 width := by
  induction width generalizing n with
  | zero => exact (Nat.mod_one n).symm
  | succ width ih =>
    have hlast : digitsValue 16 0 (nibbles (width + 1) n)
        = n / 16 % Nat.pow 16 width * 16 + n % 16 := by
      rw [nibbles, digitsValue_append, ih]
      rfl
    have hpow : Nat.pow 16 (width + 1) = 16 * Nat.pow 16 width := Nat.mul_comm _ _
    rw [hlast, hpow, Nat.mod_mul]
    omega

theorem lt_pow_width (n : Nat) : n < Nat.pow 16 (n.log2 / 4 + 1) := by
  have hbits : n.log2 + 1 ≤ 4 * (n.log2 / 4 + 1) := by omega
  calc n < 2 ^ (n.log2 + 1) := Nat.lt_log2_self
    _ ≤ 2 ^ (4 * (n.log2 / 4 + 1)) := Nat.pow_le_pow_right (by decide) hbits
    _ = Nat.pow 16 (n.log2 / 4 + 1) := Nat.pow_mul 2 4 _

/-! ### Reading -/

theorem rowValue_hexDigits (width n : Nat) :
    rowValue 16 (Text.hexDigits width n) = n % Nat.pow 16 width := by
  have hvalues : ((nibbles width n).map Text.hexDigit).filterMap Text.hexValue? = nibbles width n := by
    rw [List.filterMap_map]
    exact (List.filterMap_congr fun d hd => Text.hexValue?_hexDigit (nibbles_lt hd)).trans
      List.filterMap_some
  rw [rowValue, hexDigits_eq_nibbles, hvalues, digitsValue_nibbles]

theorem readNumeral_hexNumeral (n : Nat) : readNumeral (hexNumeral n) = .ok (n : Int) := by
  have hfilled : Text.hexDigits (n.log2 / 4 + 1) n ≠ [] :=
    List.ne_nil_of_length_eq_add_one (Text.length_hexDigits _ n)
  have hvalue : numeralValue (hexNumeral n) = n := by
    change rowValue 16 (Text.hexDigits (n.log2 / 4 + 1) n) = n
    rw [rowValue_hexDigits, Nat.mod_eq_of_lt (lt_pow_width n)]
  have hnumeral : IsNumeral (hexNumeral n) :=
    .marked (.inl rfl) hfilled fun _ hc => isHexDigit_of_mem hc
  have hreadable : IsReadable (hexNumeral n) := .inl rfl
  rw [readNumeral_of_isNumeral hnumeral, if_pos hreadable, hvalue]

end BinarySchema.Number
