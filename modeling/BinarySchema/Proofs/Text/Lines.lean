import Mathlib
import BinarySchema.Datum
import BinarySchema.Proofs.Number.Hexadecimal
import BinarySchema.Text.Split

/-!
# Lines of text

A text without a line feed is one line. The written forms of numbers are lines, and so is quoted text,
whatever the text is. Lines that are joined are split into the same lines again; and if the pieces of a
joined text are as many as what was joined, then each of these was a line.
-/

namespace BinarySchema

namespace Text

/-! ### Splitting what was joined -/

theorem splitOn_of_not_mem {separator : Char} {chars : List Char} (h : separator ∉ chars) :
    splitOn separator chars = [chars] := by
  induction chars with
  | nil => rfl
  | cons c rest ih =>
    rw [List.mem_cons, not_or] at h
    rw [splitOn, if_neg (Ne.symm h.1), ih h.2]

theorem splitOn_append_cons {separator : Char} {front : List Char} (h : separator ∉ front)
    (rest : List Char) :
    splitOn separator (front ++ separator :: rest) = front :: splitOn separator rest := by
  induction front with
  | nil => rw [List.nil_append, splitOn, if_pos rfl]
  | cons c front ih =>
    rw [List.mem_cons, not_or] at h
    rw [List.cons_append, splitOn, if_neg (Ne.symm h.1), ih h.2]

theorem splitOn_intercalate {separator : Char} {parts : List (List Char)} (hparts : parts ≠ [])
    (h : ∀ part ∈ parts, separator ∉ part) :
    splitOn separator ([separator].intercalate parts) = parts := by
  induction parts with
  | nil => exact absurd rfl hparts
  | cons part rest ih =>
    cases rest with
    | nil => simpa using splitOn_of_not_mem (h part List.mem_cons_self)
    | cons next rest =>
      rw [List.intercalate_cons_cons, List.append_assoc, List.singleton_append,
        splitOn_append_cons (h part List.mem_cons_self),
        ih (List.cons_ne_nil _ _) fun other hother => h other (List.mem_cons_of_mem _ hother)]

theorem splitOn_length (separator : Char) (chars : List Char) :
    (splitOn separator chars).length = chars.count separator + 1 := by
  induction chars with
  | nil => rfl
  | cons c rest ih =>
    obtain ⟨piece, more, hrest⟩ := List.exists_cons_of_ne_nil (splitOn_ne_nil separator rest)
    rw [hrest] at ih
    by_cases h : c = separator
    · simp [splitOn, h, hrest, ← ih]
    · simp [splitOn, h, hrest, ← ih]

theorem splitOn_intercalate_length {separator : Char} {parts : List (List Char)}
    (hparts : parts ≠ []) :
    (splitOn separator ([separator].intercalate parts)).length
      = (parts.map fun part => part.count separator + 1).sum := by
  rw [splitOn_length]
  induction parts with
  | nil => exact absurd rfl hparts
  | cons part rest ih =>
    cases rest with
    | nil => simp
    | cons next rest =>
      have hrest := ih (List.cons_ne_nil _ _)
      rw [List.intercalate_cons_cons, List.count_append, List.count_append, List.map_cons,
        List.sum_cons, ← hrest, List.count_singleton_self]
      omega

/-- As many pieces as parts are left only if no part has a separator in it. -/
theorem not_mem_of_splitOn_length {separator : Char} {parts : List (List Char)} (hparts : parts ≠ [])
    (h : (splitOn separator ([separator].intercalate parts)).length = parts.length) :
    ∀ part ∈ parts, separator ∉ part := by
  rw [splitOn_intercalate_length hparts] at h
  clear hparts
  induction parts with
  | nil => simp
  | cons part rest ih =>
    have hrest : rest.length ≤ (rest.map fun part => part.count separator + 1).sum := by
      rw [← List.length_map (f := fun part => part.count separator + 1)]
      apply List.length_le_sum_of_one_le
      simp
    rw [List.map_cons, List.sum_cons, List.length_cons] at h
    rw [List.forall_mem_cons]
    constructor
    · apply List.count_eq_zero.1
      omega
    · apply ih
      omega

/-! ### Lines -/

def IsLine (text : String) : Prop :=
  '\n' ∉ text.toList

theorem isLine_append {front back : String} : IsLine (front ++ back) ↔ IsLine front ∧ IsLine back := by
  simp [IsLine]

theorem isLine_ofList {chars : List Char} : IsLine (String.ofList chars) ↔ '\n' ∉ chars := by
  simp [IsLine]

theorem lineFeed_not_mem_toDigits (n : Nat) : '\n' ∉ Nat.toDigits 10 n := fun hmem =>
  absurd (Nat.isDigit_of_mem_toDigits (by decide) (by decide) hmem) (by decide)

theorem isLine_repr (n : Nat) : IsLine (Nat.repr n) := by
  rw [Nat.repr, isLine_ofList]
  exact lineFeed_not_mem_toDigits n

theorem isLine_toString_int (n : Int) : IsLine (toString n) := by
  cases n with
  | ofNat n => exact isLine_repr n
  | negSucc n => exact isLine_append.2 ⟨by simp [IsLine], isLine_repr _⟩

theorem lineFeed_not_mem_hexDigits (width n : Nat) : '\n' ∉ hexDigits width n := fun hmem =>
  absurd (Number.isHexDigit_of_mem hmem) (by decide)

theorem lineFeed_not_mem_quoteChar {quote : Char} (hquote : quote ≠ '\n') (c : Char) :
    '\n' ∉ quoteChar quote c := by
  unfold quoteChar codeEscape
  split
  · rename_i h
    rcases h with rfl | rfl
    · simp [Ne.symm hquote]
    · simp
  · split_ifs <;> simp [lineFeed_not_mem_hexDigits]
    rename_i h _ _ _
    exact Ne.symm h

theorem isLine_quoted (text : String) : IsLine (quoted text) := by
  have hquote : enclosingQuote text.toList ≠ '\n' := by
    unfold enclosingQuote
    split <;> decide
  rw [quoted, isLine_ofList, quoteChars]
  simp [Ne.symm hquote, lineFeed_not_mem_quoteChar hquote]

end Text

namespace Number

open Text

theorem isLine_decimal (n : Int) : IsLine (decimal n) := by
  unfold decimal
  split
  · exact isLine_repr _
  · exact isLine_append.2 ⟨by simp [IsLine], isLine_repr _⟩

theorem isLine_layout (d : Decimal) : IsLine (Double.layout d) := by
  have hdigits (n : Nat) : '\n' ∉ Nat.toDigits 10 n := lineFeed_not_mem_toDigits n
  have htake (n k : Nat) : '\n' ∉ (Nat.toDigits 10 n).take k := fun h =>
    hdigits n (List.mem_of_mem_take h)
  have hdrop (n k : Nat) : '\n' ∉ (Nat.toDigits 10 n).drop k := fun h =>
    hdigits n (List.mem_of_mem_drop h)
  unfold Double.layout
  dsimp only
  split
  · split
    · apply isLine_ofList.2
      simp [hdigits]
    · apply isLine_ofList.2
      split <;> simp [htake, hdrop]
  · have htail : '\n' ∉ (Nat.toDigits 10 d.digits).tail := by simpa using hdrop d.digits 1
    apply isLine_ofList.2
    split_ifs <;> simp [hdigits, htake, htail]

theorem isLine_text (x : Double) : IsLine x.text := by
  have hsign : IsLine "-" := by simp [IsLine]
  have hzero : IsLine "0.0" := by simp [IsLine]
  unfold Double.text
  split
  · simp [IsLine]
  · split <;> simp [IsLine]
  · dsimp only
    split_ifs <;> simp only [isLine_append, isLine_layout, hsign, hzero, and_self]

end Number

end BinarySchema
