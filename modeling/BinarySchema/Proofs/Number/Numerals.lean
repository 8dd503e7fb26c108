import BinarySchema.Number.Integer
import Mathlib.Tactic.SplitIfs

/-!
# Numerals of sources

A source writes a number in decimal digits, or in hexadecimal ones behind the mark `0x`. What such a
numeral is read as does not depend on how the reader treats blanks, signs, other marks and underscores,
for digits are none of them: `readInteger_row` says that a row of digits is read as its value, by place
and base, and that only decimal rows can be too long.
-/

namespace BinarySchema.Number

/-- That characters are digits of a base. -/
def IsRow (base : Nat) (digits : List Char) : Prop :=
  ∀ c ∈ digits, ∃ d, Text.hexValue? c = some d ∧ d < base

def rowValue (base : Nat) (digits : List Char) : Nat :=
  digitsValue base 0 (digits.filterMap Text.hexValue?)

def isMarked : List Char → Bool
  | '0' :: mark :: _ => mark = 'x' || mark = 'X'
  | _ => false

def numeralValue (text : List Char) : Nat :=
  if isMarked text then rowValue 16 (text.drop 2) else rowValue 10 text

/-- The numerals of sources. -/
inductive IsNumeral : List Char → Prop
  | decimal {digits : List Char} (hfilled : digits ≠ []) (hdigits : ∀ c ∈ digits, c.isDigit = true) :
      IsNumeral digits
  | marked {mark : Char} {digits : List Char} (hmark : mark = 'x' ∨ mark = 'X') (hfilled : digits ≠ [])
      (hdigits : ∀ c ∈ digits, Text.isHexDigit c = true) : IsNumeral ('0' :: mark :: digits)

/-- That a numeral has no more decimal digits than can be read. -/
def IsReadable (text : List Char) : Prop :=
  isMarked text = true ∨ text.length ≤ digitLimit

instance (text : List Char) : Decidable (IsReadable text) :=
  inferInstanceAs (Decidable (_ ∨ _))

/-! ### Digits -/

theorem toNat_lt_of_isHexDigit {c : Char} (h : Text.isHexDigit c = true) : c.toNat < 128 := by
  simp only [Text.isHexDigit, Text.hexValue?, Char.le_def, UInt32.le_iff_toNat_le] at h
  change c.val.toNat < 128
  split_ifs at h with hdecimal hlower hupper
  · exact Nat.lt_of_le_of_lt hdecimal.2 (by decide)
  · exact Nat.lt_of_le_of_lt hlower.2 (by decide)
  · exact Nat.lt_of_le_of_lt hupper.2 (by decide)
  · cases h

theorem forall_isHexDigit (holds : Char → Prop)
    (h : ∀ n < 128, Text.isHexDigit (Char.ofNat n) = true → holds (Char.ofNat n)) {c : Char}
    (hc : Text.isHexDigit c = true) : holds c := by
  have hholds := h c.toNat (toNat_lt_of_isHexDigit hc)
  rw [Char.ofNat_toNat] at hholds
  exact hholds hc

/-- Digits are plain characters: no blank, no sign and no mark of a base that numerals have. -/
structure IsPlain (c : Char) : Prop where
  ascii : toAscii c = c
  visible : isAsciiSpace c = false
  unsigned : c ≠ '-' ∧ c ≠ '+'
  unmarked : markedBase? c ≠ some 10 ∧ markedBase? c ≠ some 16

theorem isPlain_of_isHexDigit {c : Char} (h : Text.isHexDigit c = true) : IsPlain c := by
  have hall : ∀ n < 128, Text.isHexDigit (Char.ofNat n) = true →
      toAscii (Char.ofNat n) = Char.ofNat n ∧ isAsciiSpace (Char.ofNat n) = false ∧
        (Char.ofNat n ≠ '-' ∧ Char.ofNat n ≠ '+') ∧
          markedBase? (Char.ofNat n) ≠ some 10 ∧ markedBase? (Char.ofNat n) ≠ some 16 := by
    decide +kernel
  refine forall_isHexDigit IsPlain (fun n hn hdigit => ?_) h
  obtain ⟨hascii, hvisible, hunsigned, hunmarked⟩ := hall n hn hdigit
  exact ⟨hascii, hvisible, hunsigned, hunmarked⟩

theorem isRow_of_isHexDigit {digits : List Char} (h : ∀ c ∈ digits, Text.isHexDigit c = true) :
    IsRow 16 digits := by
  have hall : ∀ n < 128, Text.isHexDigit (Char.ofNat n) = true →
      ∃ d < 16, Text.hexValue? (Char.ofNat n) = some d := by
    decide +kernel
  intro c hc
  obtain ⟨d, hd, hvalue⟩ := forall_isHexDigit (fun c => ∃ d < 16, Text.hexValue? c = some d) hall (h c hc)
  exact ⟨d, hvalue, hd⟩

theorem hexValue?_of_isDigit {c : Char} (h : c.isDigit = true) :
    ∃ d, Text.hexValue? c = some d ∧ d < 10 := by
  simp only [Char.isDigit, Bool.and_eq_true, decide_eq_true_eq] at h
  have hvalue : Text.hexValue? c = some (c.toNat - '0'.toNat) := if_pos h
  refine ⟨_, hvalue, ?_⟩
  have hlast : c.toNat ≤ 57 := h.2
  have hfirst : 48 ≤ c.toNat := h.1
  change c.toNat - 48 < 10
  omega

theorem isRow_of_isDigit {digits : List Char} (h : ∀ c ∈ digits, c.isDigit = true) :
    IsRow 10 digits :=
  fun c hc => hexValue?_of_isDigit (h c hc)

/-! ### Reading rows of digits -/

section

variable {base : Nat} {digits : List Char}

theorem IsRow.isPlain (h : IsRow base digits) {c : Char} (hc : c ∈ digits) : IsPlain c := by
  obtain ⟨d, hd, -⟩ := h c hc
  exact isPlain_of_isHexDigit (Option.isSome_iff_exists.2 ⟨d, hd⟩)

theorem IsRow.tail {c : Char} (h : IsRow base (c :: digits)) : IsRow base digits :=
  fun other hother => h other (List.mem_cons_of_mem _ hother)

theorem readDigits_cons {c : Char} {d : Nat} (hd : Text.hexValue? c = some d) (hbase : d < base)
    (underscore : Bool) (rest : List Char) : readDigits base underscore (c :: rest)
      = (readDigits base true rest).map fun (digits, left) => (d :: digits, left) := by
  have hvalue : digitValue? base c = some d := by
    rw [digitValue?, hd, Option.filter_some, decide_eq_true hbase, if_pos rfl]
  rw [readDigits, hvalue]

theorem readDigits_row (h : IsRow base digits) :
    readDigits base true digits = some (digits.filterMap Text.hexValue?, []) := by
  induction digits with
  | nil => rfl
  | cons c rest ih =>
    obtain ⟨d, hd, hbase⟩ := h c List.mem_cons_self
    rw [readDigits_cons hd hbase, ih h.tail, List.filterMap_cons_some hd]
    rfl

theorem splitMark_row (hbase : base = 10 ∨ base = 16) (h : IsRow base digits) :
    splitMark base digits = (base, false, digits) := by
  have hnonzero : (if base = 0 then 10 else base) = base := if_neg (by omega)
  unfold splitMark
  split
  · rename_i c rest
    have hunmarked := (h.isPlain (show c ∈ '0' :: c :: rest by simp)).unmarked
    split
    · rename_i marked hmarked
      have hother : ¬ (base = 0 ∨ base = marked) := by
        rintro (rfl | rfl)
        · exact absurd hbase (by decide)
        · rcases hbase with rfl | rfl
          · exact hunmarked.1 hmarked
          · exact hunmarked.2 hmarked
      rw [if_neg hother, hnonzero]
    · rw [hnonzero]
  · rw [hnonzero]

theorem length_values_row (h : IsRow base digits) :
    (digits.filterMap Text.hexValue?).length = digits.length := by
  induction digits with
  | nil => rfl
  | cons c rest ih =>
    obtain ⟨d, hd, -⟩ := h c List.mem_cons_self
    rw [List.filterMap_cons_some hd, List.length_cons, List.length_cons, ih h.tail]

/-- A row of digits is read as the number it stands for, unless it has too many decimal digits. -/
theorem readInteger_row (hbase : base = 10 ∨ base = 16) (hfilled : digits ≠ [])
    (h : IsRow base digits) : readInteger base digits =
      if base = 10 ∧ digitLimit < digits.length then .error (.tooLong digits.length)
      else .ok (rowValue base digits : Nat) := by
  obtain ⟨c, rest, rfl⟩ := List.exists_cons_of_ne_nil hfilled
  have hplain := h.isPlain List.mem_cons_self
  have hascii : (c :: rest).map toAscii = c :: rest :=
    (List.map_congr_left fun d hd => (h.isPlain hd).ascii).trans (List.map_id' _)
  have htrimmed : (c :: rest).dropWhile isAsciiSpace = c :: rest :=
    List.dropWhile_cons_of_neg (by simp [hplain.visible])
  have hread : readDigits base false (c :: rest)
      = some ((c :: rest).filterMap Text.hexValue?, []) := by
    obtain ⟨d, hd, hvalue⟩ := h c List.mem_cons_self
    rw [readDigits_cons hd hvalue, readDigits_row h.tail, List.filterMap_cons_some hd]
    rfl
  have hmark := splitMark_row hbase h
  have hlength := length_values_row h
  unfold rowValue
  generalize (c :: rest).filterMap Text.hexValue? = values at hread hlength ⊢
  have hsome : values ≠ [] := List.ne_nil_of_length_eq_add_one hlength
  have hzero : base ≠ 0 := by omega
  obtain ⟨hminus, hplus⟩ := hplain.unsigned
  simp [readInteger, hascii, htrimmed, hminus, hplus, hmark, hread, hsome, hzero, hlength]

end

/-! ### Reading numerals -/

theorem readNumeral_eq (text : List Char) : readNumeral text =
    if isMarked text then readInteger 16 (text.drop 2) else readInteger 10 text := by
  unfold readNumeral
  split
  · simp [isMarked]
  · rename_i hunmarked
    rw [if_neg]
    unfold isMarked
    split
    · exact (hunmarked _ _ rfl).elim
    · exact Bool.false_ne_true

theorem isMarked_of_isDigit {digits : List Char} (h : ∀ c ∈ digits, c.isDigit = true) :
    isMarked digits = false := by
  unfold isMarked
  split
  · rename_i mark rest
    have hdigit := h mark (by simp)
    rw [← Bool.not_eq_true, Bool.or_eq_true, decide_eq_true_eq, decide_eq_true_eq]
    rintro (rfl | rfl) <;> exact absurd hdigit (by decide)
  · rfl

/-- A numeral is read as the number it stands for, unless it has too many decimal digits. -/
theorem readNumeral_of_isNumeral {text : List Char} (h : IsNumeral text) : readNumeral text =
    if IsReadable text then .ok (numeralValue text : Nat) else .error (.tooLong text.length) := by
  rw [readNumeral_eq]
  cases h with
  | decimal hfilled hdigits =>
    have hunmarked := isMarked_of_isDigit hdigits
    have hreadable : IsReadable text ↔ ¬ digitLimit < text.length := by simp [IsReadable, hunmarked]
    have hvalue : numeralValue text = rowValue 10 text := by simp [numeralValue, hunmarked]
    rw [hunmarked, if_neg Bool.false_ne_true, hvalue,
      readInteger_row (.inl rfl) hfilled (isRow_of_isDigit hdigits)]
    by_cases hlong : digitLimit < text.length
    · rw [if_pos ⟨rfl, hlong⟩, if_neg fun h => hreadable.1 h hlong]
    · rw [if_neg fun hboth => hlong hboth.2, if_pos (hreadable.2 hlong)]
  | marked hmark hfilled hdigits =>
    rename_i mark digits
    have hmarked : isMarked ('0' :: mark :: digits) = true := by
      rcases hmark with rfl | rfl <;> rfl
    have hreadable : IsReadable ('0' :: mark :: digits) := .inl hmarked
    have hvalue : numeralValue ('0' :: mark :: digits) = rowValue 16 digits := if_pos hmarked
    have hbase : ¬ (16 = 10 ∧ digitLimit < digits.length) := fun hboth => absurd hboth.1 (by decide)
    rw [if_pos hmarked, if_pos hreadable, hvalue]
    exact (readInteger_row (.inr rfl) hfilled (isRow_of_isHexDigit hdigits)).trans (if_neg hbase)

end BinarySchema.Number
