import BinarySchema.Payload
import BinarySchema.Proofs.Except
import Mathlib.Data.List.Forall2

/-!
# Renderings of payloads

A payload can be written in many ways: as the values of its bytes, or as text in which each byte has its
two hexadecimal digits in either case, with or without a `0x` in front of them, and blanks and commas
stand anywhere between the bytes. `Rendering` is that class of texts. Every one of them is read as the
bytes that it was made from.

The separators are dropped in one pass, so what a prefix is made of must not come from two bytes. It never
does: the letter of a prefix is no digit and no separator, so it stands only behind the zero of its own
prefix. That is `Rendering.head_ne`, and all else follows the text byte by byte.
-/

namespace BinarySchema.Payload

/-! ### Refusals -/

section

variable {e : PayloadError}

/-- Whether an item of a payload is of a type that can be a byte. -/
def IsInteger : Datum → Prop
  | .int _ | .bool _ => True
  | _ => False

theorem ofItems_error {items : List Datum} (h : ofItems items = .error e)
    (hcontent : e.isAboutContent = false) : e = .notInteger ∧ ∃ item ∈ items, ¬ IsInteger item := by
  induction items with
  | nil => cases h
  | cons item rest ih =>
    have hbehind (hrest : ofItems rest = .error e) :
        e = .notInteger ∧ ∃ other ∈ item :: rest, ¬ IsInteger other := by
      obtain ⟨he, other, hother, hinteger⟩ := ih hrest
      exact ⟨he, other, List.mem_cons_of_mem _ hother, hinteger⟩
    cases item with
    | int n =>
      unfold ofItems at h
      split at h
      · exact hbehind (Except.map_error_iff.1 h)
      · cases h
        cases hcontent
    | bool b => exact hbehind (Except.map_error_iff.1 h)
    | _ =>
      cases h
      exact ⟨rfl, _, List.mem_cons_self, id⟩

theorem ofText_error {text : String} (h : ofText text = .error e) : e.isAboutContent = true := by
  unfold ofText at h
  dsimp only at h
  split at h
  · cases h
    rfl
  · obtain ⟨position, -, rfl⟩ := Except.mapError_error_iff.1 h
    rfl

theorem ofDatum_error {payload : Datum} (h : ofDatum payload = .error e)
    (hcontent : e.isAboutContent = false) :
    e = .notInteger ∧ ∃ items, payload = .list items ∧ ∃ item ∈ items, ¬ IsInteger item := by
  cases payload with
  | list items =>
    obtain ⟨he, hitem⟩ := ofItems_error h hcontent
    exact ⟨he, items, rfl, hitem⟩
  | text text =>
    rw [ofText_error h] at hcontent
    cases hcontent
  | codes points =>
    rw [ofText_error h] at hcontent
    cases hcontent
  | _ => cases h <;> cases hcontent

end

/-! ### Lists of integers -/

/-- The integer that an item of a payload is. Booleans are zero and one. -/
inductive Denotes : Datum → Int → Prop
  | int (n : Int) : Denotes (.int n) n
  | bool (b : Bool) : Denotes (.bool b) (if b then 1 else 0)

def IsByte (n : Int) : Prop := 0 ≤ n ∧ n < 256

instance (n : Int) : Decidable (IsByte n) :=
  inferInstanceAs (Decidable (0 ≤ n ∧ n < 256))

theorem ofItems_cons {item : Datum} {n : Int} (hitem : Denotes item n) (rest : List Datum) :
    (IsByte n → ofItems (item :: rest) = (ofItems rest).map (UInt8.ofNat n.toNat :: ·)) ∧
      (¬ IsByte n → ofItems (item :: rest) = .error .notByte) := by
  cases hitem with
  | int =>
    constructor
    · intro hbyte
      exact if_pos hbyte
    · intro hbyte
      exact if_neg hbyte
  | bool b =>
    constructor
    · intro _
      cases b <;> rfl
    · intro hbyte
      refine absurd ?_ hbyte
      cases b <;> decide

theorem toNat_ofNat_of_isByte {n : Int} (h : IsByte n) : ((UInt8.ofNat n.toNat).toNat : Int) = n := by
  obtain ⟨hleast, hbelow⟩ := h
  rw [UInt8.toNat_ofNat']
  omega

theorem ofItems_bytes {items : List Datum} {values : List Int}
    (hitems : List.Forall₂ Denotes items values) (hvalues : ∀ n ∈ values, IsByte n) :
    ∃ bytes, ofItems items = .ok bytes ∧ bytes.map (fun byte => (byte.toNat : Int)) = values := by
  induction hitems with
  | nil => exact ⟨[], rfl, rfl⟩
  | @cons item n rest others hitem _ ih =>
    obtain ⟨hbyte, hothers⟩ := List.forall_mem_cons.1 hvalues
    obtain ⟨bytes, hrest, rfl⟩ := ih hothers
    refine ⟨UInt8.ofNat n.toNat :: bytes, ?_, ?_⟩
    · rw [(ofItems_cons hitem rest).1 hbyte, hrest]
      rfl
    · rw [List.map_cons, toNat_ofNat_of_isByte hbyte]

theorem ofItems_notByte {items : List Datum} {values : List Int}
    (hitems : List.Forall₂ Denotes items values) (hvalues : ¬ ∀ n ∈ values, IsByte n) :
    ofItems items = .error .notByte := by
  induction hitems with
  | nil => exact absurd (List.forall_mem_nil _) hvalues
  | @cons item n rest others hitem _ ih =>
    by_cases hbyte : IsByte n
    · rw [(ofItems_cons hitem rest).1 hbyte,
        ih fun hothers => hvalues (List.forall_mem_cons.2 ⟨hbyte, hothers⟩)]
      rfl
    · exact (ofItems_cons hitem rest).2 hbyte

/-! ### Digits -/

/-- The two digits of a byte, each in either case. -/
structure DigitsOf (byte : UInt8) (high low : Char) : Prop where
  high : high = Text.hexDigit (byte.toNat / 16) ∨ high = (Text.hexDigit (byte.toNat / 16)).toUpper
  low : low = Text.hexDigit (byte.toNat % 16) ∨ low = (Text.hexDigit (byte.toNat % 16)).toUpper

/-- Bytes as their digits and nothing else. -/
inductive Digits : List UInt8 → List Char → Prop
  | nil : Digits [] []
  | cons {byte : UInt8} {bytes : List UInt8} {high low : Char} {digits : List Char}
      (hbyte : DigitsOf byte high low) (hrest : Digits bytes digits) :
      Digits (byte :: bytes) (high :: low :: digits)

theorem digit_facts {value : Nat} (hvalue : value < 16) {c : Char}
    (hc : c = Text.hexDigit value ∨ c = (Text.hexDigit value).toUpper) :
    Text.hexValue? c = some value ∧ c.toNat ≤ 0x7f ∧ Text.isBlank c = false ∧ c ≠ ',' ∧ c ≠ 'x' := by
  have hall : ∀ value < 16, [Text.hexDigit value, (Text.hexDigit value).toUpper].all (fun c =>
      Text.hexValue? c = some value ∧ c.toNat ≤ 0x7f ∧ Text.isBlank c = false ∧ c ≠ ',' ∧ c ≠ 'x') := by
    decide +kernel
  exact of_decide_eq_true (List.all_eq_true.1 (hall value hvalue) c (by simpa using hc))

section

variable {byte : UInt8} {high low : Char} (h : DigitsOf byte high low)

include h

theorem DigitsOf.high_facts : Text.hexValue? high = some (byte.toNat / 16) ∧ high.toNat ≤ 0x7f ∧
    Text.isBlank high = false ∧ high ≠ ',' ∧ high ≠ 'x' := by
  have hbound : byte.toNat < 256 := byte.toNat_lt
  exact digit_facts (by omega) h.high

theorem DigitsOf.low_facts : Text.hexValue? low = some (byte.toNat % 16) ∧ low.toNat ≤ 0x7f ∧
    Text.isBlank low = false ∧ low ≠ ',' ∧ low ≠ 'x' :=
  digit_facts (Nat.mod_lt _ (by decide)) h.low

theorem bytesOfHex_cons (position : Nat) (rest : List Char) :
    bytesOfHex position (high :: low :: rest) = (bytesOfHex (position + 2) rest).map (byte :: ·) := by
  have hvalue : UInt8.ofNat (16 * (byte.toNat / 16) + byte.toNat % 16) = byte := by
    rw [Nat.div_add_mod, UInt8.ofNat_toNat]
  rw [bytesOfHex, h.high_facts.1, h.low_facts.1]
  dsimp only
  rw [hvalue]

end

theorem Digits.bytesOfHex {bytes : List UInt8} {digits : List Char} (h : Digits bytes digits)
    (position : Nat) : bytesOfHex position digits = .ok bytes := by
  induction h generalizing position with
  | nil => rfl
  | cons hbyte _ ih =>
    rw [bytesOfHex_cons hbyte, ih]
    rfl

theorem Digits.ascii {bytes : List UInt8} {digits : List Char} (h : Digits bytes digits) :
    digits.findIdx? (0x7f < ·.toNat) = none := by
  rw [List.findIdx?_eq_none_iff]
  induction h with
  | nil => exact List.forall_mem_nil _
  | cons hbyte _ ih =>
    refine List.forall_mem_cons.2 ⟨?_, List.forall_mem_cons.2 ⟨?_, ih⟩⟩
    · exact decide_eq_false (Nat.not_lt.2 hbyte.high_facts.2.1)
    · exact decide_eq_false (Nat.not_lt.2 hbyte.low_facts.2.1)

/-! ### Separators -/

/-- Whether characters are blanks and commas. -/
def IsGap (gap : List Char) : Prop :=
  ∀ c ∈ gap, Text.isBlank c = true ∨ c = ','

-- By the characters of the gap, and not by all characters there are.
instance (gap : List Char) : Decidable (IsGap gap) :=
  List.decidableBAll _ gap

/-- The texts that bytes can be written as. -/
inductive Rendering : List UInt8 → List Char → Prop
  | nil {gap : List Char} (hgap : IsGap gap) : Rendering [] gap
  | cons {gap mark text : List Char} {byte : UInt8} {bytes : List UInt8} {high low : Char}
      (hgap : IsGap gap) (hmark : mark = [] ∨ mark = ['0', 'x']) (hbyte : DigitsOf byte high low)
      (hrest : Rendering bytes text) :
      Rendering (byte :: bytes) (gap ++ mark ++ high :: low :: text)

theorem Rendering.head_ne {bytes : List UInt8} {text : List Char} (h : Rendering bytes text) :
    text.head? ≠ some 'x' := by
  have hletter : ¬ (Text.isBlank 'x' = true ∨ 'x' = ',') := by decide +kernel
  have hgap {gap : List Char} (hall : IsGap gap) : gap.head? ≠ some 'x' :=
    fun hx => hletter (hall 'x' (List.mem_of_head? hx))
  cases h with
  | nil hall => exact hgap hall
  | @cons gap mark text byte bytes high low hall hmark hbyte _ =>
    cases gap with
    | cons c gap => exact fun hx => hgap hall hx
    | nil =>
      rcases hmark with rfl | rfl
      · exact fun hx => hbyte.high_facts.2.2.2.2 (Option.some.inj hx)
      · exact fun hx => absurd (Option.some.inj hx) (by decide)

theorem dropSeparators_gap {gap : List Char} (h : IsGap gap) (rest : List Char) :
    dropSeparators (gap ++ rest) = dropSeparators rest := by
  have hzero : ¬ (Text.isBlank '0' = true ∨ '0' = ',') := by decide +kernel
  induction gap with
  | nil => rfl
  | cons c gap ih =>
    obtain ⟨hc, hgap⟩ := List.forall_mem_cons.1 h
    rw [List.cons_append, dropSeparators, if_pos (by simpa using hc), ih hgap]
    rintro more rfl
    exact absurd hc hzero

theorem dropSeparators_mark {mark : List Char} (h : mark = [] ∨ mark = ['0', 'x']) (rest : List Char) :
    dropSeparators (mark ++ rest) = dropSeparators rest := by
  rcases h with rfl | rfl
  · rfl
  · exact dropSeparators.eq_2 rest

theorem dropSeparators_kept {c : Char} (hblank : Text.isBlank c = false) (hcomma : c ≠ ',')
    {rest : List Char} (hrest : rest.head? ≠ some 'x') :
    dropSeparators (c :: rest) = c :: dropSeparators rest := by
  rw [dropSeparators, if_neg (by simp [hblank, hcomma])]
  rintro more rfl rfl
  exact hrest rfl

theorem Rendering.dropSeparators {bytes : List UInt8} {text : List Char} (h : Rendering bytes text) :
    Digits bytes (dropSeparators text) := by
  induction h with
  | @nil gap hgap =>
    rw [← List.append_nil gap, dropSeparators_gap hgap]
    exact .nil
  | @cons gap mark text byte bytes high low hgap hmark hbyte hrest ih =>
    obtain ⟨-, -, hhighBlank, hhighComma, -⟩ := hbyte.high_facts
    obtain ⟨-, -, hlowBlank, hlowComma, hlowLetter⟩ := hbyte.low_facts
    have hlow : (low :: text).head? ≠ some 'x' := fun hx => hlowLetter (Option.some.inj hx)
    rw [List.append_assoc, dropSeparators_gap hgap, dropSeparators_mark hmark,
      dropSeparators_kept hhighBlank hhighComma hlow,
      dropSeparators_kept hlowBlank hlowComma hrest.head_ne]
    exact .cons hbyte ih

theorem Rendering.ofText {bytes : List UInt8} {text : List Char} (h : Rendering bytes text) :
    ofText (String.ofList text) = .ok bytes := by
  have hdigits := h.dropSeparators
  unfold Payload.ofText
  dsimp only
  rw [String.toList_ofList, hdigits.ascii]
  dsimp only
  rw [hdigits.bytesOfHex]
  rfl

/-- Every text that bytes can be written as is read as those bytes, and a list of integers as the bytes
that have these values; it is refused as no payload if one of them is not the value of a byte. -/
theorem ofDatum_undoes_renderings :
    (∀ bytes text, Rendering bytes text → ofDatum (.text (String.ofList text)) = .ok bytes) ∧
      ∀ items values, List.Forall₂ Denotes items values →
        ((∀ n ∈ values, IsByte n) → ∃ bytes, ofDatum (.list items) = .ok bytes ∧
          bytes.map (fun byte => (byte.toNat : Int)) = values) ∧
        ((¬ ∀ n ∈ values, IsByte n) → ofDatum (.list items) = .error .notByte ∧
          PayloadError.notByte.isAboutContent = true) := by
  refine ⟨fun bytes text h => h.ofText, fun items values hitems => ⟨?_, ?_⟩⟩
  · exact ofItems_bytes hitems
  · exact fun hvalues => ⟨ofItems_notByte hitems hvalues, rfl⟩

/-- A byte that ends in zero stands right in front of a prefix, and a blank that is no ASCII in front of
another one. -/
theorem ofDatum_undoes_renderings_mixed :
    let text := ['1', '0', '0', 'x', '2', 'F', ',', '\u00a0', '0', 'x', 'a', 'b', ' ']
    let items := [Datum.int 0, .bool true, .int 255]
    Rendering [0x10, 0x2f, 0xab] text ∧
      ofDatum (.text (String.ofList text)) = .ok [0x10, 0x2f, 0xab] ∧
      List.Forall₂ Denotes items [0, 1, 255] ∧ (∀ n ∈ [(0 : Int), 1, 255], IsByte n) ∧
      (∃ bytes, ofDatum (.list items) = .ok bytes ∧
        bytes.map (fun byte => (byte.toNat : Int)) = [0, 1, 255]) ∧
      List.Forall₂ Denotes [.int 5, .int 256] [5, 256] ∧ (¬ ∀ n ∈ [(5 : Int), 256], IsByte n) ∧
      ofDatum (.list [.int 5, .int 256]) = .error .notByte := by
  intro text items
  have hends : Rendering [] [' '] := .nil (by decide +kernel)
  have hthird : Rendering [0xab] [',', '\u00a0', '0', 'x', 'a', 'b', ' '] :=
    .cons (show IsGap [',', '\u00a0'] by decide +kernel) (.inr rfl) ⟨.inl rfl, .inl rfl⟩ hends
  have hsecond : Rendering [0x2f, 0xab]
      ['0', 'x', '2', 'F', ',', '\u00a0', '0', 'x', 'a', 'b', ' '] :=
    .cons (List.forall_mem_nil _) (.inr rfl) ⟨.inl rfl, .inr rfl⟩ hthird
  have htext : Rendering [0x10, 0x2f, 0xab] text :=
    .cons (List.forall_mem_nil _) (.inl rfl) ⟨.inl rfl, .inl rfl⟩ hsecond
  have hitems : List.Forall₂ Denotes items [0, 1, 255] :=
    .cons (.int 0) (.cons (.bool true) (.cons (.int 255) .nil))
  have hbytes : ∀ n ∈ [(0 : Int), 1, 255], IsByte n := by decide
  have hlarge : List.Forall₂ Denotes [.int 5, .int 256] [5, 256] :=
    .cons (.int 5) (.cons (.int 256) .nil)
  have hnoByte : ¬ ∀ n ∈ [(5 : Int), 256], IsByte n := by decide
  obtain ⟨htexts, hlists⟩ := ofDatum_undoes_renderings
  exact ⟨htext, htexts _ _ htext, hitems, hbytes, (hlists _ _ hitems).1 hbytes, hlarge, hnoByte,
    ((hlists _ _ hlarge).2 hnoByte).1⟩

end BinarySchema.Payload
