import BinarySchema.Expression
import BinarySchema.Proofs.Number.Hexadecimal
import BinarySchema.Text.Split
import BinarySchema.Token.Scan

/-!
# Layouts of source text

A source text can be laid out from its tokens: each is written as it stands in the source, with a blank
character behind it, which is the end of the line behind a comment. A `Piece` is a token without its
place. This module shows that a layout falls apart into its pieces again, wherever it begins.

A piece has to be the lexeme at the head of the text in front of any blank that may stand behind it.
`Scans` says so, and the lemmas on it name the texts that are words, numerals, operators, punctuation
and comments.
-/

namespace BinarySchema

/-- A token without its place. -/
structure Piece where
  kind : TokenKind
  text : String
  deriving DecidableEq, Repr

def Token.piece (token : Token) : Piece := ⟨token.kind, token.text⟩

namespace Piece

def word (text : String) : Piece := ⟨.word, text⟩

def mark (text : String) : Piece := ⟨.punctuation, text⟩

def sign (text : String) : Piece := ⟨.operator, text⟩

def number (n : Nat) : Piece := ⟨.number, String.ofList (Number.hexNumeral n)⟩

/-- A comment to the end of the line. -/
def remark (comment : String) : Piece := ⟨.comment, "// " ++ comment⟩

/-- The character between a piece and what follows it. A line ends behind a comment, and behind a brace
or semicolon without one. -/
def gap (piece : Piece) (next : Option Piece) : Char :=
  if piece.kind = .comment then '\n'
  else if piece.text ∈ [";", "\x7b", "\x7d"] ∧ next.all (·.kind ≠ .comment) then '\n'
  else ' '

/-- The text of pieces. -/
def layout : List Piece → List Char
  | [] => []
  | piece :: rest => piece.text.toList ++ piece.gap rest.head? :: layout rest

def Ends (piece : Piece) (gap : Char) : Prop :=
  gap = '\n' ∨ gap = ' ' ∧ piece.kind ≠ .comment

theorem ends_gap (piece : Piece) (next : Option Piece) : piece.Ends (piece.gap next) := by
  unfold gap
  split
  · exact .inl rfl
  · rename_i hkind
    split
    · exact .inl rfl
    · exact .inr ⟨rfl, hkind⟩

/-- Whether a text is the lexeme of its kind wherever it stands in front of a gap. -/
structure Scans (piece : Piece) (first : Char) (rest : List Char) : Prop where
  text : piece.text.toList = first :: rest
  visible : Lexeme.isSourceBlank first = false
  lexeme (gap : Char) : piece.Ends gap → ∀ behind,
    Lexeme.ofHead first (rest ++ gap :: behind)
      = ⟨.token piece.kind, first :: rest, gap :: behind⟩

def Scannable (piece : Piece) : Prop :=
  ∃ first rest, piece.Scans first rest

/-! ### Words -/

theorem not_blank_of_start {c : Char} (h : Lexeme.isIdentifierStart c = true) :
    Lexeme.isSourceBlank c = false := by
  cases hblank : Lexeme.isSourceBlank c with
  | false => rfl
  | true =>
    simp only [Lexeme.isSourceBlank, Bool.or_eq_true, decide_eq_true_eq] at hblank
    rcases hblank with ((((rfl | rfl) | rfl) | rfl) | rfl) | rfl <;> exact absurd h (by decide)

theorem not_digit_of_start {c : Char} (h : Lexeme.isIdentifierStart c = true) :
    c.isDigit = false := by
  cases hdigit : c.isDigit with
  | false => rfl
  | true =>
    simp only [Char.isDigit, Bool.and_eq_true, decide_eq_true_eq, ge_iff_le,
      UInt32.le_iff_toNat_le] at hdigit
    change 48 ≤ c.toNat ∧ c.toNat ≤ 57 at hdigit
    simp only [Lexeme.isIdentifierStart, Bool.or_eq_true, decide_eq_true_eq] at h
    rcases h with halpha | rfl
    · have hletter : (65 ≤ c.val ∧ c.val ≤ 90) ∨ (97 ≤ c.val ∧ c.val ≤ 122) := by
        rcases Bool.or_eq_true_iff.1 halpha with hupper | hlower
        · exact .inl (of_decide_eq_true hupper)
        · obtain ⟨hleast, hmost⟩ := Bool.and_eq_true_iff.1 hlower
          exact .inr ⟨of_decide_eq_true hleast, of_decide_eq_true hmost⟩
      simp only [UInt32.le_iff_toNat_le] at hletter
      change (65 ≤ c.toNat ∧ c.toNat ≤ 90) ∨ (97 ≤ c.toNat ∧ c.toNat ≤ 122) at hletter
      omega
    · exact absurd hdigit (by decide)

/-- Whether characters go on a word that has begun: identifier characters, and points in front of
letters. -/
def Continues : List Char → Prop
  | [] => True
  | c :: rest =>
    (Lexeme.isIdentifierChar c = true ∨
      c = '.' ∧ ∃ d ∈ rest.head?, Lexeme.isIdentifierStart d = true) ∧ Continues rest

theorem continues_of_identifierChars {chars : List Char}
    (h : chars.all Lexeme.isIdentifierChar = true) : Continues chars := by
  induction chars with
  | nil => trivial
  | cons c rest ih =>
    simp only [List.all_cons, Bool.and_eq_true] at h
    exact ⟨.inl h.1, ih h.2⟩

theorem splitWord_of_continues {chars : List Char} (h : Continues chars) {gap : Char}
    (hgap : gap = '\n' ∨ gap = ' ') (behind : List Char) :
    Lexeme.splitWord (chars ++ gap :: behind) = (chars, gap :: behind) := by
  induction chars with
  | nil => rcases hgap with rfl | rfl <;> cases behind <;> rfl
  | cons c rest ih =>
    obtain ⟨hc, hrest⟩ := h
    have hsplit := ih hrest
    -- Whether a point belongs to the word is decided by the character behind it.
    cases rest with
    | nil =>
      have hchar : Lexeme.isIdentifierChar c = true := by simpa using hc
      rw [List.nil_append] at hsplit
      change Lexeme.splitWord (c :: gap :: behind) = _
      rw [Lexeme.splitWord, hchar, Bool.true_or, if_pos rfl, hsplit]
    | cons d rest =>
      have hgoes : (Lexeme.isIdentifierChar c || (c = '.' && Lexeme.isIdentifierStart d)) = true := by
        rcases hc with hchar | ⟨rfl, _, hd, hstart⟩
        · rw [hchar, Bool.true_or]
        · cases hd
          rw [hstart]
          simp
      change Lexeme.splitWord (c :: d :: (rest ++ gap :: behind)) = _
      rw [List.cons_append] at hsplit
      rw [Lexeme.splitWord, hgoes, if_pos rfl, hsplit]

theorem Ends.or {piece : Piece} {gap : Char} (h : piece.Ends gap) : gap = '\n' ∨ gap = ' ' := by
  rcases h with hline | ⟨hspace, -⟩
  · exact .inl hline
  · exact .inr hspace

theorem scans_word {text : String} {c : Char} {rest : List Char} (htext : text.toList = c :: rest)
    (hstart : Lexeme.isIdentifierStart c = true) (hrest : Continues rest) :
    (word text).Scans c rest where
  text := htext
  visible := not_blank_of_start hstart
  lexeme gap hgap behind := by
    unfold Lexeme.ofHead
    simp only [not_blank_of_start hstart, not_digit_of_start hstart, hstart,
      splitWord_of_continues hrest hgap.or]
    rfl

def BeginsWord (text : String) : Prop :=
  ∃ c rest, text.toList = c :: rest ∧ Lexeme.isIdentifierStart c = true ∧ Continues rest

theorem BeginsWord.scannable {text : String} (h : BeginsWord text) : (word text).Scannable := by
  obtain ⟨c, rest, htext, hstart, hrest⟩ := h
  exact ⟨c, rest, scans_word htext hstart hrest⟩

theorem beginsWord_of_isIdentifier {text : String} (h : Lexeme.isIdentifier text.toList = true) :
    BeginsWord text := by
  cases htext : text.toList with
  | nil =>
    rw [htext] at h
    cases h
  | cons c rest =>
    rw [htext, Lexeme.isIdentifier, Bool.and_eq_true] at h
    exact ⟨c, rest, htext, h.1, continues_of_identifierChars h.2⟩

theorem point_not_mem_of_isIdentifier {text : String} (h : Lexeme.isIdentifier text.toList = true) :
    '.' ∉ text.toList := by
  intro hmem
  cases htext : text.toList with
  | nil =>
    rw [htext] at hmem
    cases hmem
  | cons c rest =>
    rw [htext, Lexeme.isIdentifier, Bool.and_eq_true] at h
    rw [htext] at hmem
    rcases List.mem_cons.1 hmem with rfl | hrest
    · exact absurd h.1 (by decide)
    · exact absurd (List.all_eq_true.1 h.2 _ hrest) (by decide)

theorem identifierChar_of_start {c : Char} (h : Lexeme.isIdentifierStart c = true) :
    Lexeme.isIdentifierChar c = true := by
  simp only [Lexeme.isIdentifierStart, Lexeme.isIdentifierChar, Char.isAlphanum, Bool.or_eq_true,
    decide_eq_true_eq] at h ⊢
  exact h.imp_left .inl

theorem head_of_splitOn {chars part : List Char} {d : Char} {parts : List (List Char)}
    (h : Text.splitOn '.' chars = (d :: part) :: parts) : d ∈ chars.head? := by
  cases chars with
  | nil => simp [Text.splitOn] at h
  | cons c rest =>
    obtain ⟨next, more, hrest⟩ := List.exists_cons_of_ne_nil (Text.splitOn_ne_nil '.' rest)
    unfold Text.splitOn at h
    split at h
    · cases h
    · rw [hrest] at h
      obtain ⟨hhead, -⟩ := List.cons.inj h
      obtain ⟨rfl, -⟩ := List.cons.inj hhead
      rfl

/-- The identifiers behind the first of a dotted word go on from it. -/
theorem continues_of_splitOn {chars front : List Char} {parts : List (List Char)}
    (hsplit : Text.splitOn '.' chars = front :: parts)
    (hfront : front.all Lexeme.isIdentifierChar = true)
    (hparts : ∀ part ∈ parts, Lexeme.isIdentifier part = true) : Continues chars := by
  induction chars generalizing front parts with
  | nil => trivial
  | cons c rest ih =>
    obtain ⟨next, more, hrest⟩ := List.exists_cons_of_ne_nil (Text.splitOn_ne_nil '.' rest)
    unfold Text.splitOn at hsplit
    by_cases hpoint : c = '.'
    · rw [if_pos hpoint, hrest] at hsplit
      obtain ⟨rfl, rfl⟩ := List.cons.inj hsplit
      have hnext := hparts next (by simp)
      cases next with
      | nil => cases hnext
      | cons d tail =>
        rw [Lexeme.isIdentifier, Bool.and_eq_true] at hnext
        have hchars : (d :: tail).all Lexeme.isIdentifierChar = true := by
          rw [List.all_cons, hnext.2, Bool.and_true]
          exact identifierChar_of_start hnext.1
        refine ⟨.inr ⟨hpoint, d, ?_, hnext.1⟩,
          ih hrest hchars fun part hpart => hparts part (List.mem_cons_of_mem _ hpart)⟩
        exact head_of_splitOn hrest
    · rw [if_neg hpoint, hrest] at hsplit
      obtain ⟨rfl, rfl⟩ := List.cons.inj hsplit
      rw [List.all_cons, Bool.and_eq_true] at hfront
      exact ⟨.inl hfront.1, ih hrest hfront.2 hparts⟩

/-- Whether a text is identifiers with points between them. -/
def IsDotted (text : String) : Prop :=
  '.' ∈ text.toList ∧ ∀ part ∈ Text.splitOn '.' text.toList, Lexeme.isIdentifier part = true

theorem beginsWord_of_isDotted {text : String} (h : IsDotted text) : BeginsWord text := by
  obtain ⟨-, hparts⟩ := h
  cases htext : text.toList with
  | nil =>
    rw [htext] at hparts
    exact absurd (hparts [] (by simp [Text.splitOn])) (by decide)
  | cons c rest =>
    rw [htext] at hparts
    obtain ⟨next, more, hrest⟩ := List.exists_cons_of_ne_nil (Text.splitOn_ne_nil '.' rest)
    unfold Text.splitOn at hparts
    by_cases hpoint : c = '.'
    · rw [if_pos hpoint] at hparts
      exact absurd (hparts [] (by simp)) (by decide)
    · rw [if_neg hpoint, hrest] at hparts
      have hfirst := hparts (c :: next) (by simp)
      rw [Lexeme.isIdentifier, Bool.and_eq_true] at hfirst
      exact ⟨c, rest, htext, hfirst.1, continues_of_splitOn hrest hfirst.2
        fun part hpart => hparts part (List.mem_cons_of_mem _ hpart)⟩

theorem scannable_probe {text : String} (h : text ∈ probes) : (word text).Scannable := by
  have hprobe (d : Char) (rest : List Char) (hd : Lexeme.isIdentifierStart d = true)
      (hrest : rest.all Lexeme.isIdentifierChar = true) (htext : text.toList = '@' :: d :: rest) :
      (word text).Scannable := by
    refine ⟨'@', d :: rest, htext, by decide, fun gap hgap behind => ?_⟩
    change Lexeme.ofHead '@' (d :: (rest ++ gap :: behind)) = _
    unfold Lexeme.ofHead
    simp only [hd, splitWord_of_continues (continues_of_identifierChars hrest) hgap.or]
    rfl
  simp only [probes, List.mem_cons, List.not_mem_nil, or_false] at h
  rcases h with rfl | rfl | rfl
  · exact hprobe 'e' ['o', 'f'] rfl rfl rfl
  · exact hprobe 'p' ['o', 's'] rfl rfl rfl
  · exact hprobe 's' ['i', 'z', 'e'] rfl rfl rfl

/-! ### Numerals, operators and punctuation -/

theorem takeWhile_append_of_ends {p : Char → Bool} {chars : List Char} (hchars : ∀ c ∈ chars, p c = true)
    {gap : Char} (hgap : p gap = false) (behind : List Char) :
    (chars ++ gap :: behind).takeWhile p = chars ∧
      (chars ++ gap :: behind).dropWhile p = gap :: behind := by
  constructor
  · rw [List.takeWhile_append_of_pos hchars, List.takeWhile_cons_of_neg (by simp [hgap]),
      List.append_nil]
  · rw [List.dropWhile_append_of_pos hchars, List.dropWhile_cons_of_neg (by simp [hgap])]

theorem scannable_number (n : Nat) : (number n).Scannable := by
  obtain ⟨first, digits, hnibbles⟩ :=
    List.exists_cons_of_ne_nil (Number.nibbles_ne_nil (n.log2 / 4) n)
  have hdigits : Text.hexDigits (n.log2 / 4 + 1) n
      = Text.hexDigit first :: digits.map Text.hexDigit := by
    rw [Number.hexDigits_eq_nibbles, hnibbles, List.map_cons]
  have hhex : ∀ c ∈ Text.hexDigit first :: digits.map Text.hexDigit, Text.isHexDigit c = true := by
    rw [← hdigits]
    exact fun c hc => Number.isHexDigit_of_mem hc
  refine ⟨'0', 'x' :: Text.hexDigit first :: digits.map Text.hexDigit, ?_, by decide,
    fun gap hgap behind => ?_⟩
  · rw [number, String.toList_ofList, Number.hexNumeral, hdigits]
  · have hends : Text.isHexDigit gap = false := by rcases hgap.or with rfl | rfl <;> decide
    obtain ⟨htake, hdrop⟩ := takeWhile_append_of_ends
      (fun c hc => hhex c (List.mem_cons_of_mem _ hc)) hends behind
    change Lexeme.numberFrom '0'
      ('x' :: Text.hexDigit first :: (digits.map Text.hexDigit ++ gap :: behind)) = _
    simp only [Lexeme.numberFrom, hhex _ List.mem_cons_self, Lexeme.run, htake, hdrop]
    rfl

def operators : List String := ["+", "-", "*", "/", "=", "!=", "<", ">", "<=", ">=", "!"]

def punctuation : List String := ["\x7b", "\x7d", "(", ")", "[", "]", ",", ";", ":"]

theorem scannable_sign {text : String} (h : text ∈ operators) : (sign text).Scannable := by
  simp only [operators, List.mem_cons, List.not_mem_nil, or_false] at h
  rcases h with rfl | rfl | rfl | rfl | rfl | rfl | rfl | rfl | rfl | rfl | rfl
  all_goals
    refine ⟨_, _, rfl, by decide, fun gap hgap behind => ?_⟩
    rcases hgap.or with rfl | rfl <;> rfl

theorem scannable_mark {text : String} (h : text ∈ punctuation) : (mark text).Scannable := by
  simp only [punctuation, List.mem_cons, List.not_mem_nil, or_false] at h
  rcases h with rfl | rfl | rfl | rfl | rfl | rfl | rfl | rfl | rfl
  all_goals
    refine ⟨_, _, rfl, by decide, fun gap hgap behind => ?_⟩
    rcases hgap.or with rfl | rfl <;> rfl

/-- A comment without a line break ends where its line does. -/
theorem scannable_remark {comment : String} (h : '\n' ∉ comment.toList) :
    (remark comment).Scannable := by
  refine ⟨'/', '/' :: ' ' :: comment.toList, ?_, by decide, fun gap hgap behind => ?_⟩
  · rw [remark, String.toList_append]
    rfl
  · obtain rfl : gap = '\n' := by
      rcases hgap with hline | ⟨-, hkind⟩
      · exact hline
      · exact absurd rfl hkind
    have hinside : ∀ c ∈ ' ' :: comment.toList, (c != '\n') = true := by
      intro c hc
      rcases List.mem_cons.1 hc with rfl | hmem
      · decide
      · exact bne_iff_ne.2 fun hline => h (hline ▸ hmem)
    obtain ⟨htake, hdrop⟩ := takeWhile_append_of_ends hinside (by decide : ('\n' != '\n') = false) behind
    change Lexeme.run (.token .comment) ['/', '/'] (· != '\n') ((' ' :: comment.toList) ++ '\n' :: behind)
      = _
    rw [Lexeme.run, htake, hdrop]
    rfl

/-! ### Layouts -/

theorem takeWhile_layout {pieces : List Piece} (h : ∀ piece ∈ pieces, piece.Scannable) :
    (layout pieces).takeWhile Lexeme.isSourceBlank = [] ∧
      (layout pieces).dropWhile Lexeme.isSourceBlank = layout pieces := by
  cases pieces with
  | nil => exact ⟨rfl, rfl⟩
  | cons piece rest =>
    obtain ⟨first, behind, hscans⟩ := h piece (by simp)
    rw [layout, hscans.text]
    constructor
    · exact List.takeWhile_cons_of_neg (by simp [hscans.visible])
    · exact List.dropWhile_cons_of_neg (by simp [hscans.visible])

/-- A layout is scanned into its pieces. -/
theorem scanFrom_layout {pieces : List Piece} (h : ∀ piece ∈ pieces, piece.Scannable) {steps : Nat}
    (hsteps : (layout pieces).length ≤ steps) (pos : Position) :
    ∃ tokens last, TokenStream.scanFrom steps pos (layout pieces) = ⟨tokens, .finished last⟩ ∧
      tokens.map Token.piece = pieces := by
  induction pieces generalizing steps pos with
  | nil =>
    refine ⟨[], pos, ?_, rfl⟩
    cases steps <;> rfl
  | cons piece rest ih =>
    have hrest : ∀ piece ∈ rest, piece.Scannable := fun p hp => h p (List.mem_cons_of_mem _ hp)
    obtain ⟨first, tail, hscans⟩ := h piece (by simp)
    have hends := piece.ends_gap rest.head?
    have hblank : Lexeme.isSourceBlank (piece.gap rest.head?) = true := by
      rcases hends.or with hgap | hgap <;> rw [hgap] <;> decide
    have hlayout : layout (piece :: rest)
        = first :: (tail ++ piece.gap rest.head? :: layout rest) := by
      rw [layout, hscans.text, List.cons_append]
    rw [hlayout] at hsteps ⊢
    simp only [List.length_cons, List.length_append] at hsteps
    -- One step takes the piece and one the gap behind it, which ends where the next piece begins.
    obtain ⟨steps, rfl⟩ : ∃ fewer, steps = fewer + 2 := ⟨steps - 2, by omega⟩
    obtain ⟨htake, hdrop⟩ := takeWhile_layout hrest
    obtain ⟨tokens, last, hscan, htokens⟩ :=
      ih hrest (show (layout rest).length ≤ steps by omega)
        ((pos.after (first :: tail)).after [piece.gap rest.head?])
    have hgap : TokenStream.scanFrom (steps + 1) (pos.after (first :: tail))
        (piece.gap rest.head? :: layout rest) = ⟨tokens, .finished last⟩ := by
      have hlexeme : Lexeme.ofHead (piece.gap rest.head?) (layout rest)
          = ⟨.blank, [piece.gap rest.head?], layout rest⟩ := by
        unfold Lexeme.ofHead
        rw [if_pos hblank, Lexeme.run, htake, hdrop]
        rfl
      rw [TokenStream.scanFrom, hlexeme]
      exact hscan
    refine ⟨⟨piece.kind, String.ofList (first :: tail), pos⟩ :: tokens, last, ?_, ?_⟩
    · rw [TokenStream.scanFrom, hscans.lexeme _ hends]
      dsimp only
      rw [hgap]
      rfl
    · rw [List.map_cons, htokens, Token.piece, ← hscans.text, String.ofList_toList]

theorem scan_layout {pieces : List Piece} (h : ∀ piece ∈ pieces, piece.Scannable) :
    ∃ tokens last, TokenStream.scan (String.ofList (layout pieces)) = ⟨tokens, .finished last⟩ ∧
      tokens.map Token.piece = pieces := by
  rw [TokenStream.scan, String.toList_ofList]
  exact scanFrom_layout h (Nat.le_of_eq String.length_ofList.symm) .first

end Piece

end BinarySchema
