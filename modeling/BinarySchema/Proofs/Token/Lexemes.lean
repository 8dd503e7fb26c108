import BinarySchema.Proofs.Token.Layout
import Mathlib.Data.List.TakeWhile

/-!
# The texts of scanned tokens

What the scanner makes a word, an operator or a number of. A scanned word is a row of identifiers with
points between them, or begins with `@`; so one without points is an identifier. A scanned number is a
numeral. These are the converses of the facts that layouts rest on, and readers of scanned tokens need no
other checks of their words and numbers.
-/

namespace BinarySchema

namespace Piece

/-! ### Words -/

theorem splitWord_head {d : Char} (hd : Lexeme.isIdentifierChar d = true) (rest : List Char) :
    d ∈ (Lexeme.splitWord (d :: rest)).1.head? := by
  cases rest with
  | nil => simp [Lexeme.splitWord, hd]
  | cons e rest => simp [Lexeme.splitWord, hd]

theorem continues_splitWord (chars : List Char) : Continues (Lexeme.splitWord chars).1 := by
  fun_induction Lexeme.splitWord chars with
  | case1 => trivial
  | case2 c hc => exact ⟨.inl hc, trivial⟩
  | case3 c hc => trivial
  | case4 c d rest hc word left hsplit ih =>
    rw [hsplit] at ih
    refine ⟨?_, ih⟩
    rcases Bool.or_eq_true_iff.1 hc with hchar | hpoint
    · exact .inl hchar
    · obtain ⟨rfl, hstart⟩ : c = '.' ∧ Lexeme.isIdentifierStart d = true := by simpa using hpoint
      have hhead := splitWord_head (identifierChar_of_start hstart) rest
      rw [hsplit] at hhead
      exact .inr ⟨rfl, d, hhead, hstart⟩
  | case5 c d rest hc => trivial

theorem bracket_not_mem_of_beginsWord {text : String} (h : BeginsWord text) : '[' ∉ text.toList := by
  obtain ⟨c, rest, htext, hstart, hrest⟩ := h
  have hinside : '[' ∉ rest := by
    clear htext
    induction rest with
    | nil => exact List.not_mem_nil
    | cons d rest ih =>
      rw [List.mem_cons, not_or]
      refine ⟨?_, ih hrest.2⟩
      rintro rfl
      rcases hrest.1 with hchar | ⟨hpoint, -⟩
      · exact absurd hchar (by decide)
      · exact absurd hpoint (by decide)
  rw [htext, List.mem_cons, not_or]
  refine ⟨?_, hinside⟩
  rintro rfl
  exact absurd hstart (by decide)

theorem isIdentifier_of_beginsWord {text : String} (h : BeginsWord text)
    (hpoint : '.' ∉ text.toList) : Lexeme.isIdentifier text.toList = true := by
  obtain ⟨c, rest, htext, hstart, hrest⟩ := h
  rw [htext] at hpoint ⊢
  have hchars : rest.all Lexeme.isIdentifierChar = true := by
    have hpoints : '.' ∉ rest := fun hmem => hpoint (List.mem_cons_of_mem _ hmem)
    clear htext hpoint
    induction rest with
    | nil => rfl
    | cons d rest ih =>
      obtain ⟨hd, hrest⟩ := hrest
      rw [List.mem_cons, not_or] at hpoints
      rw [List.all_cons, ih hrest hpoints.2, Bool.and_true]
      exact hd.resolve_right fun h => hpoints.1 h.1.symm
  rw [Lexeme.isIdentifier, hstart, hchars]
  rfl

theorem ne_point_of_start {c : Char} (h : Lexeme.isIdentifierStart c = true) : c ≠ '.' := by
  rintro rfl
  exact absurd h (by decide)

theorem splitOn_head {chars front : List Char} {parts : List (List Char)} {d : Char}
    (hd : d ∈ chars.head?) (hletter : d ≠ '.')
    (hsplit : Text.splitOn '.' chars = front :: parts) : ∃ tail, front = d :: tail := by
  cases chars with
  | nil => cases hd
  | cons c rest =>
    cases hd
    obtain ⟨next, more, hnext⟩ := List.exists_cons_of_ne_nil (Text.splitOn_ne_nil '.' rest)
    rw [Text.splitOn, if_neg hletter, hnext] at hsplit
    exact ⟨next, (List.cons.inj hsplit).1.symm⟩

/-- The points of a word that goes on have identifiers behind them. -/
theorem splitOn_of_continues {chars front : List Char} {parts : List (List Char)}
    (h : Continues chars) (hsplit : Text.splitOn '.' chars = front :: parts) :
    front.all Lexeme.isIdentifierChar = true ∧
      ∀ part ∈ parts, Lexeme.isIdentifier part = true := by
  induction chars generalizing front parts with
  | nil =>
    cases hsplit
    exact ⟨rfl, nofun⟩
  | cons c rest ih =>
    obtain ⟨hc, hrest⟩ := h
    obtain ⟨next, more, hnext⟩ := List.exists_cons_of_ne_nil (Text.splitOn_ne_nil '.' rest)
    obtain ⟨hchars, hparts⟩ := ih hrest hnext
    unfold Text.splitOn at hsplit
    by_cases hpoint : c = '.'
    · rw [if_pos hpoint, hnext] at hsplit
      obtain ⟨rfl, rfl⟩ := List.cons.inj hsplit
      obtain ⟨-, d, hd, hstart⟩ := hc.resolve_left (by rw [hpoint]; decide)
      obtain ⟨tail, rfl⟩ := splitOn_head hd (ne_point_of_start hstart) hnext
      refine ⟨rfl, List.forall_mem_cons.2 ⟨?_, hparts⟩⟩
      rw [List.all_cons, Bool.and_eq_true] at hchars
      rw [Lexeme.isIdentifier, hstart, hchars.2]
      rfl
    · rw [if_neg hpoint, hnext] at hsplit
      obtain ⟨rfl, rfl⟩ := List.cons.inj hsplit
      have hchar := hc.resolve_right fun h => hpoint h.1
      exact ⟨by rw [List.all_cons, hchar, hchars]; rfl, hparts⟩

theorem isDotted_of_beginsWord {text : String} (h : BeginsWord text)
    (hpoint : '.' ∈ text.toList) : IsDotted text := by
  obtain ⟨c, rest, htext, hstart, hrest⟩ := h
  refine ⟨hpoint, ?_⟩
  rw [htext]
  obtain ⟨front, parts, hsplit⟩ := List.exists_cons_of_ne_nil (Text.splitOn_ne_nil '.' rest)
  obtain ⟨hchars, hparts⟩ := splitOn_of_continues hrest hsplit
  rw [Text.splitOn, if_neg (ne_point_of_start hstart), hsplit]
  refine List.forall_mem_cons.2 ⟨?_, hparts⟩
  rw [Lexeme.isIdentifier, hstart, hchars]
  rfl

/-! ### Scans -/

/-- What the text of a token is like: words and operators are those of the source language. -/
def WellSpelled (piece : Piece) : Prop :=
  match piece.kind with
  | .word => BeginsWord piece.text ∨ piece.text.startsWith "@" = true
  | .operator => piece.text ∈ operators
  | _ => True

end Piece

def Lexeme.WellSpelled (lexeme : Lexeme) : Prop :=
  ∀ kind, lexeme.kind = .token kind → Piece.WellSpelled ⟨kind, String.ofList lexeme.text⟩

namespace Lexeme

theorem wellSpelled_sign {text : List Char} (h : String.ofList text ∈ Piece.operators)
    (rest : List Char) : WellSpelled ⟨.token .operator, text, rest⟩ := by
  rintro _ ⟨⟩
  exact h

theorem wellSpelled_word {c : Char} (h : isIdentifierStart c = true) (chars rest : List Char) :
    WellSpelled ⟨.token .word, c :: (splitWord chars).1, rest⟩ := by
  rintro _ ⟨⟩
  exact .inl ⟨c, _, String.toList_ofList, h, Piece.continues_splitWord chars⟩

theorem wellSpelled_numberFrom (c : Char) (rest : List Char) : (numberFrom c rest).WellSpelled := by
  unfold numberFrom
  split
  · split <;> rintro _ ⟨⟩ <;> trivial
  · rintro _ ⟨⟩
    trivial

theorem wellSpelled_slashFrom (rest : List Char) : (slashFrom rest).WellSpelled := by
  unfold slashFrom
  split
  · split <;> rintro _ ⟨⟩
    trivial
  · rintro _ ⟨⟩
    trivial
  · exact wellSpelled_sign (by decide) _

theorem wellSpelled_comparisonFrom {c : Char} (h : String.ofList [c] ∈ Piece.operators)
    (hlonger : String.ofList [c, '='] ∈ Piece.operators) (rest : List Char) :
    (comparisonFrom c rest).WellSpelled := by
  unfold comparisonFrom
  split
  · exact wellSpelled_sign hlonger _
  · exact wellSpelled_sign h _

theorem startsWith_at (chars : List Char) :
    (String.ofList ('@' :: chars)).startsWith "@" = true := by
  rw [String.startsWith_string_iff]
  exact ⟨chars, String.toList_ofList.symm⟩

theorem wellSpelled_ofHead (c : Char) (rest : List Char) : (ofHead c rest).WellSpelled := by
  unfold ofHead
  split
  · rintro _ ⟨⟩
  split
  · exact wellSpelled_numberFrom c rest
  split
  · exact wellSpelled_word ‹_› rest _
  split
  case h_1 => exact wellSpelled_slashFrom rest
  case h_2 =>
    split
    · split
      · rintro _ ⟨⟩
        exact .inr (startsWith_at _)
      · rintro _ ⟨⟩
    · rintro _ ⟨⟩
  case h_3 => split <;> rintro _ ⟨⟩; trivial
  case h_4 | h_5 | h_6 => exact wellSpelled_comparisonFrom (by decide) (by decide) rest
  case h_7 | h_8 | h_9 | h_10 => exact wellSpelled_sign (by decide) rest
  -- Marks and what begins nothing have no words in them.
  all_goals
    rintro _ ⟨⟩
  all_goals trivial

end Lexeme

/-- What holds of every lexeme that makes a token holds of the tokens of a source text. -/
theorem TokenStream.forall_scan {holds : Token → Prop}
    (h : ∀ (c : Char) (rest : List Char) (kind : TokenKind) (pos : Position),
      (Lexeme.ofHead c rest).kind = .token kind →
        holds ⟨kind, String.ofList (Lexeme.ofHead c rest).text, pos⟩) (text : String) :
    ∀ token ∈ (scan text).tokens, holds token := by
  have hscan (steps : Nat) : ∀ (pos : Position) (chars : List Char),
      ∀ token ∈ (scanFrom steps pos chars).tokens, holds token := by
    induction steps with
    | zero =>
      intro pos chars
      cases chars <;> exact List.forall_mem_nil _
    | succ steps ih =>
      intro pos chars
      cases chars with
      | nil => exact List.forall_mem_nil _
      | cons c rest =>
        rw [scanFrom]
        split
        · exact ih _ _
        · exact List.forall_mem_cons.2 ⟨h c rest _ pos ‹_›, ih _ _⟩
        · exact List.forall_mem_nil _
  exact hscan _ _ _

theorem TokenStream.wellSpelled_scan (text : String) :
    ∀ token ∈ (scan text).tokens, token.piece.WellSpelled :=
  forall_scan (fun c rest kind _ hkind => Lexeme.wellSpelled_ofHead c rest kind hkind) text

/-! ### Numerals -/

namespace Lexeme

theorem isNumeral_numberFrom {c : Char} (h : c.isDigit = true) (rest : List Char) :
    Number.IsNumeral (numberFrom c rest).text := by
  have hdecimal : Number.IsNumeral (run (.token .number) [c] Char.isDigit rest).text := by
    refine .decimal (List.cons_ne_nil _ _) (List.forall_mem_cons.2 ⟨h, fun d hd => ?_⟩)
    exact List.mem_takeWhile_imp hd
  unfold numberFrom
  dsimp only
  split
  · rename_i mark digit more
    split
    · rename_i hmarked
      simp only [Bool.and_eq_true, Bool.or_eq_true, decide_eq_true_eq] at hmarked
      obtain ⟨⟨rfl, hmark⟩, hdigit⟩ := hmarked
      refine .marked hmark (List.cons_ne_nil _ _) (List.forall_mem_cons.2 ⟨hdigit, fun d hd => ?_⟩)
      exact List.mem_takeWhile_imp hd
    · exact hdecimal
  · exact hdecimal

theorem isNumeral_ofHead {c : Char} {rest : List Char} (h : (ofHead c rest).kind = .token .number) :
    Number.IsNumeral (ofHead c rest).text := by
  unfold ofHead at h ⊢
  split at h
  · cases h
  rename_i hvisible
  rw [if_neg hvisible]
  split at h
  · rename_i hdigit
    rw [if_pos hdigit]
    exact isNumeral_numberFrom hdigit rest
  -- Only a digit begins a number.
  unfold slashFrom comparisonFrom at h
  dsimp only at h
  repeat' split at h
  all_goals cases h

end Lexeme

theorem TokenStream.isNumeral_scan (text : String) :
    ∀ token ∈ (scan text).tokens, token.kind = .number → Number.IsNumeral token.text.toList := by
  refine forall_scan (fun c rest kind _ hkind hnumber => ?_) text
  rw [String.toList_ofList]
  exact Lexeme.isNumeral_ofHead (hkind.trans (congrArg _ hnumber))

/-! ### Ends -/

theorem Lexeme.kind_ofHead_ne (c : Char) (rest : List Char) :
    (ofHead c rest).kind ≠ .token .endOfInput := by
  unfold ofHead numberFrom slashFrom comparisonFrom
  dsimp only
  intro h
  repeat' split at h
  all_goals cases h

theorem TokenStream.kind_ne_scan (text : String) :
    ∀ token ∈ (scan text).tokens, token.kind ≠ .endOfInput :=
  forall_scan (fun c rest _ _ hkind hend =>
    Lexeme.kind_ofHead_ne c rest (hkind.trans (congrArg _ hend))) text

end BinarySchema
