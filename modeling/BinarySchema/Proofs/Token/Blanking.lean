import BinarySchema.Proofs.Token.Cursor
import BinarySchema.Proofs.Token.Lookahead

/-!
# Blanked comments

A text whose comments are replaced by blank space, with their line breaks kept, has the same tokens but
for the comments, at the same places, and ends in the same way. What stands in front of a comment is not
read differently, since a blank stops a lexeme as well as the slash does that a comment begins with.
-/

namespace BinarySchema

/-- The character that stands for one of a comment. -/
def Text.blanked (c : Char) : Char :=
  if c = '\n' then '\n' else ' '

/-- The text of a lexeme with its comment blanked. Behind a fault the text stays. -/
def Lexeme.blanked (lexeme : Lexeme) : List Char :=
  match lexeme.kind with
  | .fault _ => lexeme.text ++ lexeme.rest
  | .token .comment => lexeme.text.map Text.blanked
  | _ => lexeme.text

theorem Lexeme.blanked_of_ne {kind : TokenKind} (h : kind ≠ .comment) (text rest : List Char) :
    blanked ⟨.token kind, text, rest⟩ = text := by
  cases kind with
  | comment => exact absurd rfl h
  | word | number | string | punctuation | operator | endOfInput => rfl

def blankChars (chars : List Char) : List Char :=
  (Lexeme.lexemes chars).flatMap Lexeme.blanked

/-- A text with its comments blanked. -/
def blankComments (text : String) : String :=
  String.ofList (blankChars text.toList)

def TokenStream.quiet (stream : TokenStream) : TokenStream :=
  { stream with tokens := stream.tokens.filter (·.kind ≠ .comment) }

namespace TokenStream

variable {token : Token} {stream : TokenStream}

theorem quiet_cons_comment (h : token.kind = .comment) : (stream.cons token).quiet = stream.quiet := by
  unfold quiet cons
  rw [List.filter_cons_of_neg (by simp [h])]

theorem quiet_cons (h : token.kind ≠ .comment) :
    (stream.cons token).quiet = stream.quiet.cons token := by
  unfold quiet cons
  rw [List.filter_cons_of_pos (by simp [h])]

end TokenStream

namespace Text

theorem isSourceBlank_blanked (c : Char) : Lexeme.isSourceBlank (blanked c) = true := by
  unfold blanked
  split <;> rfl

theorem after_map_blanked (chars : List Char) (pos : Position) :
    pos.after (chars.map blanked) = pos.after chars := by
  have hadvance (c : Char) (pos : Position) : pos.advance (blanked c) = pos.advance c := by
    unfold blanked Position.advance
    by_cases hline : c = '\n'
    · rw [if_pos hline, if_pos rfl, if_pos hline]
    · rw [if_neg hline, if_neg (by decide), if_neg hline]
  induction chars generalizing pos with
  | nil => rfl
  | cons c rest ih =>
    change (pos.advance (blanked c)).after (rest.map blanked) = (pos.advance c).after rest
    rw [hadvance, ih]

end Text

section

variable {c : Char} {tail rest : List Char} {kind : LexemeKind}

theorem blankChars_cons (h : Lexeme.ofHead c (tail ++ rest) = ⟨kind, c :: tail, rest⟩)
    (hkind : ∀ fault, kind ≠ .fault fault) :
    blankChars (c :: (tail ++ rest)) = Lexeme.blanked ⟨kind, c :: tail, rest⟩ ++ blankChars rest := by
  rw [blankChars, Lexeme.lexemes_cons h hkind, List.flatMap_cons]
  rfl

theorem blankChars_fault {fault : LexicalFault}
    (h : Lexeme.ofHead c (tail ++ rest) = ⟨.fault fault, c :: tail, rest⟩) :
    blankChars (c :: (tail ++ rest)) = c :: (tail ++ rest) := by
  rw [blankChars, Lexeme.lexemes_fault h]
  exact List.append_nil _

end

theorem alike_blankChars (chars : List Char) : Lexeme.Alike chars (blankChars chars) := by
  induction chars using Lexeme.induction with
  | nil => exact .same []
  | lexeme kind c tail rest hhead ih =>
    cases kind with
    | fault fault =>
      rw [blankChars_fault hhead]
      exact .same _
    | blank =>
      rw [blankChars_cons hhead nofun]
      exact ih.append (c :: tail)
    | token kind =>
      rw [blankChars_cons hhead nofun]
      by_cases hcomment : kind = .comment
      · subst hcomment
        obtain rfl := Lexeme.eq_slash_of_comment hhead
        exact .stop _ _ (by decide) (by decide) (by decide) (by decide)
      · rw [Lexeme.blanked_of_ne hcomment (c :: tail) rest]
        exact ih.append (c :: tail)

theorem TokenStream.scanAt_blankChars (chars : List Char) (pos : Position) :
    scanAt pos (blankChars chars) = (scanAt pos chars).quiet := by
  induction chars using Lexeme.induction generalizing pos with
  | nil => rfl
  | lexeme kind c tail rest hhead ih =>
    rw [scanAt_cons hhead]
    cases kind with
    | fault fault =>
      rw [blankChars_fault hhead, scanAt_cons hhead]
      rfl
    | blank =>
      rw [blankChars_cons hhead nofun, behind, ← ih]
      exact scanAt_blanks (Lexeme.isSourceBlank_of_blank hhead) pos (blankChars rest)
    | token kind =>
      rw [blankChars_cons hhead nofun, behind]
      by_cases hcomment : kind = .comment
      · subst hcomment
        have hblanks : ∀ d ∈ (c :: tail).map Text.blanked, Lexeme.isSourceBlank d = true := by
          intro d hd
          obtain ⟨e, -, rfl⟩ := List.mem_map.1 hd
          exact Text.isSourceBlank_blanked e
        change scanAt pos ((c :: tail).map Text.blanked ++ blankChars rest) = _
        rw [scanAt_blanks hblanks, Text.after_map_blanked, ih, quiet_cons_comment rfl]
      · rw [Lexeme.blanked_of_ne hcomment (c :: tail) rest]
        have hahead := Lexeme.ofHead_ahead (alike_blankChars rest).ahead hcomment hhead
        change scanAt pos (c :: (tail ++ blankChars rest)) = _
        rw [scanAt_cons hahead, behind, ih, quiet_cons hcomment]

theorem TokenStream.scan_blankComments (text : String) :
    scan (blankComments text) = (scan text).quiet := by
  rw [scan_eq, scan_eq, blankComments, String.toList_ofList, scanAt_blankChars]

end BinarySchema
