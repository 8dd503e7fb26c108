import BinarySchema.Proofs.Token.Composition
import BinarySchema.Proofs.Token.Places
import Mathlib.Data.List.Forall2

/-!
# Lines put together

A text that is scanned without a fault is scanned alike in front of a line break, because nothing goes on
with a token there and a comment that takes the rest of its line ends. What stands behind the break begins
a line, so it is scanned as on its own, but for the numbers of its lines (`scanAt_lines`).

Each token is scanned alone into itself. So the tokens of a text can be written one on each line, and are
scanned into the same pieces again.
-/

namespace BinarySchema

/-! ### Lower lines -/

/-- The place so many lines further down. -/
def Position.lower (lines : Nat) (pos : Position) : Position :=
  { pos with line := pos.line + lines }

def Token.lower (lines : Nat) (token : Token) : Token :=
  { token with pos := token.pos.lower lines }

def LexicalError.lower (lines : Nat) (error : LexicalError) : LexicalError :=
  { error with pos := error.pos.lower lines }

namespace TokenStream

def Ending.lower (lines : Nat) : Ending → Ending
  | .finished pos => .finished (pos.lower lines)
  | .fault error => .fault (error.lower lines)
  | .spent => .spent

def lower (lines : Nat) (stream : TokenStream) : TokenStream :=
  ⟨stream.tokens.map (Token.lower lines), Ending.lower lines stream.ending⟩

theorem complete_lower (lines : Nat) (stream : TokenStream) :
    (stream.lower lines).complete
      = (stream.complete.1.map (Token.lower lines), stream.complete.2.map (LexicalError.lower lines)) := by
  obtain ⟨tokens, ending⟩ := stream
  cases ending with
  | finished pos => simp [complete, lower, Ending.lower, endToken, Token.lower]
  | fault error => rfl
  | spent => rfl

theorem complete_prepend (front : List Token) (stream : TokenStream) :
    (stream.prepend front).complete = (front ++ stream.complete.1, stream.complete.2) := by
  obtain ⟨tokens, ending⟩ := stream
  cases ending with
  | finished pos => simp [complete, prepend, List.append_assoc]
  | fault error => rfl
  | spent => rfl

end TokenStream

namespace Position

theorem advance_lower (lines : Nat) (pos : Position) (c : Char) :
    (pos.lower lines).advance c = (pos.advance c).lower lines := by
  unfold advance
  split
  · exact congrArg (Position.mk · 1) (Nat.add_right_comm pos.line lines 1)
  · rfl

theorem after_lower (lines : Nat) (pos : Position) (chars : List Char) :
    (pos.lower lines).after chars = (pos.after chars).lower lines := by
  induction chars generalizing pos with
  | nil => rfl
  | cons c chars ih =>
    show ((pos.lower lines).advance c).after chars = ((pos.advance c).after chars).lower lines
    rw [advance_lower, ih]

theorem advance_first_after (chars : List Char) :
    (first.after chars).advance '\n' = first.lower (1 + chars.count '\n') := by
  rw [first_after]
  exact congrArg (Position.mk · 1) (Nat.add_comm _ 1)

end Position

/-! ### Scans in front of a line break -/

namespace Lexeme

variable {c : Char} {tail rest : List Char}

theorem Ahead.of_endsLine {other : List Char} (h : EndsLine other) (rest : List Char) :
    Ahead rest other where
  head d hd hgoes := by
    obtain rfl := h d hd
    exact absurd hgoes (by decide)
  pair d e more hother hd _ := by
    subst hother
    obtain rfl := h d rfl
    exact absurd (by decide) hd

theorem ofHead_alone {kind : TokenKind}
    (h : ofHead c (tail ++ rest) = ⟨.token kind, c :: tail, rest⟩) :
    ofHead c (tail ++ []) = ⟨.token kind, c :: tail, []⟩ := by
  have hline : EndsLine [] := fun _ hd => by cases hd
  by_cases hcomment : kind = .comment
  · subst hcomment
    exact ofHead_comment (fun _ => hline) h
  · exact ofHead_ahead (.of_endsLine hline rest) hcomment h

end Lexeme

namespace TokenStream

open Lexeme

variable {pos last : Position} {chars : List Char}

theorem scanAt_lower (lines : Nat) (pos : Position) (chars : List Char) :
    scanAt (pos.lower lines) chars = (scanAt pos chars).lower lines := by
  induction chars using Lexeme.induction generalizing pos with
  | nil => rfl
  | lexeme kind c tail rest hhead ih =>
    rw [scanAt_cons hhead, scanAt_cons hhead, Position.after_lower, ih]
    cases kind with
    | blank | token kind | fault fault => rfl

/-- Behind a text that is scanned without a fault and a line break, any text is scanned as if it began
there. -/
theorem scanAt_lines (h : (scanAt pos chars).ending = .finished last) (other : List Char) :
    scanAt pos (chars ++ '\n' :: other)
      = (scanAt ((pos.after chars).advance '\n') other).prepend (scanAt pos chars).tokens := by
  obtain ⟨htiled, hsource⟩ := tiled_of_finished h
  have hline : EndsLine ('\n' :: other) := by
    intro c hc
    cases hc
    rfl
  have hscan := scanAt_tiled htiled (.inr (.of_endsLine hline [])) (.inr (.inl rfl)) pos
  rw [hsource, scanAt_blank rfl] at hscan
  rw [hscan, scanAt_of_finished h]

theorem scan_lines {text : String} (h : (scan text).ending = .finished last) (more : String) :
    scan (text ++ "\n" ++ more)
      = ((scan more).lower (1 + text.toList.count '\n')).prepend (scan text).tokens := by
  have hchars : (text ++ "\n" ++ more).toList = text.toList ++ '\n' :: more.toList := by
    rw [String.toList_append, String.toList_append, List.append_assoc]
    rfl
  rw [scan_eq] at h
  rw [scan_eq, hchars, scanAt_lines h, Position.advance_first_after, scanAt_lower, ← scan_eq, ← scan_eq]

theorem complete_of_finished {stream : TokenStream} (h : stream.ending = .finished last) :
    stream.complete = (stream.tokens ++ [endToken last], none) := by
  unfold complete
  rw [h]

theorem exists_finished {text : String} (h : (scan text).complete.2 = none) :
    ∃ last, (scan text).ending = .finished last := by
  cases hending : (scan text).ending with
  | finished last => exact ⟨last, rfl⟩
  | fault error =>
    rw [complete, hending] at h
    cases h
  | spent => exact absurd hending (ending_scan_ne_spent text)

/-! ### A token on each line -/

/-- That a text is scanned to its end, into tokens that are these pieces. -/
structure ScansTo (text : String) (pieces : List Piece) : Prop where
  finished : ∃ last, (scan text).ending = .finished last
  pieces : (scan text).tokens.map Token.piece = pieces

namespace ScansTo

variable {text more : String} {left right : List Piece}

theorem empty : ScansTo "" [] := ⟨⟨.first, rfl⟩, rfl⟩

theorem lines (htext : ScansTo text left) (hmore : ScansTo more right) :
    ScansTo (text ++ "\n" ++ more) (left ++ right) := by
  obtain ⟨last, hfinished⟩ := htext.finished
  obtain ⟨last', hfinished'⟩ := hmore.finished
  have hscan : scan (text ++ "\n" ++ more)
      = ((scan more).lower (1 + text.toList.count '\n')).prepend (scan text).tokens :=
    scan_lines hfinished more
  constructor
  · refine ⟨last'.lower (1 + text.toList.count '\n'), ?_⟩
    rw [hscan]
    exact congrArg (Ending.lower _) hfinished'
  · rw [hscan, prepend, List.map_append, htext.pieces, ← hmore.pieces, lower, List.map_map]
    rfl

/-- Texts with a line break between each two of them. -/
theorem intercalate {texts : List String} {rows : List (List Piece)}
    (h : List.Forall₂ ScansTo texts rows) : ScansTo ("\n".intercalate texts) rows.flatten := by
  induction h with
  | nil => exact empty
  | @cons text row texts rows htext hrest ih =>
    cases hrest with
    | nil =>
      rw [String.intercalate_singleton, List.flatten_cons, List.flatten_nil, List.append_nil]
      exact htext
    | cons hmore hrest =>
      rw [String.intercalate_cons_cons, List.flatten_cons]
      exact htext.lines ih

end ScansTo

theorem scansTo_token (pos : Position) (chars : List Char) :
    ∀ token ∈ (scanAt pos chars).tokens, ScansTo token.text [token.piece] := by
  induction chars using Lexeme.induction generalizing pos with
  | nil => exact List.forall_mem_nil _
  | lexeme kind c tail rest hhead ih =>
    rw [scanAt_cons hhead]
    cases kind with
    | fault fault => exact List.forall_mem_nil _
    | blank => exact ih _
    | token kind =>
      refine List.forall_mem_cons.2 ⟨?_, ih _⟩
      have hscan : scan (String.ofList (c :: tail))
          = ⟨[⟨kind, String.ofList (c :: tail), .first⟩], .finished (Position.first.after (c :: tail))⟩ := by
        have halone := scanAt_cons (ofHead_alone hhead) .first
        rw [List.append_nil] at halone
        rw [scan_eq, String.toList_ofList, halone]
        rfl
      dsimp only
      exact ⟨⟨_, congrArg TokenStream.ending hscan⟩, by rw [hscan]; rfl⟩

theorem scansTo_tokens {text : String} (h : (scan text).ending = .finished last) :
    ScansTo ("\n".intercalate ((scan text).complete.1.map Token.text))
      ((scan text).tokens.map Token.piece) := by
  have hrows : List.Forall₂ ScansTo ((scan text).complete.1.map Token.text)
      ((scan text).tokens.map (fun token => [token.piece]) ++ [[]]) := by
    rw [complete_of_finished h, List.map_append]
    refine List.rel_append ?_ (.cons .empty .nil)
    rw [List.forall₂_map_left_iff, List.forall₂_map_right_iff, List.forall₂_same, scan_eq]
    exact scansTo_token .first text.toList
  have hjoined := ScansTo.intercalate hrows
  rwa [List.flatten_append, ← List.flatMap_def, ← List.map_eq_flatMap, List.flatten_cons,
    List.flatten_nil, List.append_nil, List.append_nil] at hjoined

end TokenStream

/-- Behind a text without a lexical error and a line break, any text has its own tokens and its own error,
as many lines further down as there are line breaks in front. The tokens of the text itself, each on a line
of its own, have the same kinds and texts again. -/
theorem tokens_of_lines {text : String} (h : (TokenStream.scan text).complete.2 = none) :
    (∀ more : String,
      let lines := 1 + text.toList.count '\n'
      (TokenStream.scan (text ++ "\n" ++ more)).complete
        = ((TokenStream.scan text).complete.1.dropLast
              ++ (TokenStream.scan more).complete.1.map (Token.lower lines),
            (TokenStream.scan more).complete.2.map (LexicalError.lower lines))) ∧
    let joined := "\n".intercalate ((TokenStream.scan text).complete.1.map Token.text)
    (TokenStream.scan joined).complete.2 = none ∧
      (TokenStream.scan joined).complete.1.map Token.piece
        = (TokenStream.scan text).complete.1.map Token.piece := by
  obtain ⟨last, hfinished⟩ := TokenStream.exists_finished h
  have hcomplete := TokenStream.complete_of_finished hfinished
  refine ⟨fun more => ?_, ?_⟩
  · rw [TokenStream.scan_lines hfinished, TokenStream.complete_prepend, TokenStream.complete_lower,
      hcomplete, List.dropLast_concat]
  · intro joined
    obtain ⟨⟨last', hfinished'⟩, hpieces⟩ := TokenStream.scansTo_tokens hfinished
    have hcomplete' := TokenStream.complete_of_finished hfinished'
    refine ⟨congrArg Prod.snd hcomplete', ?_⟩
    rw [hcomplete', List.map_append, hpieces, hcomplete, List.map_append]
    rfl

/-- A comment over two lines and one up to the end of its line, in front of a line with an error. -/
theorem tokens_of_lines_comments :
    let text := "a /* b\n */ <= // c"
    (TokenStream.scan text).complete.2 = none ∧
    (TokenStream.scan (text ++ "\n" ++ "x\n  $")).complete
      = ([⟨.word, "a", ⟨1, 1⟩⟩, ⟨.comment, "/* b\n */", ⟨1, 3⟩⟩, ⟨.operator, "<=", ⟨2, 5⟩⟩,
            ⟨.comment, "// c", ⟨2, 8⟩⟩, ⟨.word, "x", ⟨3, 1⟩⟩],
          some ⟨.unexpected '$', ⟨4, 3⟩⟩) ∧
    (TokenStream.scan "a\n/* b\n */\n<=\n// c\n").complete.1.map Token.piece
      = (TokenStream.scan text).complete.1.map Token.piece := by
  intro text
  have h : (TokenStream.scan text).complete.2 = none := by decide +kernel
  obtain ⟨hlines, -, hpieces⟩ := tokens_of_lines h
  refine ⟨h, (hlines "x\n  $").trans (by decide +kernel), ?_⟩
  have hjoined : "\n".intercalate ((TokenStream.scan text).complete.1.map Token.text)
      = "a\n/* b\n */\n<=\n// c\n" := by decide +kernel
  rw [← hjoined]
  exact hpieces

end BinarySchema
