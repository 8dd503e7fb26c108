import BinarySchema.Proofs.Token.Cursor
import BinarySchema.Proofs.Token.Lexemes
import BinarySchema.Proofs.Token.Lookahead
import BinarySchema.Proofs.Token.Outline

/-!
# Texts put together from lexemes

A row of lexemes is cut out of one text and put in front of another. It is scanned into the same pieces
there if nothing goes on with its tokens that did not before, nor with a comment at its end
(`scanAt_tiled`).

So declarations, which end with a mark that nothing goes on with, can be moved from text to text, and so
can the blanks and comments between them. The stretches of a text that is scanned without a fault are
those of its tokens (`exists_front`).
-/

namespace BinarySchema

namespace Lexeme

/-- The piece of a lexeme that is no comment. -/
def solid? (lexeme : Lexeme) : Option Piece :=
  match lexeme.kind with
  | .token .comment => none
  | .token kind => some ⟨kind, String.ofList lexeme.text⟩
  | _ => none

/-- The text that lexemes stand for. -/
def source (row : List Lexeme) : List Char :=
  row.flatMap Lexeme.text

/-- The tokens of lexemes that begin at a place. -/
def tokensAt : Position → List Lexeme → List Token
  | _, [] => []
  | pos, lexeme :: rest =>
    match lexeme.kind with
    | .token kind =>
      ⟨kind, String.ofList lexeme.text, pos⟩ :: tokensAt (pos.after lexeme.text) rest
    | _ => tokensAt (pos.after lexeme.text) rest

variable {pos : Position} {lexeme : Lexeme} {row front back : List Lexeme} {rest other : List Char}

theorem source_cons : source (lexeme :: row) = lexeme.text ++ source row := rfl

theorem source_append : source (front ++ back) = source front ++ source back :=
  List.flatMap_append

theorem solid?_of_ne {kind : TokenKind} (h : kind ≠ .comment) (text rest : List Char) :
    solid? ⟨.token kind, text, rest⟩ = some ⟨kind, String.ofList text⟩ := by
  cases kind with
  | comment => exact absurd rfl h
  | word | number | string | punctuation | operator | endOfInput => rfl

theorem tokensAt_append :
    tokensAt pos (front ++ back) = tokensAt pos front ++ tokensAt (pos.after (source front)) back := by
  induction front generalizing pos with
  | nil => rfl
  | cons lexeme front ih =>
    rw [List.cons_append, tokensAt, tokensAt, source_cons, Position.after_append]
    cases lexeme.kind with
    | token kind => exact congrArg (_ :: ·) ih
    | blank => exact ih
    | fault fault => exact ih

theorem map_piece_tokensAt (pos other : Position) (row : List Lexeme) :
    (tokensAt pos row).map Token.piece = (tokensAt other row).map Token.piece := by
  induction row generalizing pos other with
  | nil => rfl
  | cons lexeme row ih =>
    rw [tokensAt, tokensAt]
    cases lexeme.kind with
    | token kind => exact congrArg (_ :: ·) (ih _ _)
    | blank | fault => exact ih _ _

theorem solid?_token (kind : TokenKind) (text rest : List Char) (pos : Position) :
    solid? ⟨.token kind, text, rest⟩ = Token.solid? ⟨kind, String.ofList text, pos⟩ := by
  cases kind <;> rfl

theorem solid_tokensAt :
    Outline.solid Token.solid? (tokensAt pos row) = Outline.solid solid? row := by
  unfold Outline.solid
  induction row generalizing pos with
  | nil => rfl
  | cons lexeme row ih =>
    obtain ⟨kind, text, rest⟩ := lexeme
    cases kind with
    | token kind =>
      rw [tokensAt, List.filterMap_cons, List.filterMap_cons, solid?_token kind text rest pos, ih]
    | blank => exact ih
    | fault fault => exact ih

theorem of_solid?_mark {text : String} (h : solid? lexeme = some (.mark text)) :
    lexeme.kind = .token .punctuation ∧ lexeme.text = text.toList := by
  obtain ⟨kind, chars, rest⟩ := lexeme
  cases kind with
  | blank | fault => cases h
  | token kind =>
    by_cases hkind : kind = .comment
    · subst hkind
      cases h
    · rw [solid?_of_ne hkind] at h
      obtain ⟨rfl, rfl⟩ := Piece.mk.inj (Option.some.inj h)
      exact ⟨rfl, String.toList_ofList.symm⟩

theorem remarks_tokensAt (h : Outline.solid solid? row = []) : Remarks (tokensAt pos row) := by
  rw [← solid_tokensAt] at h
  intro token htoken
  have hsolid := List.filterMap_eq_nil_iff.1 h token htoken
  by_cases hkind : token.kind = .comment
  · exact hkind
  · rw [Token.solid?_of_ne hkind] at hsolid
    cases hsolid

/-! ### Rows of lexemes -/

/-- That lexemes are those at the head of their text in front of another text. -/
inductive Tiled (behind : List Char) : List Lexeme → Prop
  | nil : Tiled behind []
  | cons {kind : LexemeKind} {c : Char} {tail : List Char} {row : List Lexeme}
      (hkind : ∀ fault, kind ≠ .fault fault)
      (head : ofHead c (tail ++ (source row ++ behind)) = ⟨kind, c :: tail, source row ++ behind⟩)
      (rest : Tiled behind row) : Tiled behind (⟨kind, c :: tail, source row ++ behind⟩ :: row)

theorem Tiled.of_append (h : Tiled rest (front ++ back)) :
    Tiled (source back ++ rest) front ∧ Tiled rest back := by
  induction front with
  | nil => exact ⟨.nil, h⟩
  | cons lexeme front ih =>
    rw [List.cons_append] at h
    generalize hrow : front ++ back = row at h
    cases h with
    | cons hkind head htail =>
      subst hrow
      obtain ⟨hfront, hback⟩ := ih htail
      rw [source_append, List.append_assoc] at head ⊢
      exact ⟨.cons hkind head hfront, hback⟩

theorem Tiled.ne_line (h : Tiled rest (lexeme :: row)) (hsolid : solid? lexeme ≠ none) :
    ∃ c ∈ (source (lexeme :: row) ++ rest).head?, c ≠ '\n' := by
  cases h with
  | @cons kind c tail _ hkind head htail =>
    refine ⟨c, rfl, ?_⟩
    rintro rfl
    obtain rfl : .blank = kind := congrArg Lexeme.kind head
    exact hsolid rfl

theorem Tiled.kind_ne (h : Tiled rest row) (pos : Position) :
    ∀ token ∈ tokensAt pos row, token.kind ≠ .endOfInput := by
  induction h generalizing pos with
  | nil => exact List.forall_mem_nil _
  | @cons kind c tail row hkind head htail ih =>
    rw [tokensAt]
    cases kind with
    | blank | fault => exact ih _
    | token kind =>
      refine List.forall_mem_cons.2 ⟨fun hend => kind_ofHead_ne c (tail ++ (source row ++ rest)) ?_, ih _⟩
      rw [head]
      exact congrArg _ hend

/-- That a comment in front of one text does not go on into another. -/
def KeepsComments (rest other : List Char) : Prop :=
  other.head? = rest.head? ∨ other.head? = some '\n' ∨ ∃ c ∈ rest.head?, c ≠ '\n'

theorem KeepsComments.append (h : KeepsComments rest other) (front : List Char) :
    KeepsComments (front ++ rest) (front ++ other) := by
  cases front with
  | nil => exact h
  | cons c front => exact .inl rfl

def EndsLine (rest : List Char) : Prop :=
  ∀ c ∈ rest.head?, c = '\n'

theorem endsLine_dropWhile (chars : List Char) : EndsLine (chars.dropWhile (· != '\n')) := by
  intro c hc
  have hstop := List.head?_dropWhile_not (· != '\n') chars
  rw [hc] at hstop
  simpa using hstop

/-- Behind a comment that takes the rest of its line, the line ends. -/
theorem KeepsComments.line (h : KeepsComments rest other) (hends : EndsLine rest) : EndsLine other := by
  intro c hc
  rcases h with hsame | hline | ⟨d, hd, hne⟩
  · exact hends c (hsame ▸ hc)
  · exact (Option.some.inj (hline.symm.trans hc)).symm
  · exact absurd (hends d hd) hne

theorem takeWhile_of_line {chars : List Char} (h : ∀ c ∈ chars, (c != '\n') = true)
    (hline : EndsLine other) :
    (chars ++ other).takeWhile (· != '\n') = chars ∧ (chars ++ other).dropWhile (· != '\n') = other := by
  rw [List.takeWhile_append_of_pos h, List.dropWhile_append_of_pos h]
  cases other with
  | nil => exact ⟨List.append_nil _, rfl⟩
  | cons c more =>
    obtain rfl := hline c rfl
    exact ⟨List.append_nil _, rfl⟩

theorem ofHead_comment {c : Char} {tail : List Char} (hline : EndsLine rest → EndsLine other)
    (hhead : ofHead c (tail ++ rest) = ⟨.token .comment, c :: tail, rest⟩) :
    ofHead c (tail ++ other) = ⟨.token .comment, c :: tail, other⟩ := by
  obtain rfl := eq_slash_of_comment hhead
  change slashFrom (tail ++ rest) = _ at hhead
  change slashFrom (tail ++ other) = _
  unfold slashFrom at hhead
  split at hhead
  · split at hhead
    · rename_i more _ body left hbody
      obtain ⟨-, htext, rfl⟩ := Lexeme.mk.inj hhead
      obtain rfl : '*' :: body = tail := (List.cons.inj htext).2
      have hclosed : splitComment (body ++ left) = some (body, left) := by
        rw [splitComment_append hbody]
        exact hbody
      rw [List.cons_append, slashFrom, splitComment_alike other hclosed]
    · cases (Lexeme.mk.inj hhead).1
  · rename_i more _
    obtain ⟨-, htext, rfl⟩ := Lexeme.mk.inj hhead
    obtain rfl : '/' :: more.takeWhile (· != '\n') = tail := (List.cons.inj htext).2
    have hinside : ∀ c ∈ more.takeWhile (· != '\n'), (c != '\n') = true :=
      List.all_eq_true.1 List.all_takeWhile
    obtain ⟨htake, hdrop⟩ := takeWhile_of_line hinside (hline (endsLine_dropWhile more))
    rw [List.cons_append, slashFrom, run, htake, hdrop]
    rfl
  · cases (Lexeme.mk.inj hhead).1

/-- The blanks and comments in front of a declaration. -/
def lead (row : List Lexeme) : List Lexeme :=
  row.takeWhile (·.solid?.isNone)

theorem lead_solid (row : List Lexeme) : ∀ lexeme ∈ lead row, lexeme.solid? = none := by
  intro lexeme hmem
  exact Option.isNone_iff_eq_none.1 (List.all_eq_true.1 List.all_takeWhile lexeme hmem)

theorem lead_remarks (row : List Lexeme) (pos : Position) : Remarks (tokensAt pos (lead row)) :=
  remarks_tokensAt (List.filterMap_eq_nil_iff.2 (lead_solid row))

theorem exists_lead {depth : Nat} (h : Outline.Closes solid? depth row) :
    ∃ lexeme back, row = lead row ++ lexeme :: back ∧ lexeme.solid? ≠ none := by
  induction row with
  | nil => exact h.elim
  | cons lexeme row ih =>
    cases hsolid : lexeme.solid? with
    | some piece =>
      refine ⟨lexeme, row, ?_, hsolid ▸ nofun⟩
      rw [lead, List.takeWhile_cons_of_neg (by simp [hsolid])]
      rfl
    | none =>
      rw [Outline.Closes, Outline.deepen, hsolid] at h
      obtain ⟨first, back, hrow, hfirst⟩ := ih h
      refine ⟨first, back, ?_, hfirst⟩
      rw [lead, List.takeWhile_cons_of_pos (by simp [hsolid])]
      exact congrArg (lexeme :: ·) hrow

end Lexeme

namespace TokenStream

open Lexeme

/-- A stream with tokens in front of it. -/
def prepend (front : List Token) (stream : TokenStream) : TokenStream :=
  { stream with tokens := front ++ stream.tokens }

theorem prepend_append (front back : List Token) (stream : TokenStream) :
    stream.prepend (front ++ back) = (stream.prepend back).prepend front := by
  unfold prepend
  rw [List.append_assoc]

variable {row : List Lexeme} {rest other : List Char}

/-- A row of lexemes is scanned in front of one text as in front of another. -/
theorem scanAt_tiled (h : Tiled rest row)
    (htokens : (∀ lexeme ∈ row, lexeme.solid? = none) ∨ Ahead rest other)
    (hcomments : KeepsComments rest other) (pos : Position) :
    scanAt pos (source row ++ other)
      = (scanAt (pos.after (source row)) other).prepend (tokensAt pos row) := by
  induction h generalizing pos with
  | nil => rfl
  | @cons kind c tail row hkind head hrow ih =>
    have hrest (pos : Position) := ih (htokens.imp_left fun h lexeme hmem =>
      h lexeme (List.mem_cons_of_mem _ hmem)) pos
    have hsource : source (⟨kind, c :: tail, source row ++ rest⟩ :: row) ++ other
        = c :: (tail ++ (source row ++ other)) := by
      rw [source_cons, List.append_assoc]
      rfl
    have hplace : pos.after (source (⟨kind, c :: tail, source row ++ rest⟩ :: row))
        = (pos.after (c :: tail)).after (source row) := by
      rw [source_cons, Position.after_append]
    rw [hsource, hplace, tokensAt]
    cases kind with
    | fault fault => exact absurd rfl (hkind fault)
    | blank =>
      have hblank := isSourceBlank_of_blank head
      exact (scanAt_blanks hblank pos (source row ++ other)).trans (hrest _)
    | token kind =>
      have hhead : ofHead c (tail ++ (source row ++ other))
          = ⟨.token kind, c :: tail, source row ++ other⟩ := by
        by_cases hcomment : kind = .comment
        · subst hcomment
          exact ofHead_comment (hcomments.append _).line head
        · refine ofHead_ahead (Ahead.append _ (htokens.resolve_left fun h => ?_)) hcomment head
          have hsolid := h _ List.mem_cons_self
          rw [solid?_of_ne hcomment] at hsolid
          cases hsolid
      rw [scanAt_cons hhead, behind, hrest]
      rfl

theorem scanAt_remarks (h : Tiled rest row) (hrow : ∀ lexeme ∈ row, lexeme.solid? = none)
    (hcomments : KeepsComments rest other) (pos : Position) :
    scanAt pos (source row ++ other)
      = (scanAt (pos.after (source row)) other).prepend (tokensAt pos row) :=
  scanAt_tiled h (.inl hrow) hcomments pos

/-- A declaration is scanned in front of any text. -/
theorem scanAt_closes {depth : Nat} (h : Tiled rest row) (hrow : Outline.Closes solid? depth row)
    (other : List Char) (pos : Position) :
    scanAt pos (source row ++ other)
      = (scanAt (pos.after (source row)) other).prepend (tokensAt pos row) := by
  obtain ⟨front, last, rfl, hlast⟩ := Outline.exists_closer hrow
  obtain ⟨hfront, -⟩ := h.of_append
  -- The last mark is the same in front of any text, and nothing goes on with it.
  obtain ⟨c, hkind, htext, halike, hhead⟩ : ∃ c, last.kind = .token .punctuation ∧ last.text = [c] ∧
      Alike (c :: rest) (c :: other) ∧ ofHead c other = ⟨.token .punctuation, [c], other⟩ := by
    rcases hlast with hlast | hlast
    · obtain ⟨hkind, htext⟩ := of_solid?_mark hlast
      refine ⟨';', hkind, htext, .stop _ _ ?_ ?_ ?_ ?_, rfl⟩ <;> decide
    · obtain ⟨hkind, htext⟩ := of_solid?_mark hlast
      refine ⟨'\x7d', hkind, htext, .stop _ _ ?_ ?_ ?_ ?_, rfl⟩ <;> decide
  have hsource : source [last] = [c] := by
    rw [source_cons, htext]
    rfl
  have hmark (pos : Position) : scanAt pos (c :: other)
      = (scanAt (pos.after [c]) other).prepend (tokensAt pos [last]) := by
    have hscan : scanAt pos (c :: ([] ++ other)) = _ := scanAt_cons hhead pos
    rw [tokensAt, hkind, htext]
    exact hscan
  rw [hsource] at hfront
  rw [source_append, hsource, List.append_assoc, Position.after_append, tokensAt_append, prepend_append,
    ← hmark]
  exact scanAt_tiled hfront (.inr halike.ahead) (.inl rfl) pos

theorem scanAt_lead {depth : Nat} (h : Tiled rest row) (hrow : Outline.Closes solid? depth row)
    (other : List Char) (pos : Position) :
    scanAt pos (source (lead row) ++ other)
      = (scanAt (pos.after (source (lead row))) other).prepend (tokensAt pos (lead row)) := by
  obtain ⟨lexeme, back, hsplit, hsolid⟩ := exists_lead hrow
  rw [hsplit] at h
  obtain ⟨hlead, hback⟩ := h.of_append
  exact scanAt_remarks hlead (lead_solid row) (.inr (.inr (hback.ne_line hsolid))) pos

/-- A text that is scanned without a fault is tiled by its lexemes. -/
theorem tiled_of_finished {chars : List Char} {pos last : Position}
    (h : (scanAt pos chars).ending = .finished last) :
    Tiled [] (lexemes chars) ∧ source (lexemes chars) = chars := by
  induction chars using Lexeme.induction generalizing pos with
  | nil => exact ⟨.nil, rfl⟩
  | lexeme kind c tail rest hhead ih =>
    rw [scanAt_cons hhead] at h
    have hcons (hkind : ∀ fault, kind ≠ .fault fault)
        (h : (scanAt (pos.after (c :: tail)) rest).ending = .finished last) :
        Tiled [] (lexemes (c :: (tail ++ rest)))
          ∧ source (lexemes (c :: (tail ++ rest))) = c :: (tail ++ rest) := by
      obtain ⟨htiled, hsource⟩ := ih h
      have hrest : rest = source (lexemes rest) ++ [] := by rw [hsource, List.append_nil]
      rw [lexemes_cons hhead hkind, source_cons, hsource]
      refine ⟨?_, rfl⟩
      rw [hrest] at hhead
      have hrow := Tiled.cons hkind hhead htiled
      rwa [← hrest] at hrow
    cases kind with
    | blank => exact hcons nofun h
    | token kind => exact hcons nofun h
    | fault fault => cases h

/-- The tokens of a text that is scanned without a fault are those of its lexemes. -/
theorem scanAt_of_finished {chars : List Char} {pos last : Position}
    (h : (scanAt pos chars).ending = .finished last) :
    scanAt pos chars = ⟨tokensAt pos (lexemes chars), .finished last⟩ := by
  obtain ⟨htiled, hsource⟩ := tiled_of_finished h
  have hscan := scanAt_tiled htiled (.inr (Alike.same []).ahead) (.inl rfl) pos
  rw [List.append_nil, hsource] at hscan
  have hplace : last = pos.after chars := by
    rw [hscan] at h
    exact (Ending.finished.inj h).symm
  rw [hscan, hplace, scanAt_nil, prepend, List.append_nil]

end TokenStream

namespace Lexeme

variable {pos : Position} {row : List Lexeme}

/-- The tokens of a declaration come from a stretch of lexemes. -/
theorem exists_front {used rest : List Token} {depth : Nat} (h : tokensAt pos row = used ++ rest)
    (hcloses : Outline.Closes Token.solid? depth used) :
    ∃ front back, row = front ++ back ∧ Outline.Closes solid? depth front ∧
      tokensAt pos front = used ∧ tokensAt (pos.after (source front)) back = rest := by
  induction row generalizing pos used depth with
  | nil =>
    cases used with
    | nil => exact hcloses.elim
    | cons token used => cases h
  | cons lexeme row ih =>
    -- A lexeme that does not close the declaration joins the front of those behind it.
    have hjoin {next : Nat} {used : List Token} (hnext : Outline.deepen solid? depth lexeme = some next)
        (h : tokensAt (pos.after lexeme.text) row = used ++ rest)
        (hcloses : Outline.Closes Token.solid? next used) :
        ∃ front back, row = front ++ back ∧ Outline.Closes solid? depth (lexeme :: front) ∧
          tokensAt (pos.after lexeme.text) front = used ∧
          tokensAt (pos.after (source (lexeme :: front))) back = rest := by
      obtain ⟨front, back, hrow, hfront, hused, hback⟩ := ih h hcloses
      refine ⟨front, back, hrow, ?_, hused, ?_⟩
      · rw [Outline.Closes, hnext]
        exact hfront
      · rwa [source_cons, Position.after_append]
    obtain ⟨kind, text, left⟩ := lexeme
    cases kind with
    | blank | fault =>
      obtain ⟨front, back, hrow, hfront, hused, hback⟩ := hjoin rfl h hcloses
      exact ⟨_ :: front, back, congrArg _ hrow, hfront, hused, hback⟩
    | token kind =>
      cases used with
      | nil => exact hcloses.elim
      | cons token used =>
        obtain ⟨rfl, hrest⟩ := List.cons.inj h
        have hsame : Outline.deepen Token.solid? depth ⟨kind, String.ofList text, pos⟩
            = Outline.deepen solid? depth ⟨.token kind, text, left⟩ := by
          rw [Outline.deepen, Outline.deepen, solid?_token kind text left pos]
        rw [Outline.Closes, hsame] at hcloses
        cases hnext : Outline.deepen solid? depth ⟨.token kind, text, left⟩ with
        | none =>
          rw [hnext] at hcloses
          obtain rfl : used = [] := hcloses
          refine ⟨[⟨.token kind, text, left⟩], row, rfl, ?_, rfl, ?_⟩
          · rw [Outline.Closes, hnext]
          · change tokensAt (pos.after (text ++ [])) row = rest
            rw [List.append_nil]
            exact hrest
        | some next =>
          rw [hnext] at hcloses
          obtain ⟨front, back, hrow, hfront, hused, hback⟩ := hjoin hnext hrest hcloses
          exact ⟨_ :: front, back, congrArg _ hrow, hfront, congrArg _ hused, hback⟩

end Lexeme

end BinarySchema
