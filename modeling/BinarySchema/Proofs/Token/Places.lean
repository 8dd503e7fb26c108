import BinarySchema.Proofs.Token.Lookahead
import Mathlib.Data.List.DropRight

/-!
# Where tokens stand

The tokens of a source text stand in it one behind the other and have nothing but blank space between
them. A scan carries the place of its next lexeme along; what it comes to is the number of line breaks in
front and of the characters behind the last of them (`first_after`), whichever lexemes the breaks were in.

A scan that ends with a fault has come in this way to the first character that is neither blank nor part
of a token, and the fault has the place of this character.
-/

namespace BinarySchema

namespace Position

/-- The place at an offset of a text. Its line is one more than the line breaks in front of it, its column
one more than the characters since the last of them. -/
def ofOffset (chars : List Char) (offset : Nat) : Position :=
  let front := chars.take offset
  ⟨1 + front.count '\n', 1 + (front.rtakeWhile (· != '\n')).length⟩

theorem first_after (chars : List Char) :
    first.after chars = ⟨1 + chars.count '\n', 1 + (chars.rtakeWhile (· != '\n')).length⟩ := by
  induction chars using List.reverseRecOn with
  | nil => rfl
  | append_singleton front c ih =>
    rw [after_append, ih, List.count_append, List.rtakeWhile_concat]
    change advance _ c = _
    unfold advance
    by_cases hline : c = '\n'
    · subst hline
      rfl
    · have hother : (c != '\n') = true := by simpa using hline
      rw [if_neg hline, if_pos hother, List.count_singleton, List.length_append]
      simp [hline, Nat.add_assoc]

theorem first_after_eq_ofOffset (front back : List Char) :
    first.after front = ofOffset (front ++ back) front.length := by
  rw [first_after, ofOffset, List.take_left]

def Before (pos later : Position) : Prop :=
  pos.line < later.line ∨ pos.line = later.line ∧ pos.column < later.column

theorem Before.trans {pos later last : Position} (h : pos.Before later) (hlater : later.Before last) :
    pos.Before last := by
  unfold Before at *
  omega

theorem Before.ne {pos later : Position} (h : pos.Before later) : pos ≠ later := by
  rintro rfl
  unfold Before at h
  omega

theorem before_advance (pos : Position) (c : Char) : pos.Before (pos.advance c) := by
  unfold Before advance
  by_cases hline : c = '\n'
  · rw [if_pos hline]
    exact .inl (Nat.lt_succ_self _)
  · rw [if_neg hline]
    exact .inr ⟨rfl, Nat.lt_succ_self _⟩

theorem before_after (pos : Position) (c : Char) (chars : List Char) :
    pos.Before (pos.after (c :: chars)) := by
  induction chars generalizing pos c with
  | nil => exact before_advance pos c
  | cons next rest ih => exact (before_advance pos c).trans (ih (pos.advance c) next)

end Position

/-! ### Tokens in a text -/

/-- A token with the offset of its first character. -/
structure PlacedToken where
  token : Token
  offset : Nat

namespace PlacedToken

/-- The offset behind the last character. -/
def stop (placed : PlacedToken) : Nat := placed.offset + placed.token.text.length

/-- That a token has the characters and the place that a text has at its offset. It is not empty and does
not stand for the end. -/
structure StandsIn (placed : PlacedToken) (chars : List Char) : Prop where
  text : (chars.drop placed.offset).take placed.token.text.length = placed.token.text.toList
  pos : placed.token.pos = .ofOffset chars placed.offset
  length : 0 < placed.token.text.length
  kind : placed.token.kind ≠ .endOfInput

end PlacedToken

/-- The characters that may stand between tokens. -/
def sourceBlanks : List Char := [' ', '\t', '\r', '\n', '\x0c', '\x0b']

theorem mem_sourceBlanks_iff {c : Char} : c ∈ sourceBlanks ↔ Lexeme.isSourceBlank c = true := by
  simp [sourceBlanks, Lexeme.isSourceBlank]
  tauto

/-- That a text has a character at an offset that is neither blank nor part of a token. -/
def Uncovered (chars : List Char) (tokens : List PlacedToken) (offset : Nat) : Prop :=
  ∃ c ∉ sourceBlanks, chars[offset]? = some c ∧
    ∀ placed ∈ tokens, ¬ (placed.offset ≤ offset ∧ offset < placed.stop)

/-- That tokens stand in a stretch of a text one behind the other, with blank space in front of them,
between them and behind them. -/
structure Tokenizes (chars : List Char) (start : Nat) (tokens : List PlacedToken) (stop : Nat) :
    Prop where
  ordered : start ≤ stop
  stands : ∀ placed ∈ tokens, placed.StandsIn chars
  within : ∀ placed ∈ tokens, start ≤ placed.offset ∧ placed.stop ≤ stop
  increasing : tokens.Pairwise fun left right => left.stop ≤ right.offset
  covered : ∀ offset, start ≤ offset → offset < stop → ¬ Uncovered chars tokens offset

namespace Tokenizes

variable {chars : List Char} {start middle stop : Nat} {tokens : List PlacedToken}

theorem nil (chars : List Char) (start : Nat) : Tokenizes chars start [] start where
  ordered := Nat.le_refl _
  stands := nofun
  within := nofun
  increasing := .nil
  covered _ hstart hstop := absurd hstop (Nat.not_lt.2 hstart)

/-- Blank space may stand in front. -/
theorem blanks (h : Tokenizes chars middle tokens stop) (hstart : start ≤ middle)
    (hblank : ∀ offset, start ≤ offset → offset < middle →
      ∀ c, chars[offset]? = some c → c ∈ sourceBlanks) : Tokenizes chars start tokens stop where
  ordered := Nat.le_trans hstart h.ordered
  stands := h.stands
  within placed hplaced :=
    ⟨Nat.le_trans hstart (h.within placed hplaced).1, (h.within placed hplaced).2⟩
  increasing := h.increasing
  covered offset hfrom hto := by
    intro huncovered
    by_cases hmiddle : middle ≤ offset
    · exact h.covered offset hmiddle hto huncovered
    · obtain ⟨c, hc, hchar, -⟩ := huncovered
      exact hc (hblank offset hfrom (by omega) c hchar)

/-- A token may stand in front. -/
theorem cons {placed : PlacedToken} (h : Tokenizes chars placed.stop tokens stop)
    (hplaced : placed.StandsIn chars) :
    Tokenizes chars placed.offset (placed :: tokens) stop where
  ordered := Nat.le_trans (Nat.le_add_right _ _) h.ordered
  stands := List.forall_mem_cons.2 ⟨hplaced, h.stands⟩
  within := by
    refine List.forall_mem_cons.2 ⟨⟨Nat.le_refl _, h.ordered⟩, fun other hother => ?_⟩
    obtain ⟨hfrom, hto⟩ := h.within other hother
    exact ⟨Nat.le_trans (Nat.le_add_right _ _) hfrom, hto⟩
  increasing := .cons (fun other hother => (h.within other hother).1) h.increasing
  covered offset hfrom hto := by
    rintro ⟨c, hc, hchar, houtside⟩
    obtain ⟨hhead, hothers⟩ := List.forall_mem_cons.1 houtside
    have hbehind : placed.stop ≤ offset := Nat.not_lt.1 fun hinside => hhead ⟨hfrom, hinside⟩
    exact h.covered offset hbehind hto ⟨c, hc, hchar, hothers⟩

end Tokenizes

/-! ### Scans -/

namespace Lexeme

variable {c : Char} {tail rest : List Char} {kind : LexemeKind}

theorem not_isSourceBlank_of_ne (h : ofHead c (tail ++ rest) = ⟨kind, c :: tail, rest⟩)
    (hkind : kind ≠ .blank) : c ∉ sourceBlanks := by
  intro hblank
  have hrun : ofHead c (tail ++ rest) = run .blank [c] isSourceBlank (tail ++ rest) :=
    if_pos (mem_sourceBlanks_iff.1 hblank)
  rw [hrun] at h
  exact hkind (Lexeme.mk.inj h).1.symm

end Lexeme

theorem PlacedToken.StandsIn.of_ofHead (front : List Char) {c : Char} {tail rest : List Char}
    {kind : TokenKind} (h : Lexeme.ofHead c (tail ++ rest) = ⟨.token kind, c :: tail, rest⟩) :
    StandsIn ⟨⟨kind, String.ofList (c :: tail), Position.first.after front⟩, front.length⟩
      (front ++ c :: (tail ++ rest)) where
  text := by
    rw [String.length_ofList, String.toList_ofList, List.drop_left, ← List.cons_append, List.take_left]
  pos := Position.first_after_eq_ofOffset front (c :: (tail ++ rest))
  length := by
    rw [String.length_ofList]
    exact Nat.succ_pos _
  kind := by
    intro hend
    refine Lexeme.kind_ofHead_ne c (tail ++ rest) ?_
    rw [h]
    exact congrArg _ hend

namespace TokenStream

/-- What the end of a scan says of the offset that the scan came to: it is the end of the text, or that of
a character that belongs to nothing. -/
def EndsAt (chars : List Char) (tokens : List PlacedToken) (stop : Nat) : Ending → Prop
  | .finished pos => stop = chars.length ∧ pos = .ofOffset chars stop
  | .fault error => Uncovered chars tokens stop ∧ error.pos = .ofOffset chars stop
  | .spent => False

theorem EndsAt.cons {chars : List Char} {tokens : List PlacedToken} {stop : Nat} {ending : Ending}
    (h : EndsAt chars tokens stop ending) {placed : PlacedToken} (hplaced : placed.stop ≤ stop) :
    EndsAt chars (placed :: tokens) stop ending := by
  cases ending with
  | finished pos => exact h
  | fault error =>
    obtain ⟨⟨c, hc, hchar, houtside⟩, hpos⟩ := h
    refine ⟨⟨c, hc, hchar, List.forall_mem_cons.2 ⟨?_, houtside⟩⟩, hpos⟩
    exact fun hinside => absurd hinside.2 (Nat.not_lt.2 hplaced)
  | spent => exact h

/-- A scan of what stands behind the front of a text finds the tokens there. -/
theorem exists_tokenizes (front chars : List Char) : ∃ tokens stop,
    (scanAt (Position.first.after front) chars).tokens = tokens.map PlacedToken.token ∧
      Tokenizes (front ++ chars) front.length tokens stop ∧
      EndsAt (front ++ chars) tokens stop (scanAt (Position.first.after front) chars).ending := by
  induction chars using Lexeme.induction generalizing front with
  | nil =>
    refine ⟨[], front.length, rfl, .nil _ _, by simp, ?_⟩
    exact Position.first_after_eq_ofOffset front []
  | lexeme kind c tail rest hhead ih =>
    have hplace := Position.first_after_eq_ofOffset front (c :: (tail ++ rest))
    have hchar : (front ++ c :: (tail ++ rest))[front.length]? = some c := by simp
    have hsplit : (front ++ (c :: tail)) ++ rest = front ++ c :: (tail ++ rest) := by simp
    obtain ⟨tokens, stop, htokens, hbehind, hends⟩ := ih (front ++ (c :: tail))
    rw [hsplit] at hbehind hends
    rw [scanAt_cons hhead, ← Position.after_append]
    cases kind with
    | blank =>
      refine ⟨tokens, stop, htokens, hbehind.blanks (by simp) ?_, hends⟩
      intro offset hfrom hto d hd
      rw [List.length_append] at hto
      have hinside : d ∈ c :: tail := by
        rw [← hsplit, List.getElem?_append_left (by simpa using hto),
          List.getElem?_append_right hfrom] at hd
        exact List.mem_of_getElem? hd
      exact mem_sourceBlanks_iff.2 (Lexeme.isSourceBlank_of_blank hhead d hinside)
    | token kind =>
      let placed : PlacedToken :=
        ⟨⟨kind, String.ofList (c :: tail), Position.first.after front⟩, front.length⟩
      have hstop : placed.stop = (front ++ (c :: tail)).length := by
        rw [PlacedToken.stop, String.length_ofList, List.length_append]
      rw [← hstop] at hbehind
      exact ⟨placed :: tokens, stop, congrArg (placed.token :: ·) htokens,
        hbehind.cons (.of_ofHead front hhead), hends.cons hbehind.ordered⟩
    | fault fault =>
      refine ⟨[], front.length, rfl, .nil _ _, ⟨c, ?_, hchar, nofun⟩, hplace⟩
      exact Lexeme.not_isSourceBlank_of_ne hhead nofun

theorem ending_scan_ne_spent (text : String) : (scan text).ending ≠ .spent := by
  obtain ⟨_, _, -, -, hends⟩ := exists_tokenizes [] text.toList
  rw [Position.after_nil, ← scan_eq] at hends
  intro hspent
  rw [hspent] at hends
  exact hends

end TokenStream

/-! ### Tokens by their places -/

namespace TokenStream

theorem scanAt_increasing (pos : Position) (chars : List Char) :
    (scanAt pos chars).tokens.Pairwise (fun left right => left.pos.Before right.pos) ∧
      ∀ token ∈ (scanAt pos chars).tokens, token.pos = pos ∨ pos.Before token.pos := by
  induction chars using Lexeme.induction generalizing pos with
  | nil => exact ⟨.nil, nofun⟩
  | lexeme kind c tail rest hhead ih =>
    obtain ⟨hordered, hfrom⟩ := ih (pos.after (c :: tail))
    have hahead := pos.before_after c tail
    have hbehind : ∀ token ∈ (scanAt (pos.after (c :: tail)) rest).tokens, pos.Before token.pos := by
      intro token htoken
      rcases hfrom token htoken with hpos | hpos
      · rwa [hpos]
      · exact hahead.trans hpos
    rw [scanAt_cons hhead]
    cases kind with
    | blank => exact ⟨hordered, fun token htoken => .inr (hbehind token htoken)⟩
    | token kind =>
      refine ⟨.cons hbehind hordered, List.forall_mem_cons.2 ⟨.inl rfl, fun token htoken => ?_⟩⟩
      exact .inr (hbehind token htoken)
    | fault fault => exact ⟨.nil, nofun⟩

theorem scan_increasing (text : String) :
    (scan text).tokens.Pairwise fun left right => left.pos.Before right.pos := by
  rw [scan_eq]
  exact (scanAt_increasing _ _).1

end TokenStream

def tokensFrom (pos : Position) (tokens : List Token) : List Token :=
  tokens.dropWhile (·.pos ≠ pos)

theorem tokensFrom_of_suffix {tokens rest : List Token} {token : Token}
    (hordered : tokens.Pairwise fun left right => left.pos.Before right.pos)
    (h : token :: rest <:+ tokens) : tokensFrom token.pos tokens = token :: rest := by
  obtain ⟨front, rfl⟩ := h
  have hapart (other : Token) (hother : other ∈ front) : other.pos ≠ token.pos :=
    ((List.pairwise_append.1 hordered).2.2 other hother token List.mem_cons_self).ne
  rw [tokensFrom, List.dropWhile_append_of_pos fun other hother => by simpa using hapart other hother,
    List.dropWhile_cons_of_neg (by simp)]

/-- The tokens of a text tile it. If the scan succeeds, they reach to its end and are followed by the token
that stands for the end, at the place there. If it fails, they reach to the first character that is neither
blank nor part of a token, and the error has the place of this character. -/
theorem tokens_tile_source (text : String) :
    match (TokenStream.scan text).complete with
    | (tokens, none) => ∃ placed,
      tokens = placed.map PlacedToken.token
          ++ [TokenStream.endToken (.ofOffset text.toList text.length)] ∧
        Tokenizes text.toList 0 placed text.length
    | (tokens, some error) => ∃ placed stop,
      tokens = placed.map PlacedToken.token ∧ Tokenizes text.toList 0 placed stop ∧
        Uncovered text.toList placed stop ∧ error.pos = .ofOffset text.toList stop := by
  obtain ⟨placed, stop, htokens, hplaced, hends⟩ := TokenStream.exists_tokenizes [] text.toList
  rw [List.nil_append, Position.after_nil, ← TokenStream.scan_eq] at *
  cases hending : (TokenStream.scan text).ending with
  | finished pos =>
    rw [hending] at hends
    obtain ⟨rfl, rfl⟩ := hends
    rw [TokenStream.complete, hending, htokens]
    rw [String.length_toList] at *
    exact ⟨placed, rfl, hplaced⟩
  | fault error =>
    rw [hending] at hends
    rw [TokenStream.complete, hending]
    exact ⟨placed, stop, htokens, hplaced, hends⟩
  | spent =>
    rw [hending] at hends
    exact hends.elim

/-- Line breaks inside of a comment count for the places behind it. -/
example : (TokenStream.scan "a /*\n*/b\n$").complete =
    ([⟨.word, "a", ⟨1, 1⟩⟩, ⟨.comment, "/*\n*/", ⟨1, 3⟩⟩, ⟨.word, "b", ⟨2, 3⟩⟩],
      some ⟨.unexpected '$', ⟨3, 1⟩⟩) := by
  decide +kernel

end BinarySchema
