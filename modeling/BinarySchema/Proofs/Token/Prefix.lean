import BinarySchema.Proofs.Token.Composition
import BinarySchema.Proofs.Token.Places

/-!
# Texts that end early

A text that is cut off between two of its tokens has the tokens in front of the cut, and no others. This
is not so at other places: there the front of a token stays, which may be another token or none at all.

A token is the longest that can be read, so it is read as far in the front of the text as in the whole.
-/

namespace BinarySchema

namespace Lexeme

variable {pos : Position} {offset : Nat} {row : List Lexeme} {c : Char} {tail front back : List Char}

/-- The tokens of lexemes that begin at a place and an offset. -/
def placedAt : Position → Nat → List Lexeme → List PlacedToken
  | _, _, [] => []
  | pos, offset, lexeme :: rest =>
    let behind := placedAt (pos.after lexeme.text) (offset + lexeme.text.length) rest
    match lexeme.kind with
    | .token kind => ⟨⟨kind, String.ofList lexeme.text, pos⟩, offset⟩ :: behind
    | _ => behind

theorem ofHead_of_append {kind : TokenKind}
    (h : ofHead c (tail ++ (front ++ back)) = ⟨.token kind, c :: tail, front ++ back⟩) :
    ofHead c (tail ++ front) = ⟨.token kind, c :: tail, front⟩ := by
  by_cases hcomment : kind = .comment
  · subst hcomment
    refine ofHead_comment (fun hends d hd => hends d ?_) h
    obtain ⟨more, rfl⟩ := List.head?_eq_some_iff.1 hd
    rfl
  · exact ofHead_ahead (.of_append front back) hcomment h

end Lexeme

/-! ### Places between tokens -/

/-- That none of some tokens has characters on both sides of an offset. -/
def Between (tokens : List PlacedToken) (offset : Nat) : Prop :=
  ∀ placed ∈ tokens, placed.stop ≤ offset ∨ offset ≤ placed.offset

def placedTokens (text : String) : List PlacedToken :=
  Lexeme.placedAt .first 0 (Lexeme.lexemes text.toList)

/-- That an offset of a text is between two of its tokens, or in front of or behind them all. -/
def TokenBoundary (text : String) (offset : Nat) : Prop :=
  Between (placedTokens text) offset

instance (text : String) (offset : Nat) : Decidable (TokenBoundary text offset) :=
  inferInstanceAs (Decidable (∀ placed ∈ placedTokens text, _ ∨ _))

/-- A comment is a token, and its last sign stands inside of it. -/
example : ¬ TokenBoundary "enum E : byte \x7b A /* b */ \x7d" 24 := by
  decide +kernel

namespace TokenStream

open Lexeme (placedAt lexemes)

/-- The front of a text that is scanned without a fault, cut between two tokens. -/
theorem scanAt_front {chars front back : List Char} {pos last : Position} {start : Nat}
    (hchars : chars = front ++ back) (hfinished : (scanAt pos chars).ending = .finished last)
    (hboundary : Between (placedAt pos start (lexemes chars)) (start + front.length)) :
    (scanAt pos front).ending = .finished (pos.after front) ∧
      (scanAt pos front).tokens <+: (scanAt pos chars).tokens := by
  induction chars using Lexeme.induction generalizing pos start front with
  | nil =>
    obtain ⟨rfl, -⟩ := List.append_eq_nil_iff.1 hchars.symm
    exact ⟨rfl, List.prefix_refl _⟩
  | lexeme kind c tail rest hhead ih =>
    cases front with
    | nil => exact ⟨rfl, List.nil_prefix⟩
    | cons c' front =>
      obtain rfl : c = c' := (List.cons.inj hchars).1
      have hsplit : tail ++ rest = front ++ back := (List.cons.inj hchars).2
      rw [scanAt_cons hhead] at hfinished ⊢
      -- If the cut is behind the lexeme, it is one of what follows.
      have hbehind (inside : List Char) (hfront : front = tail ++ inside)
          (hrest : Between (placedAt (pos.after (c :: tail)) (start + (c :: tail).length) (lexemes rest))
            (start + (c :: front).length))
          (hfinished : (scanAt (pos.after (c :: tail)) rest).ending = .finished last) :
          (scanAt (pos.after (c :: tail)) inside).ending = .finished (pos.after (c :: front)) ∧
            (scanAt (pos.after (c :: tail)) inside).tokens
              <+: (scanAt (pos.after (c :: tail)) rest).tokens := by
        have hplace : pos.after (c :: front) = (pos.after (c :: tail)).after inside := by
          rw [hfront, ← List.cons_append, Position.after_append]
        have hoffset : start + (c :: front).length = start + (c :: tail).length + inside.length := by
          rw [hfront, ← List.cons_append, List.length_append, Nat.add_assoc]
        rw [hoffset] at hrest
        rw [hfront, List.append_assoc] at hsplit
        rw [hplace]
        exact ih (List.append_cancel_left hsplit) hfinished hrest
      cases kind with
      | fault fault => cases hfinished
      | blank =>
        have hblank := Lexeme.isSourceBlank_of_blank hhead
        rw [Lexeme.lexemes_cons hhead nofun] at hboundary
        rcases List.append_eq_append_iff.1 hsplit with ⟨inside, hfront, -⟩ | ⟨inside, rfl, -⟩
        · have hscan : scanAt pos (c :: front) = scanAt (pos.after (c :: tail)) inside := by
            rw [hfront]
            exact scanAt_blanks hblank pos inside
          rw [hscan]
          exact hbehind inside hfront hboundary hfinished
        · -- The cut is inside of blank space, and all in front of it is blank.
          have hfront : ∀ d ∈ c :: front, Lexeme.isSourceBlank d = true :=
            fun d hd => hblank d (List.mem_append_left inside hd)
          have hscan := scanAt_blanks hfront pos []
          rw [List.append_nil] at hscan
          rw [hscan]
          exact ⟨rfl, List.nil_prefix⟩
      | token kind =>
        rw [Lexeme.lexemes_cons hhead nofun] at hboundary
        obtain ⟨hside, hrest⟩ := List.forall_mem_cons.1 hboundary
        have hlength : tail.length ≤ front.length := by
          simp only [PlacedToken.stop, String.length_ofList, List.length_cons] at hside
          omega
        obtain ⟨inside, hfront⟩ : tail <+: front :=
          List.prefix_of_prefix_length_le ⟨rest, hsplit⟩ (List.prefix_append front back) hlength
        obtain ⟨hending, htokens⟩ := hbehind inside hfront.symm hrest hfinished
        have hhead' : Lexeme.ofHead c (tail ++ inside) = ⟨.token kind, c :: tail, inside⟩ := by
          rw [← hfront, List.append_assoc, List.append_cancel_left_eq] at hsplit
          rw [hsplit] at hhead
          exact Lexeme.ofHead_of_append hhead
        rw [← hfront] at hending ⊢
        rw [scanAt_cons hhead']
        exact ⟨hending, (List.prefix_cons_inj _).2 htokens⟩

theorem scan_front {text front : String} {back : List Char} {last : Position}
    (htext : text.toList = front.toList ++ back) (hfinished : (scan text).ending = .finished last)
    (hboundary : TokenBoundary text front.length) :
    (scan front).ending = .finished (Position.first.after front.toList) ∧
      (scan front).tokens <+: (scan text).tokens := by
  rw [scan_eq] at hfinished
  have hstart : Between (placedAt .first 0 (lexemes text.toList)) (0 + front.toList.length) := by
    rw [Nat.zero_add, String.length_toList]
    exact hboundary
  rw [scan_eq, scan_eq]
  exact scanAt_front htext hfinished hstart

end TokenStream

end BinarySchema
