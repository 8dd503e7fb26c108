import BinarySchema.Proofs.Schema.Print
import BinarySchema.Proofs.Schema.Step

/-!
# Reading pieces

What a reader makes of tokens whose pieces are known, wherever these tokens stand. `Reads` is a statement
about a reader and the pieces that it takes; it composes along the readers, so that each reader of the
grammar is shown to take the pieces that its part of a schema is printed as, and to come to that part
again.

A reader of documentation also looks at the token behind its own, which must not be another comment.
-/

namespace BinarySchema

theorem Token.isPunctuation_iff {token : Token} {text : String} :
    token.isPunctuation text = true ↔ token.piece = .mark text := by
  simp [isPunctuation, piece, Piece.mark]

theorem Token.isOperator_iff {token : Token} {text : String} :
    token.isOperator text = true ↔ token.piece = .sign text := by
  simp [isOperator, piece, Piece.sign]

theorem Token.isWord_of_word {token : Token} {word : String} (h : token.piece = .word word)
    (text : String) : token.isWord text = decide (word = text) := by
  obtain ⟨hkind, htext⟩ := Piece.mk.inj h
  rw [isWord, hkind, htext]
  rfl

theorem Token.not_isPunctuation_of_word {token : Token} {word : String}
    (h : token.piece = .word word) (text : String) : ¬ token.isPunctuation text = true := by
  rw [isPunctuation_iff, h]
  exact fun hmark => absurd (congrArg Piece.kind hmark) nofun

theorem Piece.word_kind (text : String) : (word text).kind ≠ .comment := by simp [word]

theorem Piece.mark_kind (text : String) : (mark text).kind ≠ .comment := by simp [mark]

namespace Reader

variable {α β : Type} {follow : Cursor → Prop} {front back : List Piece} {piece : Piece}
  {p : α → Prop} {q : β → Prop}

def Anything (_ : Cursor) : Prop := True

/-- That no comment stands in front. -/
def Calm (cursor : Cursor) : Prop :=
  ∃ token, cursor.peekRaw = (.ok token, cursor) ∧ token.kind ≠ .comment

/-- That a reader takes pieces, in front of what may follow them, and comes to a result with a
property. -/
def Reads (follow : Cursor → Prop) (pieces : List Piece) (x : Reader α) (p : α → Prop) : Prop :=
  ∀ tokens : List Token, tokens.map Token.piece = pieces → ∀ rest : Cursor, follow rest →
    ∃ a, x ⟨tokens ++ rest.tokens, rest.ending⟩ = .ok (a, rest) ∧ p a

namespace Reads

theorem pure {a : α} (h : p a) : Reads follow [] (Pure.pure a) p := by
  intro tokens htokens rest _
  obtain rfl := List.map_eq_nil_iff.1 htokens
  exact ⟨a, rfl, h⟩

theorem bind {x : Reader α} {f : α → Reader β} (hx : Reads Anything front x p)
    (hf : ∀ a, p a → Reads follow back (f a) q) : Reads follow (front ++ back) (x >>= f) q := by
  intro tokens htokens rest hrest
  obtain ⟨first, second, rfl, hfirst, hsecond⟩ := List.map_eq_append_iff.1 htokens
  obtain ⟨a, hx, ha⟩ := hx first hfirst ⟨second ++ rest.tokens, rest.ending⟩ trivial
  obtain ⟨b, hf, hb⟩ := hf a ha second hsecond rest hrest
  refine ⟨b, bind_ok_iff.2 ⟨a, _, ?_, hf⟩, hb⟩
  rw [List.append_assoc]
  exact hx

theorem bind_nil {x : Reader α} {f : α → Reader β} (hx : Reads Anything [] x p)
    (hf : ∀ a, p a → Reads follow back (f a) q) : Reads follow back (x >>= f) q :=
  bind hx hf

theorem bind_cons {x : Reader α} {f : α → Reader β} (hx : Reads Anything [piece] x p)
    (hf : ∀ a, p a → Reads follow back (f a) q) : Reads follow (piece :: back) (x >>= f) q :=
  bind hx hf

theorem bind_last {x : Reader α} {f : α → Reader β} (hx : Reads Anything front x p)
    (hf : ∀ a, p a → Reads follow [] (f a) q) : Reads follow front (x >>= f) q := by
  have hbind := bind hx hf
  rwa [List.append_nil] at hbind

/-- What is made of a result takes no more pieces. -/
theorem bind_pure {x : Reader α} {g : α → β} (hx : Reads follow front x p)
    (hg : ∀ a, p a → q (g a)) : Reads follow front (x >>= fun a => Pure.pure (g a)) q := by
  intro tokens htokens rest hrest
  obtain ⟨a, hrun, ha⟩ := hx tokens htokens rest hrest
  exact ⟨g a, bind_ok_iff.2 ⟨a, rest, hrun, rfl⟩, hg a ha⟩

theorem bind_calm {x : Reader α} {f : α → Reader β} (hx : Reads Calm front x p)
    (hpiece : piece.kind ≠ .comment) (hf : ∀ a, p a → Reads follow (piece :: back) (f a) q) :
    Reads follow (front ++ piece :: back) (x >>= f) q := by
  intro tokens htokens rest hrest
  obtain ⟨first, second, rfl, hfirst, hsecond⟩ := List.map_eq_append_iff.1 htokens
  have hcalm : Calm ⟨second ++ rest.tokens, rest.ending⟩ := by
    obtain ⟨token, more, rfl, htoken, -⟩ := List.map_eq_cons_iff.1 hsecond
    refine ⟨token, rfl, ?_⟩
    rw [← htoken] at hpiece
    exact hpiece
  obtain ⟨a, hx, ha⟩ := hx first hfirst ⟨second ++ rest.tokens, rest.ending⟩ hcalm
  obtain ⟨b, hf, hb⟩ := hf a ha second hsecond rest hrest
  refine ⟨b, bind_ok_iff.2 ⟨a, _, ?_, hf⟩, hb⟩
  rw [List.append_assoc]
  exact hx

/-! ### Tokens -/

theorem next (hpiece : piece.kind ≠ .comment) :
    Reads Anything [piece] next (·.piece = piece) := by
  intro tokens htokens rest _
  obtain ⟨token, rfl, rfl⟩ := List.map_eq_singleton_iff.1 htokens
  refine ⟨token, ?_, rfl⟩
  have hkind : token.kind ≠ .comment := hpiece
  unfold Reader.next ofStep Cursor.next Cursor.skipComments
  simp only [List.cons_append, List.nil_append]
  rw [List.dropWhile_cons_of_neg (by simpa using hkind)]
  rfl

theorem next_bind {f : Token → Reader β} (hpiece : piece.kind ≠ .comment)
    (hf : ∀ token : Token, token.piece = piece → Reads follow back (f token) q) :
    Reads follow (piece :: back) (Reader.next >>= f) q :=
  bind (next hpiece) hf

theorem peek_bind {f : Token → Reader β} (hpiece : piece.kind ≠ .comment)
    (hf : ∀ token : Token, token.piece = piece → Reads follow (piece :: back) (f token) q) :
    Reads follow (piece :: back) (peek >>= f) q := by
  intro tokens htokens rest hrest
  obtain ⟨token, more, rfl, htoken, hmore⟩ := List.map_eq_cons_iff.1 htokens
  obtain ⟨b, hrun, hb⟩ := hf token htoken _ htokens rest hrest
  refine ⟨b, bind_ok_iff.2 ⟨token, _, ?_, hrun⟩, hb⟩
  have hkind : token.kind ≠ .comment := by
    rw [← htoken] at hpiece
    exact hpiece
  unfold Reader.peek ofStep Cursor.peek Cursor.skipComments
  simp only [List.cons_append]
  rw [List.dropWhile_cons_of_neg (by simpa using hkind)]
  rfl

/-- There are at least as many tokens left as a reader takes. -/
theorem remaining_bind {f : Nat → Reader β}
    (hf : ∀ count, front.length ≤ count → Reads follow front (f count) q) :
    Reads follow front (remaining >>= f) q := by
  intro tokens htokens rest hrest
  have hcount : front.length ≤ (tokens ++ rest.tokens).length := by
    rw [← htokens, List.length_map, List.length_append]
    omega
  obtain ⟨b, hrun, hb⟩ := hf _ hcount tokens htokens rest hrest
  exact ⟨b, bind_ok_iff.2 ⟨_, _, rfl, hrun⟩, hb⟩

theorem expectPunctuation (text : String) :
    Reads Anything [.mark text] (expectPunctuation text) (·.piece = .mark text) := by
  unfold Reader.expectPunctuation
  refine next_bind nofun fun token htoken => ?_
  rw [if_pos (Token.isPunctuation_iff.2 htoken)]
  exact pure htoken

/-- An identifier is not refused as a name. -/
theorem isPlainName {text : String} (h : Lexeme.isIdentifier text.toList = true) {token : Token}
    (htoken : token.piece = .word text) : ¬ (!isPlainName token) = true := by
  obtain ⟨hkind, rfl⟩ := Piece.mk.inj htoken
  rw [Reader.isPlainName, hkind, h]
  decide

theorem expectName {text : String} (h : Lexeme.isIdentifier text.toList = true) (what : String) :
    Reads Anything [.word text] (expectName what) (·.piece = .word text) := by
  unfold Reader.expectName
  refine next_bind nofun fun token htoken => ?_
  rw [if_pos (by simpa using isPlainName h htoken)]
  exact pure htoken

theorem numberValue {n : Nat} {token : Token} (htoken : token.piece = .number n) :
    numberValue token = Pure.pure n := by
  obtain ⟨-, htext⟩ := Piece.mk.inj htoken
  rw [Reader.numberValue, htext, String.toList_ofList, Number.readNumeral_hexNumeral]
  rfl

theorem expectNumber (n : Nat) : Reads Anything [.number n] expectNumber (· = n) := by
  unfold Reader.expectNumber
  refine next_bind nofun fun token htoken => ?_
  rw [if_pos (Piece.mk.inj htoken).1, numberValue htoken]
  exact pure rfl

/-! ### Documentation -/

theorem commentText_remark {comment : String} (h : IsRemark comment) {token : Token}
    (htoken : token.piece = .remark comment) : token.commentText = comment := by
  obtain ⟨-, htext⟩ := Piece.mk.inj htoken
  have hchars : token.text.toList = '/' :: '/' :: ' ' :: comment.toList := by
    rw [htext, String.toList_append]
    rfl
  have hstrip : Text.strip (' ' :: comment.toList) = Text.strip comment.toList := by
    rw [Text.strip, List.dropWhile_cons_of_pos (by decide)]
    rfl
  rw [Token.commentText, hchars]
  change String.ofList (Text.strip (' ' :: comment.toList)) = comment
  rw [hstrip, h.1, String.ofList_toList]

theorem documentation {comment : Option String} (h : ∀ text ∈ comment, IsRemark text) :
    Reads Calm (remarks comment) documentation (· = comment) := by
  intro tokens htokens rest hrest
  cases comment with
  | none =>
    obtain rfl := List.map_eq_nil_iff.1 htokens
    obtain ⟨token, hpeek, hkind⟩ := hrest
    refine ⟨none, ?_, rfl⟩
    have hstep : peekRaw rest = .ok (token, rest) := by
      rw [Reader.peekRaw, ofStep, hpeek]
    refine bind_ok_iff.2 ⟨token, rest, hstep, ?_⟩
    rw [if_neg hkind]
    rfl
  | some text =>
    obtain ⟨token, rfl, htoken⟩ := List.map_eq_singleton_iff.1 htokens
    have hkind : token.kind = .comment := (Piece.mk.inj htoken).1
    refine ⟨some text, bind_ok_iff.2 ⟨token, _, rfl, ?_⟩, rfl⟩
    rw [if_pos hkind]
    refine bind_ok_iff.2 ⟨token, rest, rfl, ?_⟩
    rw [commentText_remark (h text rfl) htoken]
    rfl

end Reads

end Reader

end BinarySchema
