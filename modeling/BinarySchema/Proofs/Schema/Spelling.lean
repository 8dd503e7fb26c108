import BinarySchema.Proofs.Schema.Along

/-!
# What stands in front of a cursor

A reader that takes its tokens one by one gives a result for just the pieces that it accepts, wherever there
are comments among them. `Spells` says that pieces stand in front of a cursor, and of which cursor behind
them. The steps of a declaration are told by it in both directions: which pieces a step has read if it gives
a result, and that it gives one if they stand there.

A number is read by its text, so whether it can be read depends on the tokens as well. Those of a source are
numerals wherever they are numbers.
-/

namespace BinarySchema

open Outline (solid)

def Token.IsNumeral (token : Token) : Prop :=
  token.kind = .number → Number.IsNumeral token.text.toList

theorem Cursor.holds_isNumeral {c : Cursor} {text : String}
    (h : c.tokens <:+ (TokenStream.scan text).tokens) : c.Holds Token.IsNumeral c.ending where
  tokens token htoken := TokenStream.isNumeral_scan text token (h.subset htoken)
  ending := rfl

namespace Reader

variable {c d e : Cursor} {token : Token} {piece : Piece} {rest : List Piece} {ending : Ending}

/-! ### Pieces in front of a cursor -/

/-- That pieces stand in front of a cursor, each behind comments, and another cursor behind them. -/
inductive Spells : Cursor → List Piece → Cursor → Prop
  | nil (c : Cursor) : Spells c [] c
  | cons {comments tokens : List Token} {token : Token} {ending : Ending} {rest : List Piece} {d : Cursor}
      (hcomments : Remarks comments) (htoken : token.kind ≠ .comment)
      (hrest : Spells ⟨tokens, ending⟩ rest d) :
      Spells ⟨comments ++ token :: tokens, ending⟩ (token.piece :: rest) d

namespace Spells

theorem of_next (h : next c = .ok (token, e)) (hpiece : token.piece = piece)
    (hkind : piece.kind ≠ .endOfInput) (hrest : Spells e rest d) : Spells c (piece :: rest) d := by
  subst hpiece
  obtain ⟨htoken, comments, hcomments, rfl⟩ := next_ok h hkind
  exact .cons hcomments htoken hrest

theorem of_number (h : next c = .ok (token, d)) (hkind : token.kind = .number) :
    Spells c [⟨.number, token.text⟩] d :=
  .of_next h (by rw [Token.piece, hkind]) (by simp) (.nil d)

theorem exists_next (h : Spells c (piece :: rest) d) :
    ∃ token e, token.piece = piece ∧ next c = .ok (token, e) ∧ Spells e rest d := by
  cases h with
  | cons hcomments htoken hrest => exact ⟨_, _, rfl, next_token hcomments htoken, hrest⟩

theorem eq_of_nil (h : Spells c [] d) : c = d := by
  cases h
  rfl

theorem append {left right : List Piece} (hleft : Spells c left e) (hright : Spells e right d) :
    Spells c (left ++ right) d := by
  induction hleft with
  | nil => exact hright
  | cons hcomments htoken _ ih => exact .cons hcomments htoken (ih hright)

theorem split {left right : List Piece} (h : Spells c (left ++ right) d) :
    ∃ e, Spells c left e ∧ Spells e right d := by
  induction left generalizing c with
  | nil => exact ⟨c, .nil c, h⟩
  | cons piece left ih =>
    cases h with
    | cons hcomments htoken hrest =>
      obtain ⟨e, hleft, hright⟩ := ih hrest
      exact ⟨e, .cons hcomments htoken hleft, hright⟩

theorem exists_used {pieces : List Piece} (h : Spells c pieces d) :
    ∃ used, c = ⟨used ++ d.tokens, d.ending⟩ ∧ solid Token.solid? used = pieces := by
  induction h with
  | nil c => exact ⟨[], rfl, rfl⟩
  | cons hcomments htoken _ ih =>
    rename_i comments tokens token ending rest d _
    obtain ⟨used, hused, rfl⟩ := ih
    obtain ⟨rfl, rfl⟩ := TokenStream.mk.inj hused
    refine ⟨comments ++ token :: used, by simp, ?_⟩
    rw [Outline.solid_append, Outline.solid_remarks hcomments, Outline.solid_cons htoken]
    rfl

theorem solid_tokens {pieces : List Piece} (h : Spells c pieces d) :
    solid Token.solid? c.tokens = pieces ++ solid Token.solid? d.tokens := by
  obtain ⟨used, rfl, rfl⟩ := h.exists_used
  exact Outline.solid_append _ _

theorem holds {pieces : List Piece} {source : Token → Prop} (h : Spells c pieces d)
    (hc : c.Holds source ending) : d.Holds source ending := by
  obtain ⟨used, rfl, -⟩ := h.exists_used
  exact ⟨fun token htoken => hc.tokens token (List.mem_append_right _ htoken), hc.ending⟩

theorem length_le {pieces : List Piece} (h : Spells c pieces d) : pieces.length ≤ c.tokens.length := by
  obtain ⟨used, rfl, rfl⟩ := h.exists_used
  rw [List.length_append]
  exact Nat.le_add_right_of_le (List.length_filterMap_le _ _)

theorem of_solid {front behind : List Piece} {tokens : List Token}
    (h : solid Token.solid? tokens = front ++ behind) (ending : Ending) :
    ∃ d, Spells ⟨tokens, ending⟩ front d := by
  induction front generalizing tokens with
  | nil => exact ⟨_, .nil _⟩
  | cons piece front ih =>
    obtain ⟨comments, hcomments, rfl | ⟨token, rest, htoken, rfl⟩⟩ := Cursor.exists_remarks tokens
    · rw [Outline.solid_remarks hcomments] at h
      cases h
    rw [Outline.solid_append, Outline.solid_remarks hcomments, Outline.solid_cons htoken] at h
    obtain ⟨rfl, hrest⟩ := List.cons.inj h
    obtain ⟨d, hfront⟩ := ih hrest
    exact ⟨d, .cons hcomments htoken hfront⟩

end Spells

/-! ### Steps -/

theorem expectPunctuation_ok_iff {text : String} : expectPunctuation text c = .ok (token, d) ↔
    next c = .ok (token, d) ∧ token.piece = .mark text := by
  unfold expectPunctuation
  rw [bind_ok_iff]
  constructor
  · rintro ⟨read, e, hnext, h⟩
    by_cases hmark : read.isPunctuation text = true
    · rw [if_pos hmark] at h
      obtain ⟨rfl, rfl⟩ := pure_ok_iff.1 h
      exact ⟨hnext, Token.isPunctuation_iff.1 hmark⟩
    · rw [if_neg hmark] at h
      exact (throw_ok_iff.1 h).elim
  · rintro ⟨hnext, hpiece⟩
    refine ⟨token, d, hnext, ?_⟩
    rw [if_pos (Token.isPunctuation_iff.2 hpiece)]
    rfl

theorem baseType_ok_iff {base : Primitive} : baseType c = .ok (base, d) ↔
    ∃ token word, next c = .ok (token, d) ∧ token.piece = .word word ∧
      Primitive.ofWord? word = some base := by
  unfold baseType
  rw [bind_ok_iff]
  constructor
  · rintro ⟨token, e, hnext, h⟩
    cases hword : Primitive.ofWord? token.text with
    | none =>
      rw [hword] at h
      cases hkind : token.kind <;> rw [hkind] at h <;> exact (throw_ok_iff.1 h).elim
    | some primitive =>
      rw [hword] at h
      cases hkind : token.kind <;> rw [hkind] at h
      case word =>
        obtain ⟨rfl, rfl⟩ := pure_ok_iff.1 h
        exact ⟨token, token.text, hnext, Token.piece_of_word hkind, hword⟩
      all_goals exact (throw_ok_iff.1 h).elim
  · rintro ⟨token, word, hnext, hpiece, hword⟩
    obtain ⟨hkind, rfl⟩ := Piece.mk.inj hpiece
    refine ⟨token, d, hnext, ?_⟩
    rw [hkind, hword]
    rfl

theorem numberValue_ok_iff {n : Nat} (hkind : token.kind = .number) (hnumeral : token.IsNumeral) :
    numberValue token c = .ok (n, d) ↔
      Number.IsReadable token.text.toList ∧ n = Number.numeralValue token.text.toList ∧ d = c := by
  have hread := Number.readNumeral_of_isNumeral (hnumeral hkind)
  unfold numberValue
  by_cases hreadable : Number.IsReadable token.text.toList
  · rw [hread, if_pos hreadable]
    dsimp only
    rw [Int.toNat_natCast, pure_ok_iff]
    exact ⟨fun ⟨hn, hd⟩ => ⟨hreadable, hn.symm, hd.symm⟩, fun ⟨_, hn, hd⟩ => ⟨hn.symm, hd.symm⟩⟩
  · rw [hread, if_neg hreadable]
    dsimp only
    exact ⟨fun h => (throw_ok_iff.1 h).elim, fun h => absurd h.1 hreadable⟩

theorem isNumeral_of_next (hc : c.Holds Token.IsNumeral ending) (hnext : next c = .ok (token, e)) :
    token.IsNumeral := by
  intro hkind
  rcases (Draws.next.of_ok hc hnext).2 with hend | hnumeral
  · rw [hkind] at hend
    cases hend
  · exact hnumeral hkind

theorem expectNumber_ok_iff {n : Nat} (hc : c.Holds Token.IsNumeral ending) :
    expectNumber c = .ok (n, d) ↔ ∃ token, next c = .ok (token, d) ∧ token.kind = .number ∧
      Number.IsReadable token.text.toList ∧ n = Number.numeralValue token.text.toList := by
  unfold expectNumber
  rw [bind_ok_iff]
  constructor
  · rintro ⟨token, e, hnext, h⟩
    by_cases hkind : token.kind = .number
    · rw [if_pos hkind] at h
      obtain ⟨hreadable, rfl, rfl⟩ := (numberValue_ok_iff hkind (isNumeral_of_next hc hnext)).1 h
      exact ⟨token, hnext, hkind, hreadable, rfl⟩
    · rw [if_neg hkind] at h
      exact (throw_ok_iff.1 h).elim
  · rintro ⟨token, hnext, hkind, hreadable, rfl⟩
    refine ⟨token, d, hnext, ?_⟩
    rw [if_pos hkind]
    exact (numberValue_ok_iff hkind (isNumeral_of_next hc hnext)).2 ⟨hreadable, rfl, rfl⟩

end Reader

end BinarySchema
