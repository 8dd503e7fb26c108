import BinarySchema.Proofs.Definition.View
import BinarySchema.Proofs.Except
import BinarySchema.Proofs.Schema.Declarations
import BinarySchema.Proofs.Token.Cursor
import BinarySchema.Proofs.Token.Outline

/-!
# What readers take

A reader that comes to a result has taken the tokens in front of what it leaves. It goes by their pieces
alone: where the same pieces stand in front of something else, it comes to the same result up to places
and leaves that. `Takes` says so, together with what is known about the pieces, and composes along the
readers of the grammar.

Two readers look at the token behind the one they take, or at the one that they leave: those are loose,
and need the same piece behind what they take.
-/

namespace BinarySchema

/-! ### Shapes -/

namespace Outline

/-- That pieces open and close their braces among themselves, inside of others. -/
def Level (pieces : List Piece) : Prop :=
  ∀ depth, depth? some (depth + 1) pieces = some (depth + 1)

def Closing (pieces : List Piece) : Prop :=
  ∃ front, pieces = front ++ [.mark "\x7d"] ∧ Level front

def IsBrace (piece : Piece) : Prop :=
  piece = .mark "\x7b" ∨ piece = .mark "\x7d"

/-- Whether a piece ends or opens something: a brace or a semicolon. -/
def IsStop (piece : Piece) : Prop :=
  piece = .mark ";" ∨ IsBrace piece

theorem not_isStop_of_kind {piece : Piece} (h : piece.kind ≠ .punctuation) : ¬ IsStop piece := by
  rintro (rfl | rfl | rfl) <;> exact h rfl

theorem not_isStop_of_mark {text : String} (h : text ∈ ["(", ")", "[", "]", ",", ":"]) :
    ¬ IsStop (.mark text) := by
  simp only [List.mem_cons, List.not_mem_nil, or_false] at h
  rcases h with rfl | rfl | rfl | rfl | rfl | rfl <;> unfold IsStop IsBrace <;> decide

theorem Level.nil : Level [] := fun _ => rfl

theorem Level.append {left right : List Piece} (hleft : Level left) (hright : Level right) :
    Level (left ++ right) := by
  intro depth
  rw [depth?_append (hleft depth)]
  exact hright depth

theorem Level.cons {piece : Piece} {rest : List Piece} (hpiece : ¬ IsBrace piece)
    (hrest : Level rest) : Level (piece :: rest) := by
  intro depth
  unfold IsBrace at hpiece
  rw [not_or] at hpiece
  have hdeepen : Piece.deepen (depth + 1) piece = some (depth + 1) := by
    rw [Piece.deepen, if_neg hpiece.1, if_neg hpiece.2, if_neg (by simp)]
  rw [depth?, deepen]
  dsimp only
  rw [hdeepen]
  exact hrest depth

/-- That pieces are neither braces nor semicolons. -/
def Inline (pieces : List Piece) : Prop :=
  ∀ piece ∈ pieces, ¬ IsStop piece

theorem Inline.nil : Inline [] :=
  List.forall_mem_nil _

theorem Inline.cons {piece : Piece} {rest : List Piece} (hpiece : ¬ IsStop piece)
    (hrest : Inline rest) : Inline (piece :: rest) :=
  List.forall_mem_cons.2 ⟨hpiece, hrest⟩

theorem Inline.append {left right : List Piece} (hleft : Inline left) (hright : Inline right) :
    Inline (left ++ right) :=
  List.forall_mem_append.2 ⟨hleft, hright⟩

theorem Inline.level {pieces : List Piece} (h : Inline pieces) : Level pieces := by
  induction pieces with
  | nil => exact .nil
  | cons piece rest ih =>
    obtain ⟨hpiece, hrest⟩ := List.forall_mem_cons.1 h
    exact Level.cons (fun hbrace => hpiece (.inr hbrace)) (ih hrest)

/-- Pieces through the first brace or semicolon among them. -/
def EndsAt (stop : Piece) (pieces : List Piece) : Prop :=
  ∃ front, pieces = front ++ [stop] ∧ Inline front

theorem EndsAt.single (stop : Piece) : EndsAt stop [stop] := ⟨[], rfl, .nil⟩

theorem EndsAt.append {stop : Piece} {left right : List Piece} (hleft : Inline left)
    (hright : EndsAt stop right) : EndsAt stop (left ++ right) := by
  obtain ⟨front, rfl, hfront⟩ := hright
  exact ⟨left ++ front, by rw [List.append_assoc], hleft.append hfront⟩

theorem EndsAt.cons {stop piece : Piece} {rest : List Piece} (hpiece : ¬ IsStop piece)
    (hrest : EndsAt stop rest) : EndsAt stop (piece :: rest) :=
  EndsAt.append (Inline.nil.cons hpiece) hrest

/-- A semicolon keeps what is in front of it level. -/
theorem EndsAt.level {pieces : List Piece} (h : EndsAt (.mark ";") pieces) : Level pieces := by
  obtain ⟨front, rfl, hfront⟩ := h
  refine hfront.level.append (Level.nil.cons ?_)
  unfold IsBrace
  decide

theorem EndsAt.closing {pieces : List Piece} (h : EndsAt (.mark "\x7d") pieces) : Closing pieces := by
  obtain ⟨front, rfl, hfront⟩ := h
  exact ⟨front, rfl, hfront.level⟩

theorem Closing.closer : Closing [.mark "\x7d"] := ⟨[], rfl, .nil⟩

theorem Closing.append {left right : List Piece} (hleft : Level left) (hright : Closing right) :
    Closing (left ++ right) := by
  obtain ⟨front, rfl, hfront⟩ := hright
  exact ⟨left ++ front, by rw [List.append_assoc], hleft.append hfront⟩

theorem Closing.cons {piece : Piece} {rest : List Piece} (hpiece : ¬ IsStop piece)
    (hrest : Closing rest) : Closing (piece :: rest) :=
  Closing.append (Inline.nil.cons hpiece).level hrest

/-- What stands in braces is level with them. -/
theorem Closing.level {pieces : List Piece} (h : Closing pieces) :
    Level (.mark "\x7b" :: pieces) := by
  obtain ⟨front, rfl, hfront⟩ := h
  intro depth
  have hopen : depth? some (depth + 1) (.mark "\x7b" :: front) = some (depth + 2) :=
    hfront (depth + 1)
  rw [← List.cons_append, depth?_append hopen]
  rfl

theorem Closing.ne_nil {pieces : List Piece} (h : Closing pieces) : pieces ≠ [] := by
  obtain ⟨front, rfl, -⟩ := h
  simp

def Braced (pieces : List Piece) : Prop :=
  ∃ head body, pieces = head ++ .mark "\x7b" :: body ∧ depth? some 0 head = some 0 ∧ Closing body

theorem Closing.braced {pieces : List Piece} (h : Closing pieces) :
    Braced (.mark "\x7b" :: pieces) :=
  ⟨[], pieces, rfl, rfl, h⟩

theorem Braced.cons {piece : Piece} {rest : List Piece} (hpiece : piece.deepen 0 = some 0)
    (h : Braced rest) : Braced (piece :: rest) := by
  obtain ⟨head, body, rfl, hhead, hbody⟩ := h
  refine ⟨piece :: head, body, rfl, ?_, hbody⟩
  rw [depth?, deepen]
  dsimp only
  rw [hpiece]
  exact hhead

theorem Braced.word {text : String} {rest : List Piece} (h : Braced rest) :
    Braced (.word text :: rest) :=
  h.cons (Piece.deepen_of_kind (show TokenKind.word ≠ .punctuation by decide) 0)

/-- A declaration with braces ends with the one that closes them. -/
theorem Braced.closes {pieces : List Piece} (h : Braced pieces) : Closes some 0 pieces := by
  obtain ⟨head, body, rfl, hhead, front, rfl, hfront⟩ := h
  have hopen : depth? some 0 (.mark "\x7b" :: front) = some 1 := hfront 0
  refine closes_append hhead ?_
  rw [← List.cons_append]
  exact closes_append hopen rfl

end Outline

def EndsSolid (tokens : List Token) : Prop :=
  ∀ token ∈ tokens.getLast?, token.kind ≠ .comment

theorem EndsSolid.cons {token : Token} {rest : List Token} (htoken : token.kind ≠ .comment)
    (hrest : EndsSolid rest) : EndsSolid (token :: rest) := by
  intro last hlast
  rw [List.getLast?_cons] at hlast
  cases hbehind : rest.getLast? with
  | none =>
    rw [hbehind] at hlast
    cases hlast
    exact htoken
  | some behind =>
    rw [hbehind] at hlast
    cases hlast
    exact hrest _ hbehind

theorem EndsSolid.append {left right : List Token} (hleft : right = [] → EndsSolid left)
    (hright : EndsSolid right) : EndsSolid (left ++ right) := by
  intro last hlast
  rw [List.getLast?_append] at hlast
  cases hbehind : right.getLast? with
  | none =>
    rw [hbehind] at hlast
    exact hleft (List.getLast?_eq_none_iff.1 hbehind) last hlast
  | some behind =>
    rw [hbehind] at hlast
    cases hlast
    exact hright _ hbehind

/-- Tokens with the same piece differ in their places only. -/
theorem Token.eq_of_piece {token other : Token} (h : other.piece = token.piece) :
    other = { token with pos := other.pos } := by
  obtain ⟨kind, text, pos⟩ := other
  obtain ⟨rfl, rfl⟩ := Piece.mk.inj h
  rfl

theorem Remarks.of_pieces {comments others : List Token} (h : Remarks comments)
    (hothers : others.map Token.piece = comments.map Token.piece) : Remarks others := by
  intro token htoken
  have hpiece : token.piece ∈ comments.map Token.piece := hothers ▸ List.mem_map_of_mem htoken
  obtain ⟨comment, hcomment, heq⟩ := List.mem_map.1 hpiece
  rw [← h comment hcomment]
  exact (Piece.mk.inj heq).1.symm

theorem Outline.solid_cons {token : Token} (h : token.kind ≠ .comment) (rest : List Token) :
    solid Token.solid? (token :: rest) = token.piece :: solid Token.solid? rest :=
  List.filterMap_cons_some (Token.solid?_of_ne h)

theorem Outline.solid_remarks {comments : List Token} (h : Remarks comments) :
    solid Token.solid? comments = [] := by
  refine List.filterMap_eq_nil_iff.2 fun token htoken => ?_
  rw [Token.solid?, if_pos (h token htoken)]

/-- Tokens end a declaration where their pieces do. -/
theorem Outline.closes_of_solid {tokens : List Token} {depth : Nat}
    (h : Closes some depth (solid Token.solid? tokens)) (hends : EndsSolid tokens) :
    Closes Token.solid? depth tokens := by
  induction tokens generalizing depth with
  | nil => exact h
  | cons token rest ih =>
    have hrest : EndsSolid rest := by
      intro last hlast
      refine hends last ?_
      rw [List.getLast?_cons]
      rw [Option.mem_def] at hlast ⊢
      rw [hlast]
      rfl
    by_cases hkind : token.kind = .comment
    · have hnone : token.solid? = none := if_pos hkind
      rw [solid, List.filterMap_cons_none hnone] at h
      rw [Closes, deepen, hnone]
      exact ih h hrest
    · rw [solid_cons hkind] at h
      rw [Closes, deepen, Token.solid?_of_ne hkind]
      unfold Closes deepen at h
      dsimp only at h ⊢
      cases hdeepen : token.piece.deepen depth with
      | some next =>
        rw [hdeepen] at h
        exact ih h hrest
      | none =>
        rw [hdeepen] at h
        dsimp only at h ⊢
        cases hlast : rest.getLast? with
        | none => exact List.getLast?_eq_none_iff.1 hlast
        | some last =>
          have hsolid := Token.solid?_of_ne (hrest last hlast)
          have hnone := List.filterMap_eq_nil_iff.1 h last (List.mem_of_getLast? hlast)
          rw [hsolid] at hnone
          cases hnone

namespace Reader

variable {α β κ ι : Type}

/-! ### Rules -/

/-- That the same piece stands in front of two cursors. -/
def SameHead (c d : Cursor) : Prop :=
  ∃ token other, token ∈ c.tokens.head? ∧ other ∈ d.tokens.head? ∧ token.piece = other.piece

/-- A token that is no comment has one in front of the other cursor. -/
theorem SameHead.exists_cons {token : Token} {tokens : List Token} {ending : Ending} {d : Cursor}
    (h : SameHead ⟨token :: tokens, ending⟩ d) (htoken : token.kind ≠ .comment) :
    ∃ other more, d = ⟨other :: more, d.ending⟩ ∧ token.piece = other.piece ∧
      other.kind ≠ .comment := by
  obtain ⟨_, other, ⟨⟩, hother, hpiece⟩ := h
  obtain ⟨more, hmore⟩ := List.head?_eq_some_iff.1 hother
  refine ⟨other, more, congrArg (TokenStream.mk · d.ending) hmore, hpiece, ?_⟩
  rw [← show token.kind = other.kind from (Piece.mk.inj hpiece).1]
  exact htoken

/-- What a reader takes if it comes to a result: tokens whose pieces have a shape. In the place of
these tokens there may be others with the same pieces, and other tokens behind them; then the reader
with enough steps comes to a result with the same key. -/
def Takes (loose : Bool) (shape : α → List Piece → Prop) (key : α → κ) (x : Reader α)
    (y : Nat → Reader α) : Prop :=
  ∀ c a d, x c = .ok (a, d) → ∃ used, c = ⟨used ++ d.tokens, d.ending⟩ ∧
    shape a (Outline.solid Token.solid? used) ∧ (loose = false → EndsSolid used) ∧
      ∀ (steps : Nat) (others : List Token) (rest : Cursor),
        others.map Token.piece = used.map Token.piece → used.length ≤ steps →
          (loose = true → SameHead d rest) →
            ∃ b, y steps ⟨others ++ rest.tokens, rest.ending⟩ = .ok (b, rest) ∧ key a = key b

namespace Takes

variable {loose : Bool} {shape : α → List Piece → Prop} {key : α → κ}

theorem suffix {x : Reader α} {y : Nat → Reader α} {c d : Cursor} {a : α}
    (hx : Takes loose shape key x y) (h : x c = .ok (a, d)) : d.tokens <:+ c.tokens := by
  obtain ⟨used, rfl, -⟩ := hx c a d h
  exact List.suffix_append _ _

theorem pure {a b : α} (hshape : shape a []) (h : key a = key b) :
    Takes loose shape key (Pure.pure a) fun _ => Pure.pure b := by
  intro c a d hrun
  obtain ⟨rfl, rfl⟩ := pure_ok_iff.1 hrun
  refine ⟨[], rfl, hshape, fun _ => nofun, fun steps others rest hothers _ _ => ⟨b, ?_, h⟩⟩
  obtain rfl := List.map_eq_nil_iff.1 hothers
  rfl

theorem throw (e : CompileError) (y : Nat → Reader α) :
    Takes loose shape key (MonadExcept.throw e) y :=
  fun _ _ _ hrun => (throw_ok_iff.1 hrun).elim

theorem throw_bind (e : CompileError) (f : β → Reader α) (y : Nat → Reader α) :
    Takes loose shape key (MonadExcept.throw e >>= f) y := by
  intro c a d hrun
  obtain ⟨_, _, hthrow, -⟩ := bind_ok_iff.1 hrun
  exact (throw_ok_iff.1 hthrow).elim

theorem unexpectedEnd (expected : String) (y : Nat → Reader α) :
    Takes loose shape key (unexpectedEnd expected) y :=
  fun _ _ _ hrun => (unexpectedEnd_ok_iff.1 hrun).elim

theorem ite {c : Prop} [Decidable c] {x x' : Reader α} {y y' : Nat → Reader α}
    (hx : c → Takes loose shape key x y) (hx' : ¬ c → Takes loose shape key x' y') :
    Takes loose shape key (if c then x else x') fun n => if c then y n else y' n := by
  by_cases h : c
  · simp only [if_pos h]
    exact hx h
  · simp only [if_neg h]
    exact hx' h

theorem shaped {shape' : α → List Piece → Prop} {x : Reader α} {y : Nat → Reader α}
    (hx : Takes loose shape key x y) (h : ∀ a pieces, shape a pieces → shape' a pieces) :
    Takes loose shape' key x y := by
  intro c a d hrun
  obtain ⟨used, hc, hshape, hrest⟩ := hx c a d hrun
  exact ⟨used, hc, h a _ hshape, hrest⟩

/-- More steps are as good. -/
theorem more {x : Reader α} {y : Nat → Reader α} (hx : Takes loose shape key x y) :
    Takes loose shape key x fun n => y (n + 1) := by
  intro c a d hrun
  obtain ⟨used, hc, hshape, hends, hrest⟩ := hx c a d hrun
  refine ⟨used, hc, hshape, hends, fun steps others rest hothers hsteps hfollow => ?_⟩
  exact hrest (steps + 1) others rest hothers (Nat.le_succ_of_le hsteps) hfollow

section

variable {front : α → List Piece → Prop} {back : α → β → List Piece → Prop}
  {whole : β → List Piece → Prop} {behind : β → ι} {x : Reader α} {f : α → Reader β}
  {y : Nat → Reader α} {g : α → Nat → Reader β} {z : Nat → Reader β}

/-- The token that a loose reader looks at is taken by the reader behind it. -/
theorem bind_edge {edge : Bool} (hx : Takes edge front key x y)
    (hf : ∀ a b, key a = key b → Takes loose (back a) behind (f a) (g b))
    (hedge : edge = true → ∀ a b pieces, back a b pieces → pieces ≠ [])
    (hwhole : ∀ a b left right, front a left → back a b right → whole b (left ++ right)) :
    Takes loose whole behind (x >>= f) fun n => y n >>= fun b => g b n := by
  intro c b d hrun
  obtain ⟨a, between, hfirst, hsecond⟩ := bind_ok_iff.1 hrun
  obtain ⟨left, rfl, hleft, hleftEnds, hx⟩ := hx c a between hfirst
  obtain ⟨right, hbetween, hright, hrightEnds, -⟩ := hf a a rfl between b d hsecond
  have htokens : between.tokens = right ++ d.tokens := by rw [hbetween]
  have hending : between.ending = d.ending := by rw [hbetween]
  refine ⟨left ++ right, ?_, ?_, ?_, ?_⟩
  · rw [htokens, hending, List.append_assoc]
  · rw [Outline.solid_append]
    exact hwhole a b _ _ hleft hright
  · intro hfirm
    refine .append (fun hnil => hleftEnds ?_) (hrightEnds hfirm)
    rw [hnil] at hright
    cases edge with
    | false => rfl
    | true => exact absurd rfl (hedge rfl a b _ hright)
  · intro steps others rest hothers hsteps hfollow
    rw [List.map_append, List.map_eq_append_iff] at hothers
    obtain ⟨first, second, rfl, hfirsts, hseconds⟩ := hothers
    rw [List.length_append] at hsteps
    have hhead : edge = true → SameHead between ⟨second ++ rest.tokens, rest.ending⟩ := by
      intro hedged
      have hne : right ≠ [] := by
        rintro rfl
        exact hedge hedged a b _ hright rfl
      obtain ⟨token, more, rfl⟩ := List.exists_cons_of_ne_nil hne
      obtain ⟨other, others, rfl, hother, -⟩ := List.map_eq_cons_iff.1 hseconds
      refine ⟨token, other, ?_, rfl, hother.symm⟩
      rw [htokens]
      rfl
    obtain ⟨a', hrun', hkey⟩ := hx steps first ⟨second ++ rest.tokens, rest.ending⟩ hfirsts
      (by omega) hhead
    obtain ⟨right', hbetween', -, -, hf⟩ := hf a a' hkey between b d hsecond
    have hsame : right' = right := by
      rw [hbetween'] at htokens
      exact List.append_cancel_right htokens
    subst hsame
    obtain ⟨b', hrun'', hbehind⟩ := hf steps second rest hseconds (by omega) hfollow
    refine ⟨b', bind_ok_iff.2 ⟨a', _, ?_, hrun''⟩, hbehind⟩
    rw [List.append_assoc]
    exact hrun'

theorem bind (hx : Takes false front key x y)
    (hf : ∀ a b, key a = key b →
      Takes loose (fun b right => ∀ left, front a left → whole b (left ++ right)) behind (f a) (g b)) :
    Takes loose whole behind (x >>= f) fun n => y n >>= fun b => g b n :=
  bind_edge hx hf nofun fun _ _ left _ hleft hright => hright left hleft

/-- A shape that does not change with pieces of another shape in front. -/
def Absorbs (ahead : List Piece → Prop) (whole : β → List Piece → Prop) : Prop :=
  ∀ b left right, ahead left → whole b right → whole b (left ++ right)

variable {ahead : List Piece → Prop}

theorem bind_absorbed (hwhole : Absorbs ahead whole) (hx : Takes false (fun _ => ahead) key x y)
    (hf : ∀ a b, key a = key b → Takes loose whole behind (f a) (g b)) :
    Takes loose whole behind (x >>= f) fun n => y n >>= fun b => g b n :=
  bind_edge hx hf nofun fun _ b left right => hwhole b left right

theorem bind_loose (hwhole : Absorbs ahead whole) (hne : ∀ b, ¬ whole b [])
    (hx : Takes true (fun _ => ahead) key x y)
    (hf : ∀ a b, key a = key b → Takes loose whole behind (f a) (g b)) :
    Takes loose whole behind (x >>= f) fun n => y n >>= fun b => g b n := by
  refine bind_edge hx hf (fun _ a b pieces hpieces hnil => ?_) fun _ b left right => hwhole b left right
  rw [hnil] at hpieces
  exact hne b hpieces

/-- What is made of a result takes no more. -/
theorem bind_pure {r s : α → β} (hx : Takes loose front key x y)
    (hs : ∀ a b, key a = key b → behind (r a) = behind (s b))
    (hwhole : ∀ a pieces, front a pieces → whole (r a) pieces) :
    Takes loose whole behind (x >>= fun a => Pure.pure (r a))
      fun n => y n >>= fun b => Pure.pure (s b) := by
  intro c b d hrun
  obtain ⟨a, between, hfirst, hsecond⟩ := bind_ok_iff.1 hrun
  obtain ⟨rfl, rfl⟩ := pure_ok_iff.1 hsecond
  obtain ⟨used, hc, hshape, hends, hx⟩ := hx c a between hfirst
  refine ⟨used, hc, hwhole a _ hshape, hends, fun steps others rest hothers hsteps hfollow => ?_⟩
  obtain ⟨a', hrun', hkey⟩ := hx steps others rest hothers hsteps hfollow
  exact ⟨s a', bind_ok_iff.2 ⟨a', rest, hrun', rfl⟩, hs a a' hkey⟩

/-- A reader that begins with a token takes it, with the comments in front of it. -/
theorem next_bind {next : Token → Reader β} {others : Token → Nat → Reader β}
    (hz : ∀ n, z (n + 1) = Reader.next >>= fun token => others token n)
    (hend : ∀ pos c b d, next (TokenStream.endToken pos) c ≠ .ok (b, d))
    (hnext : ∀ (token : Token) (pos : Position), token.kind ≠ .comment →
      Takes loose (fun b pieces => whole b (token.piece :: pieces)) behind (next token)
        (others { token with pos })) :
    Takes loose whole behind (Reader.next >>= next) z := by
  intro c b d hrun
  obtain ⟨token, between, htoken, hrest⟩ := bind_ok_iff.1 hrun
  obtain ⟨tokens, ending⟩ := c
  obtain ⟨comments, hcomments, rfl | ⟨head, tail, hhead, rfl⟩⟩ := Cursor.exists_remarks tokens
  · rw [next_end hcomments] at htoken
    obtain ⟨pos, -, heq⟩ := Except.map_ok_iff.1 htoken
    cases heq
    exact absurd hrest (hend pos _ b d)
  rw [next_token hcomments hhead] at htoken
  cases htoken
  obtain ⟨right, hbetween, hshape, hends, -⟩ := hnext token token.pos hhead _ b d hrest
  cases hbetween
  refine ⟨comments ++ token :: right, by simp, ?_, ?_, ?_⟩
  · rw [Outline.solid_append, Outline.solid_remarks hcomments, Outline.solid_cons hhead]
    exact hshape
  · exact fun hfirm => .append nofun (.cons hhead (hends hfirm))
  · intro steps taken rest htaken hsteps hfollow
    rw [List.map_append, List.map_cons, List.map_eq_append_iff] at htaken
    obtain ⟨first, second, rfl, hfirst, hsecond⟩ := htaken
    obtain ⟨other, more, rfl, hother, hmore⟩ := List.map_eq_cons_iff.1 hsecond
    rw [List.length_append, List.length_cons] at hsteps
    obtain ⟨steps, rfl⟩ : ∃ fewer, steps = fewer + 1 := ⟨steps - 1, by omega⟩
    obtain ⟨right', hright', -, -, hrun'⟩ := hnext token other.pos hhead _ b d hrest
    have hsame : right' = right :=
      (List.append_cancel_right (TokenStream.mk.inj hright').1).symm
    subst hsame
    obtain ⟨b', hb', hbehind⟩ := hrun' steps more rest hmore (by omega) hfollow
    have hkind : other.kind ≠ .comment := by
      rw [show other.kind = token.kind from (Piece.mk.inj hother).1]
      exact hhead
    rw [← Token.eq_of_piece hother] at hb'
    refine ⟨b', ?_, hbehind⟩
    rw [hz, List.append_assoc, List.cons_append]
    exact bind_ok_iff.2 ⟨other, _, next_token (hcomments.of_pieces hfirst) hkind, hb'⟩

/-- The count of what is left is never too small. -/
theorem remaining_bind {h : Nat → Reader β} {z : Nat → Reader β}
    (hz : ∀ count, Takes loose whole behind (h count) z) :
    Takes loose whole behind (remaining >>= h) fun _ => remaining >>= z := by
  intro c b d hrun
  obtain ⟨count, between, hcount, hrest⟩ := bind_ok_iff.1 hrun
  cases hcount
  obtain ⟨used, hc, hshape, hends, hz⟩ := hz _ c b d hrest
  refine ⟨used, hc, hshape, hends, fun _ others rest hothers _ hfollow => ?_⟩
  have hlength : used.length ≤ (others ++ rest.tokens).length := by
    rw [← List.length_map (f := Token.piece), ← hothers, List.length_map, List.length_append]
    omega
  obtain ⟨b', hrun', hbehind⟩ := hz _ others rest hothers hlength hfollow
  exact ⟨b', bind_ok_iff.2 ⟨_, _, rfl, hrun'⟩, hbehind⟩

end

theorem peek : Takes true (fun _ pieces => pieces = []) Token.piece Reader.peek
    fun _ => Reader.peek := by
  intro c token d hrun
  obtain ⟨tokens, ending⟩ := c
  obtain ⟨comments, hcomments, rfl | ⟨head, tail, hhead, rfl⟩⟩ := Cursor.exists_remarks tokens
  · rw [peek_end hcomments] at hrun
    obtain ⟨pos, -, heq⟩ := Except.map_ok_iff.1 hrun
    cases heq
    refine ⟨tokens, by simp, Outline.solid_remarks hcomments, nofun, ?_⟩
    intro steps others rest _ _ hfollow
    obtain ⟨token, other, htoken, -⟩ := hfollow rfl
    cases htoken
  · rw [peek_token hcomments hhead] at hrun
    cases hrun
    refine ⟨comments, rfl, Outline.solid_remarks hcomments, nofun, ?_⟩
    intro steps others rest hothers _ hfollow
    obtain ⟨other, more, hrest, hpiece, hkind⟩ := (hfollow rfl).exists_cons hhead
    refine ⟨other, ?_, hpiece⟩
    rw [hrest]
    exact peek_token (hcomments.of_pieces hothers) hkind

theorem documentation : Takes true (fun _ pieces => pieces = []) id Reader.documentation
    fun _ => Reader.documentation := by
  intro c comment d hrun
  obtain ⟨tokens, ending⟩ := c
  cases tokens with
  | nil =>
    rw [documentation_nil] at hrun
    obtain ⟨pos, -, heq⟩ := Except.map_ok_iff.1 hrun
    cases heq
    refine ⟨[], rfl, rfl, nofun, fun steps others rest _ _ hfollow => ?_⟩
    obtain ⟨token, other, htoken, -⟩ := hfollow rfl
    cases htoken
  | cons token tail =>
    by_cases htoken : token.kind = .comment
    · rw [documentation_comment htoken] at hrun
      cases hrun
      refine ⟨[token], rfl, ?_, nofun, fun steps others rest hothers _ _ => ?_⟩
      · exact Outline.solid_remarks (List.forall_mem_singleton.2 htoken)
      obtain ⟨other, rfl, hother⟩ := List.map_eq_singleton_iff.1 hothers
      rw [Token.eq_of_piece hother]
      exact ⟨some token.commentText, documentation_comment htoken, rfl⟩
    · rw [documentation_token htoken] at hrun
      cases hrun
      refine ⟨[], rfl, rfl, nofun, fun steps others rest hothers _ hfollow => ?_⟩
      obtain rfl := List.map_eq_nil_iff.1 hothers
      obtain ⟨other, more, hrest, -, hkind⟩ := (hfollow rfl).exists_cons htoken
      rw [hrest]
      exact ⟨none, documentation_token hkind, rfl⟩

end Takes

end Reader

end BinarySchema
