import BinarySchema.Proofs.Schema.Extent

/-!
# Exchanging rows of tokens

What becomes of a source if a row of its tokens is exchanged for another one. The rows stand where a
declaration may begin, behind a brace or a semicolon. A reader that begins in front of them either ends
there too, and then it has seen no more of the row than its first token, or it goes on behind the row.

`Trades` says that in the second case the reader goes on behind the other row as well, with the same
result up to places. It composes along the readers of the grammar, and comes down to the one place where
the row is read: the nodes of a body that begin with it. Everywhere else, in the bodies of enums and
bitfields and outside of all bodies, neither row is read to its end.
-/

namespace BinarySchema

open Outline (Inline EndsAt IsStop solid)

/-- A row of pieces and what to put in its place. Both begin with the same word and go on like the
declaration of a field, and they stand in front of a piece of some kind. -/
structure Exchange where
  word : String
  old : List Piece
  new : List Piece
  follow : Piece → Prop
  marked : (∃ rest, old = .mark "," :: rest) ∨ ∃ type rest, old = .mark ":" :: .word type :: rest
  ended : ∃ front rest, old = front ++ .mark ";" :: rest ∧ Inline front

namespace Exchange

variable (ex : Exchange)

def IsOld (row : List Token) : Prop :=
  row.map Token.piece = .word ex.word :: ex.old

def IsNew (row : List Token) : Prop :=
  row.map Token.piece = .word ex.word :: ex.new

def Follows (tokens : List Token) : Prop :=
  ∀ token ∈ tokens.head?, ex.follow token.piece

variable {ex}

theorem IsOld.exists_cons {row : List Token} (h : ex.IsOld row) :
    ∃ first rest, row = first :: rest ∧ first.piece = .word ex.word ∧ first.kind ≠ .comment ∧
      rest.map Token.piece = ex.old := by
  obtain ⟨first, rest, rfl, hfirst, hrest⟩ := List.map_eq_cons_iff.1 h
  refine ⟨first, rest, rfl, hfirst, ?_, hrest⟩
  rw [show first.kind = .word from (Piece.mk.inj hfirst).1]
  nofun

end Exchange

/-! ### Fronts -/

/-- That tokens end with a brace or a semicolon. If they may be bare, they may also be comments and
nothing else. -/
def Fresh (bare : Bool) (tokens : List Token) : Prop :=
  (bare = true ∧ solid Token.solid? tokens = []) ∨
    ∃ stop ∈ (solid Token.solid? tokens).getLast?, IsStop stop

namespace Fresh

variable {bare : Bool} {left right : List Token}

theorem loosen (h : Fresh bare left) : Fresh true left :=
  h.imp (fun hbare => ⟨rfl, hbare.2⟩) id

theorem behind (h : Fresh bare (left ++ right)) : Fresh true right := by
  unfold Fresh at h
  rw [Outline.solid_append] at h
  rcases h with ⟨-, hnil⟩ | ⟨stop, hlast, hstop⟩
  · exact .inl ⟨rfl, (List.append_eq_nil_iff.1 hnil).2⟩
  rw [List.getLast?_append] at hlast
  cases hright : (solid Token.solid? right).getLast? with
  | none => exact .inl ⟨rfl, List.getLast?_eq_none_iff.1 hright⟩
  | some last =>
    rw [hright] at hlast
    cases hlast
    exact .inr ⟨stop, hright, hstop⟩

theorem firm (h : Fresh bare left) (hne : solid Token.solid? left ≠ []) : Fresh false left :=
  h.imp (fun hbare => absurd hbare.2 hne) id

theorem behind_inline (h : Fresh false (left ++ right))
    (hleft : Inline (solid Token.solid? left)) : Fresh false right := by
  rcases h.behind with ⟨-, hnil⟩ | hstop
  · obtain ⟨hbare, -⟩ | ⟨stop, hlast, hstop⟩ := h
    · cases hbare
    · rw [Outline.solid_append, hnil, List.append_nil] at hlast
      exact absurd hstop (hleft stop (List.mem_of_getLast? hlast))
  · exact .inr hstop

theorem behind_token {comments : List Token} {head : Token}
    (h : Fresh bare (comments ++ head :: right)) (hcomments : Remarks comments)
    (hhead : head.kind ≠ .comment) :
    ∃ bare', (IsStop head.piece ∨ bare' = false) ∧ Fresh bare' right := by
  have hsolid : solid Token.solid? (comments ++ [head]) = [head.piece] := by
    rw [Outline.solid_append, Outline.solid_remarks hcomments, List.nil_append,
      Outline.solid_cons hhead]
    rfl
  rw [← List.singleton_append, ← List.append_assoc] at h
  by_cases hstop : IsStop head.piece
  · exact ⟨true, .inl hstop, h.behind⟩
  refine ⟨false, .inr rfl, (h.firm ?_).behind_inline ?_⟩
  · rw [Outline.solid_append, hsolid]
    exact List.cons_ne_nil _ _
  · rw [hsolid]
    exact Inline.nil.cons hstop

end Fresh

/-- The first stop of pieces is in one place. -/
theorem Outline.Inline.first_stop {left left' right right' : List Piece} {stop stop' : Piece}
    (hleft : Inline left) (hleft' : Inline left') (hstop : IsStop stop) (hstop' : IsStop stop')
    (h : left ++ stop :: right = left' ++ stop' :: right') :
    left = left' ∧ stop = stop' ∧ right = right' := by
  induction left generalizing left' with
  | nil =>
    cases left' with
    | nil =>
      obtain ⟨rfl, rfl⟩ := List.cons.inj h
      exact ⟨rfl, rfl, rfl⟩
    | cons piece rest =>
      obtain ⟨rfl, -⟩ := List.cons.inj h
      exact absurd hstop (hleft' _ List.mem_cons_self)
  | cons piece rest ih =>
    cases left' with
    | nil =>
      obtain ⟨rfl, -⟩ := List.cons.inj h
      exact absurd hstop' (hleft _ List.mem_cons_self)
    | cons piece' rest' =>
      obtain ⟨rfl, hrest⟩ := List.cons.inj h
      obtain ⟨rfl, hsame⟩ := ih (List.forall_mem_cons.1 hleft).2 (List.forall_mem_cons.1 hleft').2 hrest
      exact ⟨rfl, hsame⟩

namespace Reader

variable {α β κ ι : Type}

theorem SameHead.of_pieces {c d : Cursor} {token other : Token} {rest others : List Token}
    (hc : c.tokens = token :: rest) (hd : d.tokens = other :: others)
    (h : token.piece = other.piece) : SameHead c d := by
  refine ⟨token, other, ?_, ?_, h⟩
  · rw [hc]
    rfl
  · rw [hd]
    rfl

theorem next_prepend {comments tokens : List Token} (h : Remarks comments) (ending : Ending)
    (f : Token → Reader α) :
    (next >>= f) ⟨comments ++ tokens, ending⟩ = (next >>= f) ⟨tokens, ending⟩ := by
  have hnext : next ⟨comments ++ tokens, ending⟩ = next ⟨tokens, ending⟩ := by
    have hskip : Cursor.skipComments ⟨comments ++ tokens, ending⟩
        = Cursor.skipComments ⟨tokens, ending⟩ := by
      unfold Cursor.skipComments
      rw [List.dropWhile_append_of_pos fun token hmem => by simp [h token hmem]]
    unfold next ofStep Cursor.next
    rw [hskip]
  rw [bind_run, bind_run, hnext]

theorem next_bind_cons {token : Token} {rest : List Token} {ending : Ending}
    (h : token.kind ≠ .comment) (f : Token → Reader α) :
    (next >>= f) ⟨token :: rest, ending⟩ = f token ⟨rest, ending⟩ :=
  bind_of_ok (next_cons h)

theorem isPunctuation_of_expect {token read : Token} {rest : List Token} {ending : Ending} {text : String}
    {d : Cursor} (h : token.kind ≠ .comment)
    (hrun : expectPunctuation text ⟨token :: rest, ending⟩ = .ok (read, d)) :
    token.isPunctuation text = true ∧ d = ⟨rest, ending⟩ := by
  unfold expectPunctuation at hrun
  rw [next_bind_cons h] at hrun
  by_cases htext : token.isPunctuation text = true
  · rw [if_pos htext] at hrun
    exact ⟨htext, (pure_ok_iff.1 hrun).2.symm⟩
  · rw [if_neg htext] at hrun
    exact (throw_ok_iff.1 hrun).elim

theorem isPlainName_of_expect {token read : Token} {rest : List Token} {ending : Ending} {what : String}
    {d : Cursor} (h : token.kind ≠ .comment)
    (hrun : expectName what ⟨token :: rest, ending⟩ = .ok (read, d)) :
    isPlainName token = true ∧ d = ⟨rest, ending⟩ := by
  unfold expectName at hrun
  rw [next_bind_cons h] at hrun
  by_cases hname : isPlainName token = true
  · rw [if_pos hname] at hrun
    exact ⟨hname, (pure_ok_iff.1 hrun).2.symm⟩
  · rw [if_neg hname] at hrun
    exact (throw_ok_iff.1 hrun).elim

/-! ### Rules -/

/-- That a reader with enough steps comes to a result with the same key if it begins in front of the other
row, and takes the row and what it took behind it. -/
def Passes (ex : Exchange) (key : α → κ) (y : Nat → Reader α) (front used : List Token) (a : α) : Prop :=
  ∀ (steps : Nat) (front' row used' : List Token) (rest : Cursor),
    front'.map Token.piece = front.map Token.piece → ex.IsNew row →
      used'.map Token.piece = used.map Token.piece →
        front'.length + row.length + used'.length ≤ steps →
          ∃ b, y steps ⟨front' ++ (row ++ (used' ++ rest.tokens)), rest.ending⟩ = .ok (b, rest) ∧
            key a = key b

/-- What a reader does in front of a row if it comes to a result. It ends in front of the row, or it goes
through, and then it goes through the other row as well. -/
def Trades (ex : Exchange) (through bare bare' : Bool) (key : α → κ) (x : Reader α)
    (y : Nat → Reader α) : Prop :=
  ∀ front row back ending a d, Fresh bare front → ex.IsOld row → ex.Follows back →
    x ⟨front ++ (row ++ back), ending⟩ = .ok (a, d) → d.ending = ending ∧
      ((∃ used left, front = used ++ left ∧ Fresh bare' left ∧ d.tokens = left ++ (row ++ back)) ∨
        through = true ∧ ∃ used, back = used ++ d.tokens ∧ Passes ex key y front used a)

/-- What a reader does with a row that it begins with. If it cannot go through, it comes to no result. -/
def Rows (ex : Exchange) (through : Bool) (key : α → κ) (x : Reader α) (y : Nat → Reader α) : Prop :=
  ∀ row back ending a d, ex.IsOld row → ex.Follows back → x ⟨row ++ back, ending⟩ = .ok (a, d) →
    d.ending = ending ∧ through = true ∧ ∃ used, back = used ++ d.tokens ∧ Passes ex key y [] used a

namespace Trades

variable {ex : Exchange} {loose through bare bare' : Bool} {shape : α → List Piece → Prop}
  {key : α → κ} {x : Reader α} {y : Nat → Reader α}

theorem pure {a : α} (y : Nat → Reader α) : Trades ex through bare true key (Pure.pure a) y := by
  intro front row back ending b d hfront _ _ hrun
  obtain ⟨-, rfl⟩ := pure_ok_iff.1 hrun
  exact ⟨rfl, .inl ⟨[], front, rfl, hfront.loosen, rfl⟩⟩

theorem throw (e : CompileError) (y : Nat → Reader α) :
    Trades ex through bare bare' key (MonadExcept.throw e) y :=
  fun _ _ _ _ _ _ _ _ _ hrun => (throw_ok_iff.1 hrun).elim

theorem throw_bind (e : CompileError) (f : β → Reader α) (y : Nat → Reader α) :
    Trades ex through bare bare' key (MonadExcept.throw e >>= f) y := by
  intro _ _ _ _ _ _ _ _ _ hrun
  obtain ⟨_, _, hthrow, -⟩ := bind_ok_iff.1 hrun
  exact (throw_ok_iff.1 hthrow).elim

theorem unexpectedEnd (expected : String) (y : Nat → Reader α) :
    Trades ex through bare bare' key (unexpectedEnd expected) y :=
  fun _ _ _ _ _ _ _ _ _ hrun => (unexpectedEnd_ok_iff.1 hrun).elim

theorem ite {c : Prop} [Decidable c] {x x' : Reader α} {y y' : Nat → Reader α}
    (hx : c → Trades ex through bare bare' key x y)
    (hx' : ¬ c → Trades ex through bare bare' key x' y') :
    Trades ex through bare bare' key (if c then x else x') fun n => if c then y n else y' n := by
  by_cases h : c
  · simp only [if_pos h]
    exact hx h
  · simp only [if_neg h]
    exact hx' h

theorem more (h : Trades ex through bare bare' key x y) :
    Trades ex through bare bare' key x fun n => y (n + 1) := by
  intro front row back ending a d hfront hrow hback hrun
  obtain ⟨hending, hstays | ⟨hthrough, used, hused, hpasses⟩⟩ :=
    h front row back ending a d hfront hrow hback hrun
  · exact ⟨hending, .inl hstays⟩
  refine ⟨hending, .inr ⟨hthrough, used, hused, ?_⟩⟩
  intro steps front' row' used' rest hfront' hrow' hused' hsteps
  exact hpasses (steps + 1) front' row' used' rest hfront' hrow' hused' (by omega)

/-- A reader that has read the row did not end in front of it. -/
theorem passes (h : Trades ex through bare bare' key x y) {front row back used : List Token}
    {ending : Ending} {a : α} {d : Cursor} (hfront : Fresh bare front) (hrow : ex.IsOld row)
    (hback : ex.Follows back) (hrun : x ⟨front ++ (row ++ back), ending⟩ = .ok (a, d))
    (hused : back = used ++ d.tokens) : Passes ex key y front used a := by
  obtain ⟨-, ⟨ahead, left, -, -, htokens⟩ | ⟨-, used', hused', hpasses⟩⟩ :=
    h front row back ending a d hfront hrow hback hrun
  · obtain ⟨first, rest, rfl, -⟩ := hrow.exists_cons
    have hlength := congrArg List.length htokens
    rw [hused] at hlength
    simp only [List.length_append, List.length_cons] at hlength
    omega
  · rw [hused] at hused'
    rwa [List.append_cancel_right hused']

/-! ### Readers that stay in front -/

/-- A reader that takes pieces of a shape ends in front of the row if there are no such pieces that
reach into it. -/
theorem of_takes (hx : Takes loose shape key x y)
    (hbeyond : ∀ front row back beyond rest a, Fresh bare front → ex.IsOld row →
      row ++ back = beyond ++ rest → beyond ≠ [] →
        ¬ shape a (solid Token.solid? front ++ solid Token.solid? beyond))
    (hleft : ∀ used left a, Fresh bare (used ++ left) → shape a (solid Token.solid? used) →
      Fresh bare' left) :
    Trades ex through bare bare' key x y := by
  intro front row back ending a d hfront hrow _ hrun
  obtain ⟨used, hused, hshape, -, -⟩ := hx _ a d hrun
  obtain ⟨htokens, hending⟩ := TokenStream.mk.inj hused
  refine ⟨hending.symm, .inl ?_⟩
  rcases List.append_eq_append_iff.1 htokens with ⟨beyond, rfl, hrest⟩ | ⟨left, rfl, hrest⟩
  · by_cases hnil : beyond = []
    · subst hnil
      rw [List.append_nil] at hshape
      refine ⟨front, [], (List.append_nil _).symm, hleft front [] a ?_ hshape, hrest.symm⟩
      rwa [List.append_nil]
    · rw [Outline.solid_append] at hshape
      exact absurd hshape (hbeyond front row back beyond d.tokens a hfront hrow hrest hnil)
  · exact ⟨used, left, rfl, hleft used left a hfront hshape, hrest⟩

theorem exists_solid {row back beyond rest : List Token} (hrow : ex.IsOld row)
    (hrest : row ++ back = beyond ++ rest) (hnil : beyond ≠ []) :
    ∃ more, solid Token.solid? beyond = .word ex.word :: more := by
  obtain ⟨first, tail, rfl, hpiece, hkind, -⟩ := hrow.exists_cons
  obtain ⟨token, others, rfl⟩ := List.exists_cons_of_ne_nil hnil
  obtain ⟨rfl, -⟩ := List.cons.inj hrest
  exact ⟨solid Token.solid? others, by rw [Outline.solid_cons hkind, hpiece]⟩

theorem of_sentence (hx : Takes loose shape key x y)
    (h : ∀ a pieces, shape a pieces → Inline pieces.dropLast) :
    Trades ex through false true key x y := by
  refine of_takes hx (fun front row back beyond rest a hfront hrow hrest hnil hshape => ?_)
    fun used left a hfresh _ => hfresh.behind
  obtain ⟨more, hmore⟩ := exists_solid hrow hrest hnil
  obtain ⟨hbare, -⟩ | ⟨stop, hlast, hstop⟩ := hfront
  · cases hbare
  have hinline := h a _ hshape
  rw [hmore, List.dropLast_append_of_ne_nil (List.cons_ne_nil _ _)] at hinline
  exact hinline stop (List.mem_append_left _ (List.mem_of_getLast? hlast)) hstop

theorem of_inline (hx : Takes loose shape key x y) (h : ∀ a pieces, shape a pieces → Inline pieces) :
    Trades ex through false false key x y := by
  refine of_takes hx (fun front row back beyond rest a hfront hrow hrest hnil hshape => ?_)
    fun used left a hfresh hshape => hfresh.behind_inline (h a _ hshape)
  obtain ⟨hbare, -⟩ | ⟨stop, hlast, hstop⟩ := hfront
  · cases hbare
  · exact h a _ hshape stop (List.mem_append_left _ (List.mem_of_getLast? hlast)) hstop

theorem of_silent (hx : Takes loose (fun _ pieces => pieces = []) key x y) :
    Trades ex through true true key x y := by
  refine of_takes hx (fun front row back beyond rest a _ hrow hrest hnil hshape => ?_)
    fun used left a hfresh _ => hfresh.behind
  obtain ⟨more, hmore⟩ := exists_solid hrow hrest hnil
  rw [hmore] at hshape
  exact absurd hshape (by simp)

/-- The first stop of the row is a semicolon. -/
theorem exists_ended {row : List Token} (hrow : ex.IsOld row) : ∃ inline rest,
    solid Token.solid? row = inline ++ .mark ";" :: rest ∧ Inline inline := by
  obtain ⟨front, rest, hold, hfront⟩ := ex.ended
  obtain ⟨first, tail, rfl, hpiece, hkind, htail⟩ := hrow.exists_cons
  rw [hold, List.map_eq_append_iff] at htail
  obtain ⟨before, others, rfl, hbefore, hothers⟩ := htail
  obtain ⟨semicolon, others, rfl, hsemicolon, -⟩ := List.map_eq_cons_iff.1 hothers
  have hsolid : semicolon.kind ≠ .comment := by
    rw [show semicolon.kind = .punctuation from (Piece.mk.inj hsemicolon).1]
    nofun
  refine ⟨first.piece :: solid Token.solid? before, solid Token.solid? others, ?_, ?_⟩
  · rw [Outline.solid_cons hkind, Outline.solid_append, Outline.solid_cons hsolid, hsemicolon,
      List.cons_append]
  · refine Inline.cons ?_ fun piece hmem => ?_
    · rw [hpiece]
      exact Outline.not_isStop_of_kind nofun
    · obtain ⟨token, htoken, hsome⟩ := List.mem_filterMap.1 hmem
      by_cases hcomment : token.kind = .comment
      · rw [Token.solid?, if_pos hcomment] at hsome
        cases hsome
      · rw [Token.solid?_of_ne hcomment] at hsome
        cases hsome
        refine hfront _ ?_
        rw [← hbefore]
        exact List.mem_map_of_mem htoken

/-- What ends with a closing brace that no semicolon precedes does not reach into the row. -/
theorem of_closer (hx : Takes loose (fun _ => EndsAt (.mark "\x7d")) key x y) :
    Trades ex through true true key x y := by
  refine of_takes hx (fun front row back beyond rest a hfront hrow hrest hnil hshape => ?_)
    fun used left a hfresh _ => hfresh.behind
  obtain ⟨more, hmore⟩ := exists_solid hrow hrest hnil
  obtain ⟨inside, hinside, hinline⟩ := hshape
  rcases hfront with ⟨-, hbare⟩ | ⟨stop, hlast, hstop⟩
  · obtain ⟨ahead, behind, hahead, hbefore⟩ := exists_ended hrow
    rw [hbare, List.nil_append] at hinside
    have hsame := congrArg (solid Token.solid?) hrest
    rw [Outline.solid_append, Outline.solid_append, hahead, hinside, List.append_assoc,
      List.append_assoc, List.cons_append, List.singleton_append] at hsame
    have hfirst := hbefore.first_stop hinline (.inl rfl) (.inr (.inr rfl)) hsame
    exact absurd hfirst.2.1 (by decide)
  · refine hinline stop ?_ hstop
    have hlasts := congrArg List.dropLast hinside
    rw [hmore, List.dropLast_append_of_ne_nil (List.cons_ne_nil _ _), List.dropLast_concat] at hlasts
    rw [← hlasts]
    exact List.mem_append_left _ (List.mem_of_getLast? hlast)

/-! ### Sequences -/

theorem sameHead {left row back left' row' back' : List Token} {ending ending' : Ending}
    (hrow : ex.IsOld row) (hrow' : ex.IsNew row')
    (hleft : left'.map Token.piece = left.map Token.piece) :
    SameHead ⟨left ++ (row ++ back), ending⟩ ⟨left' ++ (row' ++ back'), ending'⟩ := by
  cases left with
  | nil =>
    obtain rfl := List.map_eq_nil_iff.1 hleft
    obtain ⟨first, rest, rfl, hfirst, -⟩ := hrow.exists_cons
    obtain ⟨other, others, rfl, hother, -⟩ := List.map_eq_cons_iff.1 hrow'
    exact .of_pieces rfl rfl (hfirst.trans hother.symm)
  | cons token rest =>
    obtain ⟨other, others, rfl, hother, -⟩ := List.map_eq_cons_iff.1 hleft
    exact .of_pieces rfl rfl hother.symm

end Trades

namespace Passes

variable {ex : Exchange} {edge : Bool} {shape : α → List Piece → Prop} {key : α → κ} {behind : β → ι}
  {x : Reader α} {f : α → Reader β} {y : Nat → Reader α} {g : α → Nat → Reader β} {z : Nat → Reader β}
  {a : α} {b : β} {d : Cursor}

theorem bind_front {taken left row back used : List Token} {ending : Ending}
    (hx : Takes edge shape key x y)
    (hrun : x ⟨taken ++ (left ++ (row ++ back)), ending⟩ = .ok (a, ⟨left ++ (row ++ back), ending⟩))
    (hrow : ex.IsOld row) (hg : ∀ a', key a = key a' → Passes ex behind (g a') left used b) :
    Passes ex behind (fun n => y n >>= fun a => g a n) (taken ++ left) used b := by
  obtain ⟨taken', htaken, -, -, hreplay⟩ := hx _ a _ hrun
  obtain rfl : taken = taken' := List.append_cancel_right (TokenStream.mk.inj htaken).1
  intro steps front' row' more rest hfront' hrow' hmore hsteps
  obtain ⟨first, second, rfl, hfirst, hsecond⟩ := List.map_eq_append_iff.1
    (hfront'.trans List.map_append)
  have hlength : taken.length = first.length := by
    rw [← List.length_map (f := Token.piece), ← hfirst, List.length_map]
  simp only [List.length_append] at hsteps
  obtain ⟨a', hrun', hkey⟩ := hreplay steps first
    ⟨second ++ (row' ++ (more ++ rest.tokens)), rest.ending⟩ hfirst (by omega)
    fun _ => Trades.sameHead hrow hrow' hsecond
  obtain ⟨b', hrun'', hbehind⟩ := hg a' hkey steps second row' more rest hsecond hrow' hmore (by omega)
  refine ⟨b', bind_ok_iff.2 ⟨a', _, ?_, hrun''⟩, hbehind⟩
  rw [List.append_assoc]
  exact hrun'

theorem bind_back {front first second : List Token} (hx : Passes ex key y front first a)
    (hf : ∀ a', key a = key a' → ∃ back, Takes false back behind (f a) (g a'))
    (hrun : f a ⟨second ++ d.tokens, d.ending⟩ = .ok (b, d)) :
    Passes ex behind (fun n => y n >>= fun a => g a n) front (first ++ second) b := by
  intro steps front' row' more rest hfront' hrow' hmore hsteps
  obtain ⟨first', second', rfl, hfirst', hsecond'⟩ := List.map_eq_append_iff.1
    (hmore.trans List.map_append)
  have hlength : second.length = second'.length := by
    rw [← List.length_map (f := Token.piece), ← hsecond', List.length_map]
  simp only [List.length_append] at hsteps
  obtain ⟨a', hrun', hkey⟩ := hx steps front' row' first' ⟨second' ++ rest.tokens, rest.ending⟩
    hfront' hrow' hfirst' (by omega)
  obtain ⟨_, hf'⟩ := hf a' hkey
  obtain ⟨taken, htaken, -, -, hreplay⟩ := hf' _ b d hrun
  obtain rfl : second = taken := List.append_cancel_right (TokenStream.mk.inj htaken).1
  obtain ⟨b', hrun'', hbehind⟩ := hreplay steps second' rest hsecond' (by omega) nofun
  refine ⟨b', bind_ok_iff.2 ⟨a', _, ?_, hrun''⟩, hbehind⟩
  rw [List.append_assoc]
  exact hrun'

variable {next : Token → Reader β} {others : Token → Nat → Reader β}
  (hz : ∀ n, z (n + 1) = Reader.next >>= fun token => others token n)

include hz

/-- The first token of the front is taken. -/
theorem next_bind {comments tail used : List Token} {head : Token} (hcomments : Remarks comments)
    (hhead : head.kind ≠ .comment)
    (h : ∀ pos : Position, Passes ex behind (others { head with pos }) tail used b) :
    Passes ex behind z (comments ++ head :: tail) used b := by
  intro steps front' row' used' rest hfront' hrow' hused' hsteps
  obtain ⟨comments', more, rfl, hcomments', hmore⟩ := List.map_eq_append_iff.1
    (hfront'.trans List.map_append)
  obtain ⟨other, tail', rfl, hother, htail'⟩ := List.map_eq_cons_iff.1 hmore
  simp only [List.length_append, List.length_cons] at hsteps
  obtain ⟨fewer, rfl⟩ : ∃ fewer, steps = fewer + 1 := ⟨steps - 1, by omega⟩
  obtain ⟨b', hrun', hbehind⟩ := h other.pos fewer tail' row' used' rest htail' hrow' hused' (by omega)
  have hkind : other.kind ≠ .comment := by
    rw [show other.kind = head.kind from (Piece.mk.inj hother).1]
    exact hhead
  rw [← Token.eq_of_piece hother] at hrun'
  refine ⟨b', ?_, hbehind⟩
  rw [hz, List.append_assoc, List.cons_append]
  exact bind_ok_iff.2 ⟨other, _, next_token (hcomments.of_pieces hcomments') hkind, hrun'⟩

theorem of_remarks {comments used : List Token} (hcomments : Remarks comments)
    (h : Passes ex behind z [] used b) : Passes ex behind z comments used b := by
  intro steps front' row' used' rest hfront' hrow' hused' hsteps
  obtain ⟨b', hrun', hbehind⟩ := h steps [] row' used' rest rfl hrow' hused'
    (by simp only [List.length_nil]; omega)
  refine ⟨b', ?_, hbehind⟩
  obtain ⟨first, more, rfl, -⟩ := List.map_eq_cons_iff.1 hrow'
  obtain ⟨fewer, rfl⟩ : ∃ fewer, steps = fewer + 1 :=
    ⟨steps - 1, by rw [List.length_cons] at hsteps; omega⟩
  rw [hz] at hrun' ⊢
  rw [next_prepend (hcomments.of_pieces hfront')]
  exact hrun'

end Passes

namespace Trades

section

variable {ex : Exchange} {through bare bare' : Bool} {key : α → κ} {x : Reader α} {y : Nat → Reader α}
  {edge within bare'' : Bool} {front : α → List Piece → Prop} {behind : β → ι}
  {f : α → Reader β} {g : α → Nat → Reader β} {z : Nat → Reader β}

/-- The rest of a sequence begins in front of the row or behind it. -/
theorem bind (hx : Takes edge front key x y) (hxt : Trades ex within bare bare' key x y)
    (hf : within = true → ∀ a b, key a = key b → ∃ back, Takes false back behind (f a) (g b))
    (hft : ∀ a b, key a = key b → Trades ex through bare' bare'' behind (f a) (g b))
    (hthrough : within = true → through = true) :
    Trades ex through bare bare'' behind (x >>= f) fun n => y n >>= fun b => g b n := by
  intro front row back ending b d hfront hrow hback hrun
  obtain ⟨a, ⟨tokens, ending'⟩, hfirst, hsecond⟩ := bind_ok_iff.1 hrun
  obtain ⟨rfl, ⟨used, left, rfl, hleft, htokens⟩ | ⟨hwithin, used, hused, hpasses⟩⟩ :=
    hxt front row back ending a _ hfront hrow hback hfirst
  · obtain rfl : tokens = left ++ (row ++ back) := htokens
    obtain ⟨hending, ⟨used', left', rfl, hleft', htokens'⟩ | ⟨hthrough, behind', hbehind, -⟩⟩ :=
      hft a a rfl left row back _ b d hleft hrow hback hsecond
    · refine ⟨hending, .inl ⟨used ++ used', left', ?_, hleft', htokens'⟩⟩
      rw [List.append_assoc]
    rw [List.append_assoc] at hfirst
    exact ⟨hending, .inr ⟨hthrough, behind', hbehind, .bind_front hx hfirst hrow fun a' hkey =>
      (hft a a' hkey).passes hleft hrow hback hsecond hbehind⟩⟩
  · obtain ⟨_, hf'⟩ := hf hwithin a a rfl
    obtain ⟨taken, htaken, -⟩ := hf' _ b d hsecond
    obtain ⟨rfl, rfl⟩ := TokenStream.mk.inj htaken
    refine ⟨rfl, .inr ⟨hthrough hwithin, used ++ taken, ?_, hpasses.bind_back (hf hwithin a) hsecond⟩⟩
    rw [hused, List.append_assoc]

theorem bind_inline (hx : Takes edge front key x y)
    (hinline : ∀ a pieces, front a pieces → Inline pieces)
    (hft : ∀ a b, key a = key b → Trades ex through false bare'' behind (f a) (g b)) :
    Trades ex through false bare'' behind (x >>= f) fun n => y n >>= fun b => g b n :=
  bind hx (of_inline hx hinline : Trades ex false false false key x y) nofun hft nofun

theorem bind_sentence (hx : Takes edge front key x y)
    (hsentence : ∀ a pieces, front a pieces → Inline pieces.dropLast)
    (hft : ∀ a b, key a = key b → Trades ex through true bare'' behind (f a) (g b)) :
    Trades ex through false bare'' behind (x >>= f) fun n => y n >>= fun b => g b n :=
  bind hx (of_sentence hx hsentence : Trades ex false false true key x y) nofun hft nofun

/-- What is made of a result changes nothing. -/
theorem bind_pure {r s : α → β} (hxt : Trades ex through bare bare' key x y)
    (hs : ∀ a b, key a = key b → behind (r a) = behind (s b)) :
    Trades ex through bare bare' behind (x >>= fun a => Pure.pure (r a))
      fun n => y n >>= fun b => Pure.pure (s b) := by
  intro front row back ending b d hfront hrow hback hrun
  obtain ⟨a, between, hfirst, hsecond⟩ := bind_ok_iff.1 hrun
  obtain ⟨rfl, rfl⟩ := pure_ok_iff.1 hsecond
  obtain ⟨hending, hstays | ⟨hthrough, used, hused, hpasses⟩⟩ :=
    hxt front row back ending a between hfront hrow hback hfirst
  · exact ⟨hending, .inl hstays⟩
  refine ⟨hending, .inr ⟨hthrough, used, hused, ?_⟩⟩
  intro steps front' row' used' rest hfront' hrow' hused' hsteps
  obtain ⟨a', hrun', hkey⟩ := hpasses steps front' row' used' rest hfront' hrow' hused' hsteps
  exact ⟨s a', bind_ok_iff.2 ⟨a', rest, hrun', rfl⟩, hs a a' hkey⟩

/-- A reader that begins with a token takes it from the front. If there are but comments in the front,
it begins with the row. -/
theorem next_bind {next : Token → Reader β} {others : Token → Nat → Reader β}
    (hz : ∀ n, z (n + 1) = Reader.next >>= fun token => others token n)
    (hnext : ∀ (token : Token) (pos : Position), token.kind ≠ .comment → ∀ bare',
      (IsStop token.piece ∨ bare' = false) →
        Trades ex through bare' bare'' behind (next token) (others { token with pos }))
    (hrows : Rows ex through behind (Reader.next >>= next) z) :
    Trades ex through bare bare'' behind (Reader.next >>= next) z := by
  intro front row back ending b d hfront hrow hback hrun
  obtain ⟨comments, hcomments, rfl | ⟨head, tail, hhead, rfl⟩⟩ := Cursor.exists_remarks front
  · rw [next_prepend hcomments] at hrun
    obtain ⟨hending, hthrough, used, hused, hpasses⟩ := hrows row back ending b d hrow hback hrun
    exact ⟨hending, .inr ⟨hthrough, used, hused, .of_remarks hz hcomments hpasses⟩⟩
  rw [List.append_assoc, List.cons_append] at hrun
  obtain ⟨token, between, htoken, hrest⟩ := bind_ok_iff.1 hrun
  rw [next_token hcomments hhead] at htoken
  cases htoken
  obtain ⟨bare', hbare', htail⟩ := hfront.behind_token hcomments hhead
  have hreads (pos : Position) := hnext head pos hhead bare' hbare'
  obtain ⟨hending, ⟨used, left, rfl, hleft, htokens⟩ | ⟨hthrough, used, hused, -⟩⟩ :=
    hreads head.pos tail row back ending b d htail hrow hback hrest
  · exact ⟨hending, .inl ⟨comments ++ head :: used, left, by simp, hleft, htokens⟩⟩
  · exact ⟨hending, .inr ⟨hthrough, used, hused, .next_bind hz hcomments hhead fun pos =>
      (hreads pos).passes htail hrow hback hrest hused⟩⟩

/-- The count of what is left is never too small. -/
theorem remaining_bind {h : Nat → Reader β}
    (hz : ∀ count, Trades ex through bare bare'' behind (h count) z) :
    Trades ex through bare bare'' behind (remaining >>= h) fun _ => remaining >>= z := by
  intro front row back ending b d hfront hrow hback hrun
  obtain ⟨count, between, hcount, hrest⟩ := bind_ok_iff.1 hrun
  cases hcount
  obtain ⟨hending, hstays | ⟨hthrough, used, hused, hpasses⟩⟩ :=
    hz _ front row back ending b d hfront hrow hback hrest
  · exact ⟨hending, .inl hstays⟩
  refine ⟨hending, .inr ⟨hthrough, used, hused, ?_⟩⟩
  intro steps front' row' used' rest hfront' hrow' hused' hsteps
  have hlength : front'.length + row'.length + used'.length
      ≤ (front' ++ (row' ++ (used' ++ rest.tokens))).length := by
    simp only [List.length_append]
    omega
  obtain ⟨b', hrun', hbehind⟩ := hpasses _ front' row' used' rest hfront' hrow' hused' hlength
  exact ⟨b', bind_ok_iff.2 ⟨_, _, rfl, hrun'⟩, hbehind⟩

end

end Trades

end Reader

end BinarySchema
