import BinarySchema.Proofs.Schema.Exchange
import BinarySchema.Proofs.Schema.Flatten
import BinarySchema.Proofs.Schema.Identifiers

/-!
# Declarations of several names

A declaration of several names goes by one declaration for each of them, wherever it stands. The two
forms are rows of tokens that may be exchanged: what the nodes of a body make of one of them decides what
they make of the other, and behind it the same is read.

There is one exception. The first word of a declaration is looked up among the keywords of control
blocks and the words behind commas are not, so a keyword can be a name in the second form only.
-/

namespace BinarySchema

open Outline (Inline EndsAt IsStop solid)

/-- A declaration of one or more names by its pieces: the names, the word for their type, what stands
between it and the semicolon, and the comment behind the semicolon if there is one. -/
structure SharedDeclaration where
  name : String
  others : List String
  type : String
  length : List Piece
  note : Option Piece
  inline : Inline length
  remark : ∀ piece ∈ note, piece.kind = .comment

namespace SharedDeclaration

variable (s : SharedDeclaration)

/-- The type and the length, through the semicolon. -/
def typing : List Piece :=
  .word s.type :: s.length ++ [.mark ";"]

/-- What stands behind the last name. -/
def tail : List Piece :=
  .mark ":" :: (s.typing ++ s.note.toList)

/-- Names with a comma in front of each. -/
def listed (names : List String) : List Piece :=
  names.flatMap fun name => [.mark ",", .word name]

/-- Names with a declaration for each. -/
def apart (names : List String) : List Piece :=
  names.flatMap fun name => .word name :: s.tail

/-- The declaration of all names at once. -/
def joined : List Piece :=
  .word s.name :: (listed s.others ++ s.tail)

/-- The declarations of the names one by one. -/
def separate : List Piece :=
  s.apart (s.name :: s.others)

def comment : Option String :=
  s.note.map fun piece => (Token.mk piece.kind piece.text .first).commentText

def field (type : TypeRef) (length : Option Expression) (name : String) : Field :=
  { name, type, pos := .first, length, comment := s.comment }

/-- What must not stand behind: a comment, if the declaration has none of its own. -/
def Follow (piece : Piece) : Prop :=
  s.note = none → piece.kind ≠ .comment

end SharedDeclaration

namespace Reader

variable {s : SharedDeclaration} {types : TypeTable} {ending : Ending}

open SharedDeclaration (listed)

/-! ### Names -/

theorem moreNames_reads {names : List String}
    (h : ∀ name ∈ names, Lexeme.isIdentifier name.toList = true) {steps : Nat}
    (hsteps : names.length < steps) :
    Reads Anything (listed names ++ [.mark ":"]) (moreNames steps)
      (·.map Token.piece = names.map Piece.word) := by
  induction names generalizing steps with
  | nil =>
    obtain ⟨steps, rfl⟩ : ∃ fewer, steps = fewer + 1 := ⟨steps - 1, by omega⟩
    unfold moreNames
    refine Reads.next_bind (by decide) fun colon hcolon => ?_
    rw [if_pos (Token.isPunctuation_iff.2 hcolon)]
    exact Reads.pure rfl
  | cons name names ih =>
    obtain ⟨hname, hnames⟩ := List.forall_mem_cons.1 h
    obtain ⟨steps, rfl⟩ : ∃ fewer, steps = fewer + 1 := ⟨steps - 1, by omega⟩
    rw [List.length_cons] at hsteps
    change Reads Anything (.mark "," :: .word name :: (listed names ++ [.mark ":"])) _ _
    unfold moreNames
    refine Reads.next_bind (by decide) fun comma hcomma => ?_
    have hmore : ¬ comma.isPunctuation ":" = true := by
      rw [Token.isPunctuation_iff, hcomma]
      decide
    rw [if_neg hmore, if_neg (by simpa using Token.isPunctuation_iff.2 hcomma)]
    refine Reads.bind_cons (Reads.expectName hname _) fun token htoken => ?_
    refine Reads.bind_pure (ih hnames (by omega)) fun read hread => ?_
    rw [List.map_cons, List.map_cons, htoken, hread]

/-- The names behind the first one are read if they are identifiers, and in no other case. -/
theorem moreNames_listed {names : List String} {steps : Nat} {tokens rest read : List Token} {d : Cursor}
    (htokens : tokens.map Token.piece = listed names ++ [.mark ":"])
    (h : moreNames steps ⟨tokens ++ rest, ending⟩ = .ok (read, d)) :
    ∀ name ∈ names, Lexeme.isIdentifier name.toList = true := by
  induction names generalizing steps tokens read d with
  | nil => exact List.forall_mem_nil _
  | cons name names ih =>
    cases steps with
    | zero => exact (unexpectedEnd_ok_iff.1 h).elim
    | succ steps =>
      obtain ⟨comma, others, rfl, hcomma, hothers⟩ := List.map_eq_cons_iff.1 htokens
      obtain ⟨token, more, rfl, htoken, hmore⟩ := List.map_eq_cons_iff.1 hothers
      have hnames := (next_bind_cons (Token.solid_of_mark hcomma) _).symm.trans h
      have hcolon : ¬ comma.isPunctuation ":" = true := by
        rw [Token.isPunctuation_iff, hcomma]
        decide
      rw [if_neg hcolon] at hnames
      obtain ⟨-, hnames⟩ := refuse_ok_iff.1 hnames
      obtain ⟨first, c, hfirst, hnames⟩ := bind_ok_iff.1 hnames
      obtain ⟨behind, c', hbehind, -⟩ := bind_ok_iff.1 hnames
      have hkind : token.kind ≠ .comment := by
        rw [show token.kind = .word from (Piece.mk.inj htoken).1]
        nofun
      obtain ⟨hplain, rfl⟩ := isPlainName_of_expect hkind hfirst
      refine List.forall_mem_cons.2 ⟨?_, ih hmore hbehind⟩
      rw [← show token.text = name from (Piece.mk.inj htoken).2]
      exact isIdentifier_of_isPlainName hplain

/-! ### Types and lengths -/

/-- That a type and a length are read from the pieces of a declaration. -/
def Typed (types : TypeTable) (s : SharedDeclaration) (type : TypeRef) (length : Option Expression) :
    Prop :=
  Reads Anything s.typing (typed types) fun read =>
    read.1 = type ∧ read.2.map (Expression.view .unplaced) = length

theorem Typed.unique {type type' : TypeRef} {length length' : Option Expression}
    (h : Typed types s type length) (h' : Typed types s type' length') :
    type = type' ∧ length = length' := by
  let tokens := s.typing.map fun piece => Token.mk piece.kind piece.text .first
  have htokens : tokens.map Token.piece = s.typing := by
    rw [List.map_map]
    exact List.map_id' _
  obtain ⟨read, hrun, rfl, rfl⟩ := h tokens htokens ⟨[], .spent⟩ trivial
  obtain ⟨read', hrun', rfl, rfl⟩ := h' tokens htokens ⟨[], .spent⟩ trivial
  rw [hrun] at hrun'
  cases hrun'
  exact ⟨rfl, rfl⟩

theorem endsAt_of_solid {stop : Piece} {tokens : List Token}
    (h : EndsAt stop (solid Token.solid? tokens)) (hends : EndsSolid tokens) :
    EndsAt stop (tokens.map Token.piece) := by
  obtain ⟨front, hfront, hinline⟩ := h
  rcases List.eq_nil_or_concat tokens with rfl | ⟨before, last, rfl⟩
  · exact absurd hfront (by simp [solid])
  have hlast : last.kind ≠ .comment := hends last (by simp)
  rw [List.concat_eq_append] at *
  rw [Outline.solid_append, Outline.solid_cons hlast] at hfront
  obtain ⟨rfl, hstop⟩ := List.append_inj' hfront rfl
  rw [← (List.cons.inj hstop).1, List.map_append]
  refine ⟨_, rfl, fun piece hpiece => ?_⟩
  obtain ⟨token, htoken, rfl⟩ := List.mem_map.1 hpiece
  by_cases hkind : token.kind = .comment
  · exact Token.not_isStop_of_kind (by rw [hkind]; decide)
  · exact hinline _ (List.mem_filterMap.2 ⟨token, htoken, Token.solid?_of_ne hkind⟩)

theorem typed_ok {tokens rest : List Token} {read : TypeRef × Option Expression} {d : Cursor}
    (htokens : tokens.map Token.piece = s.typing)
    (h : typed types ⟨tokens ++ rest, ending⟩ = .ok (read, d)) :
    d = ⟨rest, ending⟩ ∧ Typed types s read.1 (read.2.map (Expression.view .unplaced)) := by
  obtain ⟨used, hused, hshape, hends, hreplay⟩ := Takes.typed types _ read d h
  obtain ⟨hsame, hending⟩ := TokenStream.mk.inj hused
  obtain ⟨front, hfront, hinline⟩ := endsAt_of_solid hshape (hends rfl)
  have hword : Inline (.word s.type :: s.length) :=
    s.inline.cons (Outline.not_isStop_of_kind nofun)
  have hpieces := congrArg (List.map Token.piece) hsame
  rw [List.map_append, List.map_append, htokens, hfront, SharedDeclaration.typing, List.append_assoc,
    List.append_assoc, List.singleton_append, List.singleton_append] at hpieces
  obtain ⟨rfl, -⟩ := hword.first_stop hinline (.inl rfl) (.inl rfl) hpieces
  have htaken : used.map Token.piece = s.typing := hfront
  have hlength : tokens.length = used.length := by
    rw [← List.length_map (f := Token.piece), htokens, ← htaken, List.length_map]
  obtain ⟨rfl, rfl⟩ := List.append_inj hsame hlength
  refine ⟨by rw [hending], fun others hothers rest _ => ?_⟩
  obtain ⟨read', hrun, hkey⟩ := hreplay tokens.length others rest (hothers.trans htokens.symm)
    (Nat.le_refl _) nofun
  obtain ⟨htype, hlengths⟩ := Prod.mk.inj hkey
  exact ⟨read', hrun, htype.symm, hlengths.symm⟩

/-! ### Comments -/

theorem commentText_of_piece {token : Token} {piece : Piece} (h : token.piece = piece) :
    token.commentText = (Token.mk piece.kind piece.text .first).commentText := by
  subst h
  rfl

theorem documentation_ok {note rest : List Token} {read : Option String} {d : Cursor}
    (hnote : note.map Token.piece = s.note.toList)
    (hrest : ∀ token ∈ rest.head?, s.Follow token.piece)
    (h : documentation ⟨note ++ rest, ending⟩ = .ok (read, d)) :
    read = s.comment ∧ d = ⟨rest, ending⟩ := by
  unfold SharedDeclaration.comment
  cases hpiece : s.note with
  | some piece =>
    rw [hpiece] at hnote
    obtain ⟨token, rfl, htoken⟩ := List.map_eq_singleton_iff.1 hnote
    have hcomment : token.kind = .comment := by
      rw [← s.remark piece hpiece, ← htoken]
      rfl
    have hrun := (documentation_comment hcomment).symm.trans h
    cases hrun
    exact ⟨congrArg some (commentText_of_piece htoken), rfl⟩
  | none =>
    rw [hpiece] at hnote
    obtain rfl := List.map_eq_nil_iff.1 hnote
    cases rest with
    | nil =>
      have hrun := (documentation_nil ending).symm.trans h
      obtain ⟨pos, -, hresult⟩ := Except.map_ok_iff.1 hrun
      cases hresult
      exact ⟨rfl, rfl⟩
    | cons token more =>
      have hrun := (documentation_token (hrest token rfl hpiece)).symm.trans h
      cases hrun
      exact ⟨rfl, rfl⟩

theorem documentation_reads {note rest : List Token} {token : Token}
    (hnote : note.map Token.piece = s.note.toList) (htoken : s.Follow token.piece) :
    documentation ⟨note ++ token :: rest, ending⟩ = .ok (s.comment, ⟨token :: rest, ending⟩) := by
  unfold SharedDeclaration.comment
  cases hpiece : s.note with
  | some piece =>
    rw [hpiece] at hnote
    obtain ⟨first, rfl, hfirst⟩ := List.map_eq_singleton_iff.1 hnote
    have hcomment : first.kind = .comment := by
      rw [← s.remark piece hpiece, ← hfirst]
      rfl
    refine (documentation_comment hcomment).trans ?_
    rw [commentText_of_piece hfirst]
    rfl
  | none =>
    rw [hpiece] at hnote
    obtain rfl := List.map_eq_nil_iff.1 hnote
    exact documentation_token (htoken hpiece)

/-! ### Declarations -/

theorem exists_parts {names : List String} {tokens : List Token}
    (h : tokens.map Token.piece = listed names ++ s.tail) :
    ∃ naming typing note, tokens = naming ++ (typing ++ note) ∧
      naming.map Token.piece = listed names ++ [.mark ":"] ∧ typing.map Token.piece = s.typing ∧
        note.map Token.piece = s.note.toList := by
  have hsplit : listed names ++ s.tail
      = (listed names ++ [.mark ":"]) ++ (s.typing ++ s.note.toList) := by
    simp [SharedDeclaration.tail]
  rw [hsplit] at h
  obtain ⟨naming, behind, rfl, hnaming, hbehind⟩ := List.map_eq_append_iff.1 h
  obtain ⟨typing, note, rfl, htyping, hnote⟩ := List.map_eq_append_iff.1 hbehind
  exact ⟨naming, typing, note, rfl, hnaming, htyping, hnote⟩

theorem length_lt_of_listed {names : List String} {tokens : List Token}
    (h : tokens.map Token.piece = listed names ++ [.mark ":"]) : names.length < tokens.length := by
  rw [← List.length_map (f := Token.piece), h, List.length_append, List.length_singleton]
  have hlength : (listed names).length = (names.map fun _ => 2).sum := List.length_flatMap
  rw [hlength, List.map_const', List.sum_replicate_nat]
  omega

/-- A declaration that is read has identifiers for names, and a type and a length that are read. -/
theorem fieldDeclaration_shared {names : List String} {first : Token} {tokens rest : List Token}
    {fields : List Field} {d : Cursor} (htokens : tokens.map Token.piece = listed names ++ s.tail)
    (hrest : ∀ token ∈ rest.head?, s.Follow token.piece)
    (h : fieldDeclaration types first ⟨tokens ++ rest, ending⟩ = .ok (fields, d)) :
    (∀ name ∈ first.text :: names, Lexeme.isIdentifier name.toList = true) ∧ d = ⟨rest, ending⟩ ∧
      ∃ type length, Typed types s type length ∧
        fields.map (Field.view .unplaced) = (first.text :: names).map (s.field type length) := by
  obtain ⟨naming, typing, note, rfl, hnaming, htyping, hnote⟩ := exists_parts htokens
  rw [fieldDeclaration_eq] at h
  obtain ⟨hfirst, h⟩ := refuse_ok_iff.1 h
  obtain ⟨count, c, hcount, h⟩ := bind_ok_iff.1 h
  cases hcount
  obtain ⟨more, c, hmore, h⟩ := bind_ok_iff.1 h
  rw [List.append_assoc] at hmore
  dsimp only at hmore
  have hnames := moreNames_listed hnaming hmore
  have hsteps : names.length < (naming ++ (typing ++ note ++ rest)).length + 1 := by
    have hless := length_lt_of_listed hnaming
    rw [List.length_append]
    omega
  obtain ⟨more', hmore', hpieces⟩ := moreNames_reads hnames hsteps naming hnaming
    ⟨typing ++ note ++ rest, ending⟩ trivial
  rw [hmore'] at hmore
  cases hmore
  obtain ⟨read, c, htyped, h⟩ := bind_ok_iff.1 h
  rw [List.append_assoc] at htyped
  obtain ⟨rfl, htypes⟩ := typed_ok htyping htyped
  obtain ⟨comment, c, hcomment, h⟩ := bind_ok_iff.1 h
  obtain ⟨rfl, rfl⟩ := documentation_ok hnote hrest hcomment
  obtain ⟨rfl, rfl⟩ := pure_ok_iff.1 h
  refine ⟨List.forall_mem_cons.2 ⟨isIdentifier_of_isPlainName (by simpa using hfirst), hnames⟩, rfl,
    read.1, _, htypes, ?_⟩
  rw [Takes.view_fields, List.map_cons, hpieces, List.map_cons, List.map_cons, List.map_map]
  rfl

/-- Where names are identifiers and their type and length are read, a declaration of them is. -/
theorem fieldDeclaration_reads {names : List String} {first token : Token} {tokens rest : List Token}
    {type : TypeRef} {length : Option Expression} (hkind : first.kind = .word)
    (hnames : ∀ name ∈ first.text :: names, Lexeme.isIdentifier name.toList = true)
    (htyped : Typed types s type length) (htokens : tokens.map Token.piece = listed names ++ s.tail)
    (htoken : s.Follow token.piece) :
    ∃ fields, fieldDeclaration types first ⟨tokens ++ token :: rest, ending⟩
        = .ok (fields, ⟨token :: rest, ending⟩) ∧
      fields.map (Field.view .unplaced) = (first.text :: names).map (s.field type length) := by
  obtain ⟨naming, typing, note, rfl, hnaming, htyping, hnote⟩ := exists_parts htokens
  obtain ⟨hfirst, hothers⟩ := List.forall_mem_cons.1 hnames
  have hplain : ¬ (!isPlainName first) = true := by simp [isPlainName, hkind, hfirst]
  let behind := typing ++ (note ++ token :: rest)
  have htokens : naming ++ (typing ++ note) ++ token :: rest = naming ++ behind := by simp [behind]
  have hsteps : names.length < (naming ++ behind).length + 1 := by
    have hless := length_lt_of_listed hnaming
    rw [List.length_append]
    omega
  obtain ⟨more, hmore, hpieces⟩ := moreNames_reads hothers hsteps naming hnaming ⟨behind, ending⟩ trivial
  obtain ⟨read, hread, rfl, rfl⟩ := htyped typing htyping ⟨note ++ token :: rest, ending⟩ trivial
  refine ⟨(first :: more).map fun name =>
    { name := name.text, type := read.1, pos := name.pos, length := read.2, comment := s.comment },
    ?_, ?_⟩
  · rw [fieldDeclaration_eq, htokens]
    refine refuse_ok_iff.2 ⟨hplain, bind_ok_iff.2 ⟨_, _, rfl, bind_ok_iff.2 ⟨more, _, hmore, ?_⟩⟩⟩
    refine bind_ok_iff.2 ⟨read, _, hread, bind_ok_iff.2 ⟨s.comment, _, ?_, rfl⟩⟩
    exact documentation_reads hnote htoken
  · rw [Takes.view_fields, List.map_cons, hpieces, List.map_cons, List.map_cons, List.map_map]
    rfl

/-! ### Nodes -/

theorem nodes_declared {first : Token} {tokens : List Token} {steps : Nat} (hkind : first.kind = .word)
    (hfree : Control.ofWord? first.text = none) :
    nodes types (steps + 1) ⟨first :: tokens, ending⟩ =
      (fieldDeclaration types first >>= fun fields => nodes types steps >>= fun rest =>
        pure (fields.map .field ++ rest)) ⟨tokens, ending⟩ := by
  have hword : ¬ first.kind ≠ .word := not_not_intro hkind
  rw [nodes, next_bind_cons (Token.solid_of_word hkind),
    if_neg (Token.not_isPunctuation_of_word (Token.piece_of_word hkind) _), if_neg hword, hfree]

theorem nodes_free {first mark : Token} {tokens : List Token} {steps : Nat} {read : List Node} {d : Cursor}
    (hkind : first.kind = .word) (hmark : mark.piece = .mark "," ∨ mark.piece = .mark ":")
    (h : nodes types steps ⟨first :: mark :: tokens, ending⟩ = .ok (read, d)) :
    Control.ofWord? first.text = none := by
  cases steps with
  | zero => exact (unexpectedEnd_ok_iff.1 h).elim
  | succ steps =>
    cases hcontrol : Control.ofWord? first.text with
    | none => rfl
    | some control =>
      exfalso
      have hword : ¬ first.kind ≠ .word := not_not_intro hkind
      unfold nodes at h
      rw [next_bind_cons (Token.solid_of_word hkind),
        if_neg (Token.not_isPunctuation_of_word (Token.piece_of_word hkind) _), if_neg hword, hcontrol] at h
      obtain ⟨_, _, hhead, -⟩ := bind_ok_iff.1 h
      obtain ⟨_, _, hopen, -⟩ := bind_ok_iff.1 hhead
      rcases hmark with hmark | hmark <;>
        · obtain ⟨hopen, -⟩ := isPunctuation_of_expect (Token.solid_of_mark hmark) hopen
          exact absurd (hmark.symm.trans (Token.isPunctuation_iff.1 hopen)) (by decide)

/-- What is read from a declaration at the head of a body, and from the rest of the body. -/
theorem nodes_shared {names : List String} {first : Token} {tokens rest : List Token} {steps : Nat}
    {read : List Node} {d : Cursor} (hkind : first.kind = .word)
    (htokens : tokens.map Token.piece = listed names ++ s.tail)
    (hrest : ∀ token ∈ rest.head?, s.Follow token.piece)
    (h : nodes types steps ⟨first :: (tokens ++ rest), ending⟩ = .ok (read, d)) :
    (∀ name ∈ first.text :: names, Lexeme.isIdentifier name.toList = true) ∧
      Control.ofWord? first.text = none ∧ ∃ type length fewer behind, Typed types s type length ∧
        nodes types fewer ⟨rest, ending⟩ = .ok (behind, d) ∧
          bodyView .unplaced read = ((first.text :: names).map (s.field type length)).map Node.field
            ++ bodyView .unplaced behind := by
  have hfree : Control.ofWord? first.text = none := by
    cases names with
    | nil =>
      obtain ⟨mark, more, rfl, hmark, -⟩ := List.map_eq_cons_iff.1 htokens
      exact nodes_free hkind (.inr hmark) h
    | cons name names =>
      obtain ⟨mark, more, rfl, hmark, -⟩ := List.map_eq_cons_iff.1 htokens
      exact nodes_free hkind (.inl hmark) h
  cases steps with
  | zero => exact (unexpectedEnd_ok_iff.1 h).elim
  | succ steps =>
    rw [nodes_declared hkind hfree] at h
    obtain ⟨fields, c, hfields, h⟩ := bind_ok_iff.1 h
    obtain ⟨hnames, rfl, type, length, htyped, hview⟩ := fieldDeclaration_shared htokens hrest hfields
    obtain ⟨behind, c, hbehind, h⟩ := bind_ok_iff.1 h
    obtain ⟨rfl, rfl⟩ := pure_ok_iff.1 h
    refine ⟨hnames, hfree, type, length, steps, behind, htyped, hbehind, ?_⟩
    rw [bodyView_append, bodyView_map_field, hview]

theorem nodes_reads {names : List String} {first token : Token} {tokens rest : List Token}
    {type : TypeRef} {length : Option Expression} {steps : Nat} {behind : List Node} {d : Cursor}
    (hkind : first.kind = .word) (hfree : Control.ofWord? first.text = none)
    (hnames : ∀ name ∈ first.text :: names, Lexeme.isIdentifier name.toList = true)
    (htyped : Typed types s type length) (htokens : tokens.map Token.piece = listed names ++ s.tail)
    (htoken : s.Follow token.piece)
    (h : nodes types steps ⟨token :: rest, ending⟩ = .ok (behind, d)) :
    ∃ read, nodes types (steps + 1) ⟨first :: (tokens ++ token :: rest), ending⟩ = .ok (read, d) ∧
      bodyView .unplaced read = ((first.text :: names).map (s.field type length)).map Node.field
        ++ bodyView .unplaced behind := by
  obtain ⟨fields, hfields, hview⟩ := fieldDeclaration_reads hkind hnames htyped htokens htoken
  refine ⟨fields.map .field ++ behind, ?_, ?_⟩
  · rw [nodes_declared hkind hfree]
    exact bind_ok_iff.2 ⟨fields, _, hfields, bind_ok_iff.2 ⟨behind, d, h, rfl⟩⟩
  · rw [bodyView_append, bodyView_map_field, hview]

theorem follow_apart {names : List String} {tokens rest : List Token}
    (htokens : tokens.map Token.piece = s.apart names)
    (hrest : ∀ token ∈ rest.head?, s.Follow token.piece) :
    ∀ token ∈ (tokens ++ rest).head?, s.Follow token.piece := by
  cases names with
  | nil =>
    obtain rfl := List.map_eq_nil_iff.1 htokens
    exact hrest
  | cons name names =>
    obtain ⟨first, more, rfl, hfirst, -⟩ := List.map_eq_cons_iff.1 htokens
    rintro _ ⟨⟩ _
    rw [hfirst]
    exact Piece.word_kind name

/-- What is read from declarations one by one. -/
theorem nodes_apart {names : List String} {tokens rest : List Token} {type : TypeRef}
    {length : Option Expression} {steps : Nat} {read : List Node} {d : Cursor}
    (htyped : Typed types s type length) (htokens : tokens.map Token.piece = s.apart names)
    (hrest : ∀ token ∈ rest.head?, s.Follow token.piece)
    (h : nodes types steps ⟨tokens ++ rest, ending⟩ = .ok (read, d)) :
    (∀ name ∈ names, Lexeme.isIdentifier name.toList = true ∧ Control.ofWord? name = none) ∧
      ∃ fewer behind, nodes types fewer ⟨rest, ending⟩ = .ok (behind, d) ∧
        bodyView .unplaced read = (names.map (s.field type length)).map Node.field
          ++ bodyView .unplaced behind := by
  induction names generalizing tokens steps read with
  | nil =>
    obtain rfl := List.map_eq_nil_iff.1 htokens
    exact ⟨List.forall_mem_nil _, steps, read, h, rfl⟩
  | cons name names ih =>
    obtain ⟨first, more, rfl, hfirst, hmore⟩ := List.map_eq_cons_iff.1 htokens
    obtain ⟨single, others, rfl, hsingle, hothers⟩ := List.map_eq_append_iff.1 hmore
    obtain ⟨hkind, rfl⟩ := Piece.mk.inj hfirst
    rw [List.cons_append, List.append_assoc] at h
    have hsingle : single.map Token.piece = listed [] ++ s.tail := hsingle
    obtain ⟨hnames, hfree, type', length', fewer, behind, htyped', hbehind, hview⟩ :=
      nodes_shared hkind hsingle (follow_apart hothers hrest) h
    obtain ⟨rfl, rfl⟩ := htyped.unique htyped'
    obtain ⟨hothers, fewest, last, hlast, hviews⟩ := ih hothers hbehind
    refine ⟨List.forall_mem_cons.2 ⟨⟨hnames _ List.mem_cons_self, hfree⟩, hothers⟩, fewest, last, hlast, ?_⟩
    rw [hview, hviews]
    rfl

theorem nodes_apart_reads {names : List String} {token : Token} {tokens rest : List Token}
    {type : TypeRef} {length : Option Expression} {least steps : Nat} {view : List Node} {d : Cursor}
    (hnames : ∀ name ∈ names, Lexeme.isIdentifier name.toList = true ∧ Control.ofWord? name = none)
    (htyped : Typed types s type length) (htokens : tokens.map Token.piece = s.apart names)
    (htoken : s.Follow token.piece)
    (h : ∀ steps, least ≤ steps → ∃ behind, nodes types steps ⟨token :: rest, ending⟩ = .ok (behind, d) ∧
      bodyView .unplaced behind = view)
    (hsteps : tokens.length + least ≤ steps) :
    ∃ read, nodes types steps ⟨tokens ++ token :: rest, ending⟩ = .ok (read, d) ∧
      bodyView .unplaced read = (names.map (s.field type length)).map Node.field ++ view := by
  induction names generalizing tokens steps with
  | nil =>
    obtain rfl := List.map_eq_nil_iff.1 htokens
    obtain ⟨behind, hbehind, rfl⟩ := h steps (by simpa using hsteps)
    exact ⟨behind, hbehind, rfl⟩
  | cons name names ih =>
    obtain ⟨⟨hname, hfree⟩, hothers⟩ := List.forall_mem_cons.1 hnames
    obtain ⟨first, more, rfl, hfirst, hmore⟩ := List.map_eq_cons_iff.1 htokens
    obtain ⟨single, others, rfl, hsingle, hapart⟩ := List.map_eq_append_iff.1 hmore
    obtain ⟨hkind, rfl⟩ := Piece.mk.inj hfirst
    have hsingle : single.map Token.piece = listed [] ++ s.tail := hsingle
    simp only [List.length_cons, List.length_append] at hsteps
    obtain ⟨steps, rfl⟩ : ∃ fewer, steps = fewer + 1 := ⟨steps - 1, by omega⟩
    obtain ⟨behind, hbehind, hview⟩ := ih hothers hapart (by omega : _ ≤ steps)
    have hfollow : ∀ other ∈ (others ++ token :: rest).head?, s.Follow other.piece := by
      refine follow_apart hapart ?_
      rintro _ ⟨⟩
      exact htoken
    obtain ⟨next, last, hlast⟩ := List.exists_cons_of_ne_nil
      (List.append_ne_nil_of_right_ne_nil others (List.cons_ne_nil token rest))
    rw [hlast] at hbehind hfollow
    obtain ⟨read, hread, hviews⟩ := nodes_reads hkind hfree (List.forall_mem_singleton.2 hname) htyped
      hsingle (hfollow next rfl) hbehind
    refine ⟨read, ?_, ?_⟩
    · rw [List.cons_append, List.append_assoc, hlast]
      exact hread
    · rw [hviews, hview]
      rfl

/-- What is read behind a row is read behind another one too, and begins with the same piece. -/
theorem exists_behind {back : List Token} {steps : Nat} {behind : List Node} {d : Cursor}
    (hback : ∀ token ∈ back.head?, s.Follow token.piece)
    (h : nodes types steps ⟨back, ending⟩ = .ok (behind, d)) :
    d.ending = ending ∧ ∃ used, back = used ++ d.tokens ∧
      ∀ (used' : List Token) (rest : Cursor), used'.map Token.piece = used.map Token.piece →
        ∃ token more, used' = token :: more ∧ s.Follow token.piece ∧
          ∀ steps, used'.length ≤ steps → ∃ behind',
            nodes types steps ⟨token :: (more ++ rest.tokens), rest.ending⟩ = .ok (behind', rest) ∧
              bodyView .unplaced behind' = bodyView .unplaced behind := by
  obtain ⟨used, hused, hclosing, -, hreplay⟩ := Takes.nodes types steps _ behind d h
  obtain ⟨rfl, rfl⟩ := TokenStream.mk.inj hused
  refine ⟨rfl, used, rfl, fun used' rest hpieces => ?_⟩
  have hne : used ≠ [] := by
    rintro rfl
    exact hclosing.ne_nil rfl
  obtain ⟨first, tail, rfl⟩ := List.exists_cons_of_ne_nil hne
  obtain ⟨token, more, rfl, htoken, -⟩ := List.map_eq_cons_iff.1 hpieces
  refine ⟨token, more, rfl, ?_, fun steps hsteps => ?_⟩
  · rw [htoken]
    exact hback first rfl
  · have hlength : (first :: tail).length ≤ steps := by
      rw [← List.length_map (f := Token.piece), ← hpieces, List.length_map]
      exact hsteps
    obtain ⟨behind', hbehind', hview⟩ := hreplay steps _ rest hpieces hlength nofun
    exact ⟨behind', hbehind', hview.symm⟩

end Reader

/-! ### Exchanges -/

namespace SharedDeclaration

variable (s : SharedDeclaration)

theorem listed_inline (names : List String) : Inline (listed names) := by
  intro piece hpiece
  obtain ⟨name, -, hpiece⟩ := List.mem_flatMap.1 hpiece
  simp only [List.mem_cons, List.not_mem_nil, or_false] at hpiece
  rcases hpiece with rfl | rfl
  · exact Outline.not_isStop_of_mark (by decide)
  · exact Outline.not_isStop_of_kind nofun

theorem tail_ended (names : List String) (rest : List Piece) :
    ∃ front behind, listed names ++ (s.tail ++ rest) = front ++ .mark ";" :: behind ∧ Inline front := by
  refine ⟨listed names ++ (.mark ":" :: .word s.type :: s.length), s.note.toList ++ rest, ?_, ?_⟩
  · simp [tail, typing]
  · have hlength := s.inline.cons (Outline.not_isStop_of_kind nofun : ¬ IsStop (.word s.type))
    exact (listed_inline names).append (hlength.cons (Outline.not_isStop_of_mark (by decide)))

/-- The declaration of all names, in the place of which there are to be declarations one by one. -/
def split : Exchange where
  word := s.name
  old := listed s.others ++ s.tail
  new := s.tail ++ s.apart s.others
  follow := s.Follow
  marked := by
    cases s.others with
    | nil => exact .inr ⟨s.type, _, rfl⟩
    | cons name names => exact .inl ⟨_, rfl⟩
  ended := by
    have hended := s.tail_ended s.others []
    rwa [List.append_nil] at hended

/-- The declarations one by one, in the place of which there is to be one of all names. -/
def join : Exchange where
  word := s.name
  old := s.tail ++ s.apart s.others
  new := listed s.others ++ s.tail
  follow := s.Follow
  marked := .inr ⟨s.type, _, rfl⟩
  ended := s.tail_ended [] _

end SharedDeclaration

namespace Reader

variable {s : SharedDeclaration}

open SharedDeclaration (listed)

/-- Declarations one by one are read where the declaration of all names is, if no keyword is among the
names behind the first one. -/
theorem rows_split (hfree : ∀ name ∈ s.others, Control.ofWord? name = none) (types : TypeTable)
    (steps : Nat) : Rows s.split true (bodyView .unplaced) (nodes types steps) (nodes types) := by
  intro row back ending read d hrow hback h
  obtain ⟨first, tokens, rfl, hfirst, htokens⟩ := List.map_eq_cons_iff.1 hrow
  obtain ⟨hkind, htext⟩ := Piece.mk.inj hfirst
  obtain ⟨hnames, hcontrol, type, length, fewer, behind, htyped, hbehind, hview⟩ :=
    nodes_shared hkind htokens hback h
  obtain ⟨hending, used, hused, hagain⟩ := exists_behind hback hbehind
  refine ⟨hending, rfl, used, hused, ?_⟩
  intro steps' front' row' used' rest hfront' hrow' hused' hsteps
  obtain rfl := List.map_eq_nil_iff.1 hfront'
  obtain ⟨token, more, rfl, htoken, hreads⟩ := hagain used' rest hused'
  have hall : ∀ name ∈ s.name :: s.others,
      Lexeme.isIdentifier name.toList = true ∧ Control.ofWord? name = none := by
    rw [← show first.text = s.name from htext]
    refine List.forall_mem_cons.2 ⟨⟨hnames _ List.mem_cons_self, hcontrol⟩, fun name hname => ?_⟩
    exact ⟨hnames name (List.mem_cons_of_mem _ hname), hfree name hname⟩
  obtain ⟨read', hread', hview'⟩ := nodes_apart_reads hall htyped hrow' htoken hreads
    (by simpa using hsteps)
  refine ⟨read', hread', ?_⟩
  rw [hview, hview', show first.text = s.name from htext]

/-- The declaration of all names is read where declarations one by one are. There are none where a keyword
is among the names behind the first one. -/
theorem rows_join {through : Bool}
    (hfree : (∀ name ∈ s.others, Control.ofWord? name = none) → through = true) (types : TypeTable)
    (steps : Nat) : Rows s.join through (bodyView .unplaced) (nodes types steps) (nodes types) := by
  intro row back ending read d hrow hback h
  obtain ⟨first, tokens, rfl, hfirst, htokens⟩ := List.map_eq_cons_iff.1 hrow
  obtain ⟨single, others, rfl, hsingle, hothers⟩ := List.map_eq_append_iff.1 htokens
  obtain ⟨hkind, htext⟩ := Piece.mk.inj hfirst
  have hsingle : single.map Token.piece = listed [] ++ s.tail := hsingle
  rw [List.cons_append, List.append_assoc] at h
  obtain ⟨hnames, hcontrol, type, length, fewer, between, htyped, hbetween, hview⟩ :=
    nodes_shared hkind hsingle (follow_apart hothers hback) h
  obtain ⟨hall, fewest, behind, hbehind, hviews⟩ := nodes_apart htyped hothers hback hbetween
  obtain ⟨hending, used, hused, hagain⟩ := exists_behind hback hbehind
  refine ⟨hending, hfree fun name hname => (hall name hname).2, used, hused, ?_⟩
  intro steps' front' row' used' rest hfront' hrow' hused' hsteps
  obtain rfl := List.map_eq_nil_iff.1 hfront'
  obtain ⟨token, more, rfl, htoken, hreads⟩ := hagain used' rest hused'
  obtain ⟨first', tokens', rfl, hfirst', htokens'⟩ := List.map_eq_cons_iff.1 hrow'
  obtain ⟨hkind', htext'⟩ := Piece.mk.inj hfirst'
  have hsame : first'.text = first.text := htext'.trans htext.symm
  simp only [List.length_cons] at hsteps
  obtain ⟨steps', rfl⟩ : ∃ fewer, steps' = fewer + 1 := ⟨steps' - 1, by omega⟩
  obtain ⟨behind', hbehind', hsames⟩ := hreads steps' (by simp only [List.length_cons]; omega)
  have hidentifiers : ∀ name ∈ first'.text :: s.others, Lexeme.isIdentifier name.toList = true := by
    rw [hsame]
    exact List.forall_mem_cons.2 ⟨hnames _ List.mem_cons_self, fun name hname => (hall name hname).1⟩
  obtain ⟨read', hread', hview'⟩ := nodes_reads hkind' (hsame ▸ hcontrol) hidentifiers htyped htokens'
    htoken hbehind'
  refine ⟨read', hread', ?_⟩
  rw [hview, hviews, hview', hsames, hsame]
  rfl

end Reader

end BinarySchema
