import BinarySchema.Proofs.Schema.Exchange

/-!
# Rows among declarations

What the readers of the grammar make of a source in which a row of tokens is exchanged, in the order of
the grammar. All of them come down to the nodes of bodies: a bitfield's member has a number behind its
colon and the row has none, an enum's members are separated by commas and not by semicolons, and behind a
keyword stands a name and no mark.
-/

namespace BinarySchema

open Outline (Inline EndsAt IsStop)

namespace Reader.Trades

variable {κ : Type} {ex : Exchange} {through : Bool}

theorem dropLast_endsAt {stop : Piece} {pieces : List Piece} (h : EndsAt stop pieces) :
    Inline pieces.dropLast := by
  obtain ⟨front, rfl, hfront⟩ := h
  rwa [List.dropLast_concat]

/-- The nodes of a body go through the row if they do where they begin with it. -/
theorem nodes {types : TypeTable}
    (hrows : ∀ steps, Rows ex through (bodyView .unplaced) (Reader.nodes types steps) (Reader.nodes types))
    (steps : Nat) :
    Trades ex through true true (bodyView .unplaced) (Reader.nodes types steps) (Reader.nodes types) := by
  induction steps with
  | zero => exact unexpectedEnd _ _
  | succ steps ih =>
    refine next_bind (fun _ => rfl) (fun token pos _ bare' hbare' => ite (fun _ => pure _) fun _ =>
      ite (fun _ => throw_bind _ _ _) fun hword => ?_) (hrows (steps + 1))
    have hstop := Token.not_isStop_of_word (Decidable.of_not_not hword)
    obtain rfl := hbare'.resolve_left hstop
    dsimp only
    split
    · refine bind_inline (Takes.blockHead _ token pos) (fun _ _ h => h) fun head other hhead => ?_
      refine bind_sentence (Takes.expectStop "\x7b") (fun _ _ => dropLast_endsAt) fun _ _ _ => ?_
      have hrest (inner inners : List Node)
          (hinner : bodyView .unplaced inner = bodyView .unplaced inners) (rest rests : List Node)
          (hrest : bodyView .unplaced rest = bodyView .unplaced rests) :
          bodyView .unplaced (.block head inner :: rest)
            = bodyView .unplaced (.block other inners :: rests) := by
        rw [bodyView, bodyView, Node.view, Node.view, hhead, hinner, hrest]
      refine bind (Takes.nodes types steps) ih (fun _ inner inners hinner => ?_)
        (fun inner inners hinner => bind_pure ih (hrest inner inners hinner)) id
      refine ⟨fun _ => Outline.Closing, ?_⟩
      exact Takes.bind_pure (Takes.nodes types steps) (hrest inner inners hinner) fun _ _ h => h
    · refine bind_sentence (Takes.fieldDeclaration types token pos) (fun _ _ => dropLast_endsAt)
        fun fields others hfields => bind_pure ih fun rest rests hrest => ?_
      rw [bodyView_append, bodyView_append, bodyView_map_field, bodyView_map_field, hfields, hrest]

theorem freshName_inline {token : Token} {pieces : List Piece}
    (h : pieces = [token.piece] ∧ token.kind = .word) : Inline pieces := by
  obtain ⟨rfl, hkind⟩ := h
  exact Inline.nil.cons (Token.not_isStop_of_word hkind)

theorem baseType_inline {pieces : List Piece} (h : ∃ base : String, pieces = [.word base]) :
    Inline pieces := by
  obtain ⟨text, rfl⟩ := h
  exact Inline.nil.cons (Outline.not_isStop_of_kind nofun)

theorem exists_marked {row : List Token} (hrow : ex.IsOld row) : ∃ first mark rest,
    row = first :: mark :: rest ∧ first.kind = .word ∧
      (mark.piece = .mark "," ∨ mark.piece = .mark ":" ∧
        ∃ type others, rest = type :: others ∧ type.kind = .word) := by
  obtain ⟨first, rest, rfl, hfirst, -, hrest⟩ := hrow.exists_cons
  have hkind : first.kind = .word := (Piece.mk.inj hfirst).1
  rcases ex.marked with ⟨others, hold⟩ | ⟨type, others, hold⟩
  · rw [hold] at hrest
    obtain ⟨mark, tail, rfl, hmark, -⟩ := List.map_eq_cons_iff.1 hrest
    exact ⟨first, mark, tail, rfl, hkind, .inl hmark⟩
  · rw [hold] at hrest
    obtain ⟨mark, tail, rfl, hmark, htail⟩ := List.map_eq_cons_iff.1 hrest
    obtain ⟨word, more, rfl, hword, -⟩ := List.map_eq_cons_iff.1 htail
    exact ⟨first, mark, word :: more, rfl, hkind,
      .inr ⟨hmark, word, more, rfl, (Piece.mk.inj hword).1⟩⟩

theorem rows_bitfieldMembers {key : List BitfieldMember → κ} (steps : Nat) :
    Rows ex through key (Reader.bitfieldMembers steps) Reader.bitfieldMembers := by
  intro row back ending members d hrow _ hrun
  cases steps with
  | zero => exact (unexpectedEnd_ok_iff.1 hrun).elim
  | succ steps =>
    exfalso
    obtain ⟨first, mark, rest, rfl, hfirst, hmark⟩ := exists_marked hrow
    have hmember := (next_bind_cons (Token.solid_of_word hfirst) _).symm.trans hrun
    rw [if_neg (Token.not_isPunctuation_of_word (Token.piece_of_word hfirst) _)] at hmember
    obtain ⟨-, hmember⟩ := refuse_ok_iff.1 hmember
    obtain ⟨_, c, hcolon, hmember⟩ := bind_ok_iff.1 hmember
    obtain ⟨_, _, hnumber, -⟩ := bind_ok_iff.1 hmember
    rcases hmark with hmark | ⟨hmark, type, others, rfl, htype⟩
    · obtain ⟨hcolon, -⟩ := isPunctuation_of_expect (Token.solid_of_mark hmark) hcolon
      exact absurd (hmark.symm.trans (Token.isPunctuation_iff.1 hcolon)) (by decide)
    · obtain ⟨-, rfl⟩ := isPunctuation_of_expect (Token.solid_of_mark hmark) hcolon
      have hword := (next_bind_cons (Token.solid_of_word htype) _).symm.trans hnumber
      rw [if_neg (by rw [htype]; nofun)] at hword
      exact throw_ok_iff.1 hword

/-- The row does not begin a declaration: behind a keyword stands no mark. -/
theorem not_declaration {types : TypeTable} {keyword mark : Token} {rest : List Token} {ending : Ending}
    {declared : Declaration} {d : Cursor}
    (hmark : mark.piece = .mark "," ∨ mark.piece = .mark ":") :
    declaration types keyword ⟨mark :: rest, ending⟩ ≠ .ok (declared, d) := by
  intro hrun
  have hkind : mark.kind = .punctuation := by
    rcases hmark with hmark | hmark <;> exact (Piece.mk.inj hmark).1
  have hsolid : mark.kind ≠ .comment := by
    rw [hkind]
    decide
  have hname {f : Token → Reader Definition} (a : Definition) (d : Cursor) :
      (freshName types >>= f) ⟨mark :: rest, ending⟩ ≠ .ok (a, d) := by
    intro hrun
    obtain ⟨_, _, hfresh, -⟩ := bind_ok_iff.1 hrun
    obtain ⟨_, _, hname, -⟩ := bind_ok_iff.1 hfresh
    have hplain : ¬ isPlainName mark = true := by simp [isPlainName, hkind]
    exact hplain (isPlainName_of_expect hsolid hname).1
  rcases declaration_cases hrun with
    ⟨directive, -, hinclude⟩ | ⟨definition, -, hdefinition⟩ | ⟨read, -, hbody⟩
  · have hthrow := (next_bind_cons hsolid _).symm.trans hinclude
    rw [hkind] at hthrow
    obtain ⟨_, _, hthrow, -⟩ := bind_ok_iff.1 hthrow
    exact throw_ok_iff.1 hthrow
  · rcases hdefinition with hstruct | henum | hbitfield
    · exact hname _ _ hstruct
    · exact hname _ _ henum
    · exact hname _ _ hbitfield
  · obtain ⟨_, _, hopen, -⟩ := bind_ok_iff.1 hbody
    obtain ⟨hopen, -⟩ := isPunctuation_of_expect hsolid hopen
    have hpiece := Token.isPunctuation_iff.1 hopen
    rcases hmark with hmark | hmark <;> exact absurd (hmark.symm.trans hpiece) (by decide)

theorem enumDefinition (types : TypeTable) :
    Trades ex through false true (Definition.view .unplaced) (Reader.enumDefinition types)
      fun _ => Reader.enumDefinition types := by
  refine bind_inline (Takes.freshName types) (fun _ _ => freshName_inline) fun name other hname => ?_
  obtain ⟨-, htext⟩ := Piece.mk.inj hname
  refine bind_inline (Takes.expectInline (by decide)) (fun _ _ h => h) fun _ _ _ => ?_
  refine bind_inline Takes.baseType (fun _ _ => baseType_inline) ?_
  rintro base _ rfl
  refine bind_sentence (Takes.expectStop "\x7b") (fun _ _ => dropLast_endsAt) fun _ _ _ => ?_
  refine remaining_bind fun count => ?_
  simp only [← bind_assoc]
  refine bind_pure (of_closer (Takes.enumRow count)) ?_
  rintro members _ rfl
  rw [Definition.view, Definition.view, htext]
  rfl

theorem bitfieldMembers (steps : Nat) :
    Trades ex through true true id (Reader.bitfieldMembers steps) Reader.bitfieldMembers := by
  induction steps with
  | zero => exact unexpectedEnd _ _
  | succ steps ih =>
    refine next_bind (fun _ => rfl) (fun token pos _ bare' hbare' => ite (fun _ => pure _) fun _ =>
      ite (fun _ => throw_bind _ _ _) fun hname => ?_) (rows_bitfieldMembers (steps + 1))
    obtain rfl := hbare'.resolve_left (Takes.not_isStop_of_isPlainName hname)
    refine bind_inline (Takes.expectInline (by decide)) (fun _ _ h => h) fun _ _ _ => ?_
    refine bind_inline Takes.expectNumberInline (fun _ _ h => h) ?_
    rintro width _ rfl
    refine bind_sentence (Takes.expectStop ";") (fun _ _ => dropLast_endsAt) fun _ _ _ => ?_
    refine bind Takes.documentation
      (of_silent Takes.documentation : Trades ex false true true id _ _) nofun ?_ nofun
    rintro comment _ rfl
    refine bind_pure ih ?_
    rintro rest _ rfl
    rfl

theorem bitfieldDefinition (types : TypeTable) :
    Trades ex through false true (Definition.view .unplaced) (Reader.bitfieldDefinition types)
      fun _ => Reader.bitfieldDefinition types := by
  refine bind_inline (Takes.freshName types) (fun _ _ => freshName_inline) fun name other hname => ?_
  obtain ⟨-, htext⟩ := Piece.mk.inj hname
  refine bind_inline (Takes.expectInline (by decide)) (fun _ _ h => h) fun _ _ _ => ?_
  refine bind_inline Takes.baseType (fun _ _ => baseType_inline) ?_
  rintro base _ rfl
  refine bind_sentence (Takes.expectStop "\x7b") (fun _ _ => dropLast_endsAt) fun _ _ _ => ?_
  refine remaining_bind fun count => bind_pure (bitfieldMembers (count + 1)).more ?_
  rintro members _ rfl
  rw [Definition.view, Definition.view, htext]
  rfl

theorem includeDirective :
    Trades ex through false true (fun directive => (directive.1.piece, directive.2))
      Draft.includeDirective fun _ => Draft.includeDirective := by
  refine of_sentence Takes.includeDirective ?_
  rintro directive _ ⟨rfl, hname⟩
  exact Inline.nil.cons (Outline.not_isStop_of_kind (Piece.kind_of_includedName? hname))

section

variable (hrows : ∀ types steps,
  Rows ex through (bodyView .unplaced) (Reader.nodes types steps) (Reader.nodes types))

include hrows

theorem body (types : TypeTable) :
    Trades ex through false true (bodyView .unplaced) (Reader.body types) fun _ => Reader.body types := by
  refine bind_sentence (Takes.expectStop "\x7b") (fun _ _ => dropLast_endsAt) fun _ _ _ => ?_
  exact remaining_bind fun count => (nodes (hrows types) (count + 1)).more

theorem structDefinition (types : TypeTable) :
    Trades ex through false true (Definition.view .unplaced) (Reader.structDefinition types)
      fun _ => Reader.structDefinition types := by
  refine bind_inline (Takes.freshName types) (fun _ _ => freshName_inline) fun name other hname => ?_
  obtain ⟨-, htext⟩ := Piece.mk.inj hname
  rw [← htext]
  refine bind_pure (body hrows _) fun members others hmembers => ?_
  rw [Definition.view, Definition.view, hmembers, htext]
  rfl

theorem declaration (types : TypeTable) (keyword : Token) (pos : Position) {bare : Bool}
    (hbare : IsStop keyword.piece ∨ bare = false) :
    Trades ex through bare true (Declaration.view .unplaced) (Reader.declaration types keyword)
      fun _ => Reader.declaration types { keyword with pos } := by
  have hfirm {text : String} (hword : keyword.isWord text = true) : bare = false := by
    refine hbare.resolve_left ?_
    rw [Takes.piece_of_isWord hword]
    exact Outline.not_isStop_of_kind nofun
  have hdefine {x : Reader Definition} (hx : Trades ex through false true (Definition.view .unplaced) x
      fun _ => x) : Trades ex through false true (Declaration.view .unplaced)
        (x >>= fun d => Pure.pure (.definition d)) fun _ => x >>= fun d => Pure.pure (.definition d) := by
    refine bind_pure hx fun d other hd => ?_
    rw [Declaration.view, Declaration.view, hd]
  unfold Reader.declaration
  refine ite (fun hword => ?_) fun _ => ite (fun hword => ?_) fun _ => ite (fun hword => ?_) fun _ =>
    ite (fun hword => ?_) fun _ => ite (fun hword => ?_) fun _ => throw _ _
  all_goals
    obtain rfl := hfirm hword
  · refine bind_pure includeDirective fun directive other hsame => ?_
    obtain ⟨hpiece, hname⟩ := Prod.mk.inj hsame
    rw [Declaration.view, Declaration.view, hname, Token.eq_of_piece hpiece.symm]
    rfl
  · exact hdefine (structDefinition hrows types)
  · exact hdefine (Trades.enumDefinition types)
  · exact hdefine (Trades.bitfieldDefinition types)
  · refine bind_pure (body hrows types) fun nodes other hsame => ?_
    rw [Declaration.view, Declaration.view, hsame]

theorem nextDeclaration (types : TypeTable) :
    Trades ex through true true (fun read => read.2.view .unplaced) (Reader.nextDeclaration types)
      fun _ => Reader.nextDeclaration types := by
  refine next_bind (fun _ => rfl) (fun token pos _ bare' hbare' => ite (fun _ => throw _ _) fun _ => ?_) ?_
  · exact bind_pure (declaration hrows types token pos hbare') fun _ _ hsame => hsame
  · intro row back ending read d hrow _ hrun
    exfalso
    obtain ⟨first, mark, rest, rfl, hfirst, hmark⟩ := exists_marked hrow
    have hread := (next_bind_cons (Token.solid_of_word hfirst) _).symm.trans hrun
    rw [if_neg (by rw [hfirst]; nofun)] at hread
    obtain ⟨declared, between, hdeclared, -⟩ := bind_ok_iff.1 hread
    exact not_declaration (hmark.imp_right And.left) hdeclared

end

end Reader.Trades

end BinarySchema
