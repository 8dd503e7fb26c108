import BinarySchema.Proofs.Decode.Origins
import BinarySchema.Proofs.Schema.Along

/-!
# Documentation

A comment documents a declaration if it is the very next token behind the semicolon that ends it. So the
documentation of a schema can be told from its tokens alone: they fall into clauses, which semicolons end,
and the comment of a field or of a bitfield's member is what stands behind its clause. The names of one
declaration are in one clause and have one comment, and no other comment is anywhere in the schema.

A name has its place in the source, and the tokens from this place on are the suffix that begins with it.
-/

namespace BinarySchema

open Outline (Inline EndsAt IsStop solid)

/-! ### Clauses -/

/-- The text of the comment that is the very next token, if that is one. -/
def documentationOf : List Token → Option String
  | [] => none
  | token :: _ => if token.kind = .comment then some token.commentText else none

/-- What a semicolon ends: the pieces in front of it, and the documentation behind it. -/
structure Clause where
  pieces : List Piece
  documentation : Option String
  deriving DecidableEq, Repr

def Clause.behind (front : List Piece) (clause : Clause) : Clause :=
  { clause with pieces := front ++ clause.pieces }

def clauses : List Token → List Clause
  | [] => []
  | token :: rest =>
    if token.isPunctuation ";" then ⟨[], documentationOf rest⟩ :: clauses rest
    else (clauses rest).modifyHead (.behind token.solid?.toList)

/-- Tokens without a semicolon belong to the clause that goes on behind them. -/
theorem clauses_append {front : List Token} (h : .mark ";" ∉ solid Token.solid? front) (rest : List Token) :
    clauses (front ++ rest) = (clauses rest).modifyHead (.behind (solid Token.solid? front)) := by
  induction front with
  | nil =>
    have hsame : Clause.behind [] = id := rfl
    rw [List.nil_append, solid, List.filterMap_nil, hsame, List.modifyHead_id]
    rfl
  | cons token front ih =>
    have hsolid : solid Token.solid? (token :: front)
        = token.solid?.toList ++ solid Token.solid? front := by
      unfold solid
      rw [List.filterMap_cons]
      cases token.solid? <;> rfl
    rw [hsolid, List.mem_append, not_or] at h
    have htoken : ¬ token.isPunctuation ";" = true := by
      intro hsemicolon
      have hpiece := Token.isPunctuation_iff.1 hsemicolon
      rw [Token.solid?_of_ne (Token.solid_of_mark hpiece), hpiece] at h
      exact h.1 (by simp)
    rw [List.cons_append, clauses, if_neg htoken, ih h.2, List.modifyHead_modifyHead, hsolid]
    congr 1
    funext clause
    simp [Clause.behind]

theorem clauses_of_semicolon {used : List Token} {front : List Piece}
    (h : solid Token.solid? used = front ++ [.mark ";"]) (hfront : .mark ";" ∉ front)
    (hends : EndsSolid used) (rest : List Token) :
    clauses (used ++ rest) = ⟨front, documentationOf rest⟩ :: clauses rest := by
  obtain rfl | ⟨init, last, rfl⟩ := List.eq_nil_or_concat used
  · simp [solid] at h
  rw [List.concat_eq_append] at h hends ⊢
  have hlast : last.kind ≠ .comment := hends last (by simp)
  rw [Outline.solid_append, Outline.solid_cons hlast] at h
  obtain ⟨rfl, hpiece⟩ := List.append_inj' h rfl
  have hsemicolon : last.isPunctuation ";" = true :=
    Token.isPunctuation_iff.2 (List.cons.inj hpiece).1
  rw [List.append_assoc, clauses_append hfront, List.singleton_append, clauses, if_pos hsemicolon,
    List.modifyHead_cons, Clause.behind, List.append_nil]

theorem not_mem_of_inline {pieces : List Piece} (h : Inline pieces) : .mark ";" ∉ pieces :=
  fun hmem => h _ hmem (.inl rfl)

theorem clauses_remarks {comments : List Token} (h : Remarks comments) (rest : List Token) :
    clauses (comments ++ rest) = clauses rest := by
  have hsame : Clause.behind [] = id := rfl
  have hsolid := Outline.solid_remarks h
  rw [clauses_append (by rw [hsolid]; nofun), hsolid, hsame, List.modifyHead_id]
  rfl

/-- A comment inside a clause and a second one behind it document nothing. -/
example : clauses (TokenStream.scan "a, /* in */ b : byte; // both\n // more\n c : byte;").tokens =
    [⟨[.word "a", .mark ",", .word "b", .mark ":", .word "byte"], some "both"⟩,
      ⟨[.word "c", .mark ":", .word "byte"], none⟩] := by
  decide +kernel

/-! ### Declarations by their clauses -/

/-- That a field is declared by a clause of some tokens which has the field's name from its place on, and
the field's comment behind it. -/
def Field.DocumentedBy (tokens : List Token) (field : Field) : Prop :=
  ∃ pieces others, Inline pieces ∧
    clauses (tokensFrom field.pos tokens) = ⟨.word field.name :: pieces, field.comment⟩ :: others

/-- That a clause declares a member of a bitfield and has its comment behind it. -/
def Clause.IsMember (clause : Clause) (member : BitfieldMember) : Prop :=
  ∃ width, clause = ⟨[.word member.name, .mark ":", ⟨.number, width⟩], member.comment⟩

/-- That a bitfield is declared by some tokens, from its name on: the clauses behind the opening brace are
those of its members. -/
def BitfieldDef.DocumentedBy (tokens : List Token) (bitfield : BitfieldDef) : Prop :=
  ∃ base own others, List.Forall₂ Clause.IsMember own bitfield.members ∧
    clauses (tokensFrom bitfield.pos tokens) = (own ++ others).modifyHead
      (.behind [.word bitfield.name, .mark ":", .word base, .mark "\x7b"])

/-- That the fields and the members of a definition are declared by some tokens. -/
def Definition.DocumentedBy (tokens : List Token) : Definition → Prop
  | .struct d => ∀ field ∈ bodyFields d.body, field.DocumentedBy tokens
  | .enum _ => True
  | .bitfield d => d.DocumentedBy tokens

def Reader.Declaration.DocumentedBy (tokens : List Token) : Reader.Declaration → Prop
  | .definition d => d.DocumentedBy tokens
  | .root body => ∀ field ∈ bodyFields body, field.DocumentedBy tokens
  | .inclusion _ _ => True

/-! ### Readers -/

namespace Reader

variable {types : TypeTable} {tokens : List Token} {c d : Cursor} {token : Token}

theorem documentation_clauses {comment : Option String} (h : documentation c = .ok (comment, d)) :
    comment = documentationOf c.tokens ∧ clauses d.tokens = clauses c.tokens := by
  obtain ⟨tokens, ending⟩ := c
  cases tokens with
  | nil =>
    rw [documentation_nil] at h
    obtain ⟨pos, -, heq⟩ := Except.map_ok_iff.1 h
    cases heq
    exact ⟨rfl, rfl⟩
  | cons head rest =>
    by_cases hhead : head.kind = .comment
    · rw [documentation_comment hhead] at h
      cases h
      exact ⟨(if_pos hhead).symm, (clauses_remarks (List.forall_mem_singleton.2 hhead) rest).symm⟩
    · rw [documentation_token hhead] at h
      cases h
      exact ⟨(if_neg hhead).symm, rfl⟩

/-- The further names of a declaration stand in front of pieces without semicolons. -/
theorem moreNames_stretch {steps : Nat} {names : List Token}
    (h : moreNames steps c = .ok (names, d)) :
    ∀ name ∈ names, isPlainName name = true ∧ ∃ front behind,
      c.tokens = front ++ name :: (behind ++ d.tokens) ∧ Inline (solid Token.solid? behind) := by
  induction steps generalizing c names with
  | zero => exact (unexpectedEnd_ok_iff.1 h).elim
  | succ steps ih =>
    unfold moreNames at h
    obtain ⟨mark, c₁, hmark, h⟩ := bind_ok_iff.1 h
    by_cases hcolon : mark.isPunctuation ":" = true
    · rw [if_pos hcolon] at h
      obtain ⟨rfl, -⟩ := pure_ok_iff.1 h
      exact List.forall_mem_nil _
    rw [if_neg hcolon] at h
    obtain ⟨hcomma, h⟩ := refuse_ok_iff.1 h
    obtain ⟨name, c₂, hname, h⟩ := bind_ok_iff.1 h
    obtain ⟨rest, c₃, hrest, h⟩ := bind_ok_iff.1 h
    obtain ⟨rfl, rfl⟩ := pure_ok_iff.1 h
    have hpiece : mark.piece = .mark "," := Token.isPunctuation_iff.1 (by simpa using hcomma)
    obtain ⟨before, -, hbefore⟩ := next_taken hmark (by rw [(Piece.mk.inj hpiece).1]; decide)
    obtain ⟨hplain, comments, -, hcomments⟩ := expectName_taken hname
    obtain ⟨used, rfl, hused, -⟩ := Takes.moreNames steps _ _ _ hrest
    have hc : c.tokens = (before ++ mark :: comments) ++ name :: (used ++ c₃.tokens) := by
      rw [hbefore, hcomments, List.append_assoc, List.cons_append]
    refine List.forall_mem_cons.2 ⟨⟨hplain, _, used, hc, hused⟩, fun other hother => ?_⟩
    obtain ⟨hplain', front, behind, hsplit, hbehind⟩ := ih hrest other hother
    refine ⟨hplain', (before ++ mark :: comments) ++ name :: front, behind, ?_, hbehind⟩
    rw [hc, show used ++ c₃.tokens = _ from hsplit, List.append_assoc _ (name :: front),
      List.cons_append]

section

variable (hordered : tokens.Pairwise fun left right => left.pos.Before right.pos)

include hordered

theorem field_documented {name : Token} {behind typing rest : List Token}
    (hname : isPlainName name = true) (hbehind : Inline (solid Token.solid? behind))
    (htyping : EndsAt (.mark ";") (solid Token.solid? typing)) (hends : EndsSolid typing)
    (hsuffix : name :: (behind ++ (typing ++ rest)) <:+ tokens) (type : TypeRef)
    (length : Option Expression) :
    ({ name := name.text, type, pos := name.pos, length, comment := documentationOf rest } :
      Field).DocumentedBy tokens := by
  obtain ⟨front, hfront, hinline⟩ := htyping
  have hclause := clauses_of_semicolon hfront (not_mem_of_inline hinline) hends rest
  have hsolid : solid Token.solid? (name :: behind)
      = .word name.text :: solid Token.solid? behind := by
    rw [Outline.solid_cons (Token.solid_of_word (kind_of_isPlainName hname)),
      piece_of_isPlainName hname]
  have hword : ¬ IsStop (.word name.text) := Outline.not_isStop_of_kind nofun
  refine ⟨solid Token.solid? behind ++ front, clauses rest, hbehind.append hinline, ?_⟩
  rw [tokensFrom_of_suffix hordered hsuffix, ← List.cons_append, clauses_append, hclause, hsolid]
  · rfl
  · rw [hsolid]
    exact not_mem_of_inline (hbehind.cons hword)

theorem fieldDeclaration_documented {first : Token} {fields : List Field}
    (hsuffix : first :: c.tokens <:+ tokens) (h : fieldDeclaration types first c = .ok (fields, d)) :
    ∀ field ∈ fields, field.DocumentedBy tokens := by
  rw [fieldDeclaration_eq] at h
  obtain ⟨hfirst, h⟩ := refuse_ok_iff.1 h
  obtain ⟨count, _, hcount, h⟩ := bind_ok_iff.1 h
  cases hcount
  obtain ⟨more, c₁, hmore, h⟩ := bind_ok_iff.1 h
  obtain ⟨read, c₂, hread, h⟩ := bind_ok_iff.1 h
  obtain ⟨comment, c₃, hcomment, h⟩ := bind_ok_iff.1 h
  obtain ⟨rfl, -⟩ := pure_ok_iff.1 h
  obtain ⟨rfl, -⟩ := documentation_clauses hcomment
  obtain ⟨naming, hc, hnaming, -⟩ := Takes.moreNames _ _ _ _ hmore
  obtain ⟨typing, rfl, htyping, hends, -⟩ := Takes.typed types _ _ _ hread
  intro field hfield
  obtain ⟨name, hname, rfl⟩ := List.mem_map.1 hfield
  rcases List.mem_cons.1 hname with rfl | hname
  · refine field_documented hordered (by simpa using hfirst) hnaming htyping (hends rfl) ?_ _ _
    rwa [hc] at hsuffix
  · obtain ⟨hplain, front, behind, hsplit, hbehind⟩ := moreNames_stretch hmore name hname
    refine field_documented hordered hplain hbehind htyping (hends rfl)
      (.trans ⟨first :: front, ?_⟩ hsuffix) _ _
    rw [hsplit]
    rfl

theorem nodes_documented {steps : Nat} {read : List Node} (hsuffix : c.tokens <:+ tokens)
    (h : nodes types steps c = .ok (read, d)) : ∀ field ∈ bodyFields read, field.DocumentedBy tokens := by
  induction steps generalizing c d read with
  | zero => exact (unexpectedEnd_ok_iff.1 h).elim
  | succ steps ih =>
    unfold nodes at h
    obtain ⟨token, c₁, hnext, h⟩ := bind_ok_iff.1 h
    by_cases hclose : token.isPunctuation "\x7d" = true
    · rw [if_pos hclose] at h
      obtain ⟨rfl, -⟩ := pure_ok_iff.1 h
      exact List.forall_mem_nil _
    rw [if_neg hclose] at h
    obtain ⟨hword, h⟩ := refuse_ok_iff.1 h
    have hfirst : token :: c₁.tokens <:+ tokens := by
      obtain ⟨comments, -, hc⟩ := next_taken hnext (by rw [Decidable.of_not_not hword]; decide)
      exact .trans ⟨comments, hc.symm⟩ hsuffix
    cases hcontrol : Control.ofWord? token.text with
    | some control =>
      rw [hcontrol] at h
      obtain ⟨head, c₂, hhead, h⟩ := bind_ok_iff.1 h
      obtain ⟨_, c₃, hopen, h⟩ := bind_ok_iff.1 h
      obtain ⟨inner, c₄, hinner, h⟩ := bind_ok_iff.1 h
      obtain ⟨rest, c₅, hrest, h⟩ := bind_ok_iff.1 h
      obtain ⟨rfl, -⟩ := pure_ok_iff.1 h
      have hbrace : c₃.tokens <:+ tokens :=
        ((Takes.expectPunctuation _).suffix hopen).trans
          (((Takes.blockHead control token .first).suffix hhead).trans
            ((List.suffix_cons token c₁.tokens).trans hfirst))
      have hbehind : c₄.tokens <:+ tokens := ((Takes.nodes types steps).suffix hinner).trans hbrace
      rw [bodyFields_cons, Node.fields_block]
      exact List.forall_mem_append.2 ⟨ih hbrace hinner, ih hbehind hrest⟩
    | none =>
      rw [hcontrol] at h
      obtain ⟨fields, c₂, hfields, h⟩ := bind_ok_iff.1 h
      obtain ⟨rest, c₃, hrest, h⟩ := bind_ok_iff.1 h
      obtain ⟨rfl, -⟩ := pure_ok_iff.1 h
      have hbehind : c₂.tokens <:+ tokens :=
        ((Takes.fieldDeclaration types token .first).suffix hfields).trans
          ((List.suffix_cons token c₁.tokens).trans hfirst)
      rw [bodyFields_append, bodyFields_map_field]
      exact List.forall_mem_append.2
        ⟨fieldDeclaration_documented hordered hfirst hfields, ih hbehind hrest⟩

theorem body_documented {read : List Node} (hsuffix : c.tokens <:+ tokens)
    (h : body types c = .ok (read, d)) : ∀ field ∈ bodyFields read, field.DocumentedBy tokens := by
  obtain ⟨_, c₁, hopen, h⟩ := bind_ok_iff.1 h
  obtain ⟨count, _, hcount, h⟩ := bind_ok_iff.1 h
  cases hcount
  exact nodes_documented hordered (((Takes.expectPunctuation _).suffix hopen).trans hsuffix) h

end

/-! ### Bitfields -/

theorem bitfieldMembers_clauses {steps : Nat} {members : List BitfieldMember}
    (h : bitfieldMembers steps c = .ok (members, d)) :
    ∃ own others, List.Forall₂ Clause.IsMember own members ∧ clauses c.tokens = own ++ others := by
  induction steps generalizing c members with
  | zero => exact (unexpectedEnd_ok_iff.1 h).elim
  | succ steps ih =>
    unfold bitfieldMembers at h
    obtain ⟨token, c₁, hnext, h⟩ := bind_ok_iff.1 h
    by_cases hclose : token.isPunctuation "\x7d" = true
    · rw [if_pos hclose] at h
      obtain ⟨rfl, -⟩ := pure_ok_iff.1 h
      exact ⟨[], clauses c.tokens, .nil, rfl⟩
    rw [if_neg hclose] at h
    obtain ⟨hname, h⟩ := refuse_ok_iff.1 h
    obtain ⟨colon, c₂, hcolon, h⟩ := bind_ok_iff.1 h
    obtain ⟨width, c₃, hwidth, h⟩ := bind_ok_iff.1 h
    obtain ⟨semicolon, c₄, hsemicolon, h⟩ := bind_ok_iff.1 h
    obtain ⟨comment, c₅, hcomment, h⟩ := bind_ok_iff.1 h
    obtain ⟨rest, c₆, hrest, h⟩ := bind_ok_iff.1 h
    obtain ⟨rfl, rfl⟩ := pure_ok_iff.1 h
    obtain ⟨rfl, hsame⟩ := documentation_clauses hcomment
    obtain ⟨own, others, hmembers, hclauses⟩ := ih hrest
    have hname : isPlainName token = true := by simpa using hname
    have hword := Token.solid_of_word (kind_of_isPlainName hname)
    obtain ⟨comments, hcomments, hc⟩ := next_taken hnext (by rw [kind_of_isPlainName hname]; nofun)
    obtain ⟨used₁, rfl, hused₁, hends₁, -⟩ := Takes.expectPunctuation ":" _ _ _ hcolon
    obtain ⟨used₂, rfl, ⟨numeral, hused₂⟩, hends₂, -⟩ := Takes.expectNumber _ _ _ hwidth
    obtain ⟨used₃, rfl, hused₃, hends₃, -⟩ := Takes.expectPunctuation ";" _ _ _ hsemicolon
    have hsolid : solid Token.solid? (token :: (used₁ ++ (used₂ ++ used₃)))
        = [.word token.text, .mark ":", ⟨.number, numeral⟩] ++ [.mark ";"] := by
      rw [Outline.solid_cons hword, Outline.solid_append, Outline.solid_append, hused₁, hused₂, hused₃,
        piece_of_isPlainName hname]
      rfl
    have hends : EndsSolid (token :: (used₁ ++ (used₂ ++ used₃))) :=
      .cons hword (.append (fun _ => hends₁ rfl) (.append (fun _ => hends₂ rfl) (hends₃ rfl)))
    have hclause := clauses_of_semicolon hsolid (by simp [Piece.word, Piece.mark]) hends c₄.tokens
    refine ⟨⟨_, documentationOf c₄.tokens⟩ :: own, others, .cons ⟨numeral, rfl⟩ hmembers, ?_⟩
    rw [hc, clauses_remarks hcomments]
    simp only [List.cons_append, List.append_assoc] at hclause ⊢
    rw [hclause, ← hsame, hclauses]

/-! ### Definitions -/

theorem enumDefinition_documented {definition : Definition}
    (h : enumDefinition types c = .ok (definition, d)) : definition.DocumentedBy tokens := by
  obtain ⟨name, _, -, h⟩ := bind_ok_iff.1 h
  obtain ⟨_, _, -, h⟩ := bind_ok_iff.1 h
  obtain ⟨base, _, -, h⟩ := bind_ok_iff.1 h
  obtain ⟨_, _, -, h⟩ := bind_ok_iff.1 h
  obtain ⟨_, _, -, h⟩ := bind_ok_iff.1 h
  obtain ⟨_, _, -, h⟩ := bind_ok_iff.1 h
  obtain ⟨members, _, -, h⟩ := bind_ok_iff.1 h
  obtain ⟨rfl, -⟩ := pure_ok_iff.1 h
  trivial

section

variable (hordered : tokens.Pairwise fun left right => left.pos.Before right.pos)

include hordered

theorem structDefinition_documented {definition : Definition} (hsuffix : c.tokens <:+ tokens)
    (h : structDefinition types c = .ok (definition, d)) : definition.DocumentedBy tokens := by
  obtain ⟨name, c₁, hname, h⟩ := bind_ok_iff.1 h
  obtain ⟨members, c₂, hmembers, h⟩ := bind_ok_iff.1 h
  obtain ⟨rfl, -⟩ := pure_ok_iff.1 h
  exact body_documented hordered (((Takes.freshName types).suffix hname).trans hsuffix) hmembers

theorem bitfieldDefinition_documented {definition : Definition} (hsuffix : c.tokens <:+ tokens)
    (h : bitfieldDefinition types c = .ok (definition, d)) : definition.DocumentedBy tokens := by
  obtain ⟨name, c₁, hname, h⟩ := bind_ok_iff.1 h
  obtain ⟨colon, c₂, hcolon, h⟩ := bind_ok_iff.1 h
  obtain ⟨base, c₃, hbase, h⟩ := bind_ok_iff.1 h
  obtain ⟨opening, c₄, hopening, h⟩ := bind_ok_iff.1 h
  obtain ⟨count, _, hcount, h⟩ := bind_ok_iff.1 h
  cases hcount
  obtain ⟨members, c₅, hmembers, h⟩ := bind_ok_iff.1 h
  obtain ⟨rfl, -⟩ := pure_ok_iff.1 h
  obtain ⟨hplain, comments, -, hc⟩ := freshName_taken hname
  obtain ⟨used₁, rfl, hused₁, -⟩ := Takes.expectPunctuation ":" _ _ _ hcolon
  obtain ⟨used₂, rfl, ⟨word, hused₂⟩, -⟩ := Takes.baseType _ _ _ hbase
  obtain ⟨used₃, rfl, hused₃, -⟩ := Takes.expectPunctuation "\x7b" _ _ _ hopening
  obtain ⟨own, others, hown, hclauses⟩ := bitfieldMembers_clauses hmembers
  have hsolid : solid Token.solid? (name :: (used₁ ++ (used₂ ++ used₃)))
      = [.word name.text, .mark ":", .word word, .mark "\x7b"] := by
    rw [Outline.solid_cons (Token.solid_of_word (kind_of_isPlainName hplain)), Outline.solid_append,
      Outline.solid_append, hused₁, hused₂, hused₃, piece_of_isPlainName hplain]
    rfl
  have hplain : .mark ";" ∉ solid Token.solid? (name :: (used₁ ++ (used₂ ++ used₃))) := by
    rw [hsolid]
    simp [Piece.word, Piece.mark]
  have hfront := clauses_append hplain c₄.tokens
  refine ⟨word, own, others, hown, ?_⟩
  rw [tokensFrom_of_suffix hordered (.trans ⟨comments, hc.symm⟩ hsuffix)]
  simp only [List.cons_append, List.append_assoc] at hfront
  rw [hfront, hclauses, hsolid]

end

theorem tells_documented : Tells fun tokens declared => declared.DocumentedBy tokens := by
  refine Tells.of_readers (fun _ _ _ => trivial) (fun hsuffix h => ?_) fun hsuffix h =>
    body_documented (TokenStream.scan_increasing _) hsuffix h
  rcases h with hstruct | henum | hbitfield
  · exact structDefinition_documented (TokenStream.scan_increasing _) hsuffix hstruct
  · exact enumDefinition_documented henum
  · exact bitfieldDefinition_documented (TokenStream.scan_increasing _) hsuffix hbitfield

end Reader

/-- That a root leads to a source which declares a definition and documents it. -/
def Root.Documents (fs : FileSystem) (root : Root) (definition : Definition) : Prop :=
  ∃ directory text, root.LeadsTo fs directory text ∧
    definition.name ∈ declaredNames (TokenStream.scan text).tokens ∧
      definition.DocumentedBy (TokenStream.scan text).tokens

/-- Documentation attaches to the declaration in front of it. In a compiled schema a field or a bitfield's
member has the text of the comment that is the very next token behind the semicolon of its declaration, or
none if that token is no comment. This goes for the root by the tokens of its own text, and for every
definition by those of the source that declares it. A decode gives the comment of a field to the field's
result, those of a bitfield's members to theirs, and none to anything else. -/
theorem comments_document_declarations {fs : FileSystem} {root : Root} {schema : Schema}
    (h : root.compile fs = .ok schema) :
    (∃ text, root.readText fs = .ok text ∧ ∀ body ∈ schema.root, ∀ field ∈ bodyFields body,
      field.DocumentedBy (TokenStream.scan text).tokens) ∧
    (∀ definition ∈ schema.types.definitions, root.Documents fs definition) ∧
    ∀ (options : Options) (source : Source) (decoded : Decoded) (reading : Reading),
      schema.decode options source = .ok decoded reading →
        ∃ body ∈ schema.root, Origin.Gives schema.types (.body body) decoded.fields := by
  obtain ⟨hroot, hdefinitions⟩ := Root.compile_tells Reader.tells_documented h
  exact ⟨hroot, hdefinitions, fun _ _ _ _ hdecode => Schema.decode_gives hdecode⟩

def Root.flags : Root :=
  .source ("// top\nstruct P \x7b x, y /* in */ : byte; // place\n // more\n \x7d " ++
    "bitfield F : byte \x7b lo : 4; /* low */ hi : 4; \x7d // end\n" ++
    "schema \x7b // head\n p : P; f : F; // flags\n \x7d") none

/-- What the text compiles to. -/
def Schema.flags : Schema where
  types := {
    definitions := [
      .struct ⟨"P", [
        .field { name := "x", type := .primitive .byte, pos := ⟨2, 12⟩, comment := some "place" },
        .field { name := "y", type := .primitive .byte, pos := ⟨2, 15⟩, comment := some "place" }],
        ⟨2, 8⟩⟩,
      .bitfield ⟨"F", .byte, [⟨"lo", 4, some "low"⟩, ⟨"hi", 4, none⟩], ⟨4, 13⟩⟩]
    frozen := true }
  root := some [
    .field { name := "p", type := .named .struct "P", pos := ⟨6, 2⟩ },
    .field { name := "f", type := .named .bitfield "F", pos := ⟨6, 9⟩, comment := some "flags" }]

theorem comments_document_declarations_flags :
    Root.flags.compile {} = .ok Schema.flags ∧
    (∃ text, Root.flags.readText {} = .ok text ∧ ∀ body ∈ Schema.flags.root, ∀ field ∈ bodyFields body,
      field.DocumentedBy (TokenStream.scan text).tokens) ∧
    (∀ definition ∈ Schema.flags.types.definitions, Root.flags.Documents {} definition) ∧
    ∃ decoded reading, Schema.flags.decode {} (.ofBytes [1, 2, 0x21]) = .ok decoded reading ∧
      ∃ body ∈ Schema.flags.root, Origin.Gives Schema.flags.types (.body body) decoded.fields := by
  have hcompile : Root.flags.compile {} = .ok Schema.flags := by
    cbv
  obtain ⟨hroot, hdefinitions, hgives⟩ := comments_document_declarations hcompile
  have hconsumed : Schema.flags.consumed? {} (.ofBytes [1, 2, 0x21]) = some 3 := by
    decide +kernel
  obtain ⟨decoded, reading, hdecode, -⟩ := Schema.decode_of_consumed? hconsumed
  exact ⟨hcompile, hroot, hdefinitions, decoded, reading, hdecode, hgives _ _ _ _ hdecode⟩

end BinarySchema
