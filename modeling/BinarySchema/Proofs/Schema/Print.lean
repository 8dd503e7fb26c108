import BinarySchema.Proofs.Definition.Fields
import BinarySchema.Proofs.Token.Layout

/-!
# Printing schemas

The source text of definitions and of a root, from the pieces of their declarations in the order in which
the grammar has them. Every field has a declaration of its own, comments stand behind the declarations
that they document, and all numbers are hexadecimal.

`Plain` says of what a schema is made if it is to be written as a source: its names are identifiers, its
expressions are rows of the terms that there are words for, and its comments fit on a line.

The places in the source, and how its numbers are spelled, are no part of what a definition means. The
bare form of a definition has neither.
-/

namespace BinarySchema

/-! ### Expressions -/

namespace Term

def piece (term : Term) : Piece :=
  match term.kind with
  | .number value => .number value.toNat
  | .operator => .sign term.text
  | .probe | .name | .constant => .word term.text

def Plain (term : Term) : Prop :=
  match term.kind with
  | .number value => 0 ≤ value
  | .operator => term.text ∈ Piece.operators
  | .probe => term.text ∈ probes
  | .name => Lexeme.isIdentifier term.text.toList = true
  | .constant => Piece.IsDotted term.text

def bare (term : Term) : Term :=
  match term.kind with
  | .number value => ⟨.number value, "", .first⟩
  | _ => { term with pos := .first }

end Term

namespace Expression

def pieces (expression : Expression) : List Piece :=
  expression.terms.map Term.piece

def Plain (expression : Expression) : Prop :=
  expression.terms ≠ [] ∧ ∀ term ∈ expression.terms, term.Plain

def bare (expression : Expression) : Expression :=
  ⟨expression.terms.map Term.bare, .first⟩

end Expression

/-! ### Fields -/

/-- Whether a text fits on a line behind a comment's mark, without blank space at its ends. -/
def IsRemark (comment : String) : Prop :=
  Text.strip comment.toList = comment.toList ∧ '\n' ∉ comment.toList

def remarks (comment : Option String) : List Piece :=
  comment.toList.map Piece.remark

namespace Field

def lengthPieces : Option Expression → List Piece
  | none => []
  | some length => .mark "[" :: length.pieces ++ [.mark "]"]

def typePieces (field : Field) : List Piece :=
  .mark ":" :: .word field.type.name :: lengthPieces field.length ++ .mark ";" :: remarks field.comment

def pieces (field : Field) : List Piece :=
  .word field.name :: field.typePieces

structure Plain (field : Field) : Prop where
  name : Lexeme.isIdentifier field.name.toList = true
  noControl : Control.ofWord? field.name = none
  length : ∀ length ∈ field.length, length.Plain
  comment : ∀ comment ∈ field.comment, IsRemark comment

def bare (field : Field) : Field :=
  { field with pos := .first, length := field.length.map Expression.bare }

end Field

/-! ### Bodies -/

namespace BlockHead

def conditionPieces (head : BlockHead) : List Piece :=
  .mark "(" :: head.condition.pieces ++ [.mark ")"]

def bare (head : BlockHead) : BlockHead :=
  { head with condition := head.condition.bare, pos := .first }

end BlockHead

mutual

def Node.pieces : Node → List Piece
  | .field declared => declared.pieces
  | .block head body =>
    .word head.control.keyword :: head.conditionPieces ++
      .mark "\x7b" :: bodyPieces body ++ [.mark "\x7d"]
termination_by structural node => node

def bodyPieces : List Node → List Piece
  | [] => []
  | node :: rest => node.pieces ++ bodyPieces rest
termination_by structural body => body

end

mutual

def Node.bare : Node → Node
  | .field declared => .field declared.bare
  | .block head body => .block head.bare (bareBody body)
termination_by structural node => node

def bareBody : List Node → List Node
  | [] => []
  | node :: rest => node.bare :: bareBody rest
termination_by structural body => body

end

structure PlainBody (body : List Node) : Prop where
  fields : ∀ declared ∈ bodyFields body, declared.Plain
  heads : ∀ head ∈ bodyHeads body, head.condition.Plain

/-! ### Definitions -/

namespace EnumMember

def pieces (member : EnumMember) : List Piece :=
  .word member.name :: .sign "=" ::
    (if member.value < 0 then [.sign "-"] else []) ++ [.number member.value.natAbs, .mark ","]

end EnumMember

namespace BitfieldMember

def pieces (member : BitfieldMember) : List Piece :=
  .word member.name :: .mark ":" :: .number member.width :: .mark ";" :: remarks member.comment

structure Plain (member : BitfieldMember) : Prop where
  name : Lexeme.isIdentifier member.name.toList = true
  comment : ∀ comment ∈ member.comment, IsRemark comment

end BitfieldMember

namespace Definition

def pieces : Definition → List Piece
  | .struct d =>
    .word "struct" :: .word d.name :: .mark "\x7b" :: bodyPieces d.body ++ [.mark "\x7d"]
  | .enum d =>
    .word "enum" :: .word d.name :: .mark ":" :: .word d.base.keyword :: .mark "\x7b" ::
      d.members.flatMap EnumMember.pieces ++ [.mark "\x7d"]
  | .bitfield d =>
    .word "bitfield" :: .word d.name :: .mark ":" :: .word d.base.keyword :: .mark "\x7b" ::
      d.members.flatMap BitfieldMember.pieces ++ [.mark "\x7d"]

def Plain : Definition → Prop
  | .struct d => PlainBody d.body
  | .enum d => ∀ member ∈ d.members, Lexeme.isIdentifier member.name.toList = true
  | .bitfield d => ∀ member ∈ d.members, member.Plain

def bare : Definition → Definition
  | .struct d => .struct ⟨d.name, bareBody d.body, .first⟩
  | .enum d => .enum { d with pos := .first }
  | .bitfield d => .bitfield { d with pos := .first }

end Definition

def rootPieces : Option (List Node) → List Piece
  | none => []
  | some body => .word "schema" :: .mark "\x7b" :: bodyPieces body ++ [.mark "\x7d"]

/-- The source text of definitions and a root. -/
def printSchema (definitions : List Definition) (root : Option (List Node)) : String :=
  String.ofList (Piece.layout (definitions.flatMap Definition.pieces ++ rootPieces root))

example :
    printSchema [] (some [.field ⟨"trees", .primitive .byte, .first, none, some "how many"⟩])
      = "schema \x7b\ntrees : byte ; // how many\n\x7d\n" := by
  decide +kernel

/-! ### Deciding what is plain -/

instance (text : String) : Decidable (Piece.IsDotted text) :=
  inferInstanceAs (Decidable (_ ∧ _))

instance (term : Term) : Decidable term.Plain :=
  match term with
  | ⟨.number value, _, _⟩ => inferInstanceAs (Decidable (0 ≤ value))
  | ⟨.operator, text, _⟩ => inferInstanceAs (Decidable (text ∈ Piece.operators))
  | ⟨.probe, text, _⟩ => inferInstanceAs (Decidable (text ∈ probes))
  | ⟨.name, text, _⟩ => inferInstanceAs (Decidable (Lexeme.isIdentifier text.toList = true))
  | ⟨.constant, text, _⟩ => inferInstanceAs (Decidable (Piece.IsDotted text))

instance (expression : Expression) : Decidable expression.Plain :=
  inferInstanceAs (Decidable (_ ∧ _))

instance (comment : String) : Decidable (IsRemark comment) :=
  inferInstanceAs (Decidable (_ ∧ _))

instance (field : Field) : Decidable field.Plain :=
  decidable_of_iff
    (Lexeme.isIdentifier field.name.toList = true ∧ Control.ofWord? field.name = none ∧
      (∀ length ∈ field.length, length.Plain) ∧ ∀ comment ∈ field.comment, IsRemark comment)
    ⟨fun ⟨name, noControl, length, comment⟩ => ⟨name, noControl, length, comment⟩,
      fun h => ⟨h.name, h.noControl, h.length, h.comment⟩⟩

instance (body : List Node) : Decidable (PlainBody body) :=
  decidable_of_iff
    ((∀ declared ∈ bodyFields body, declared.Plain) ∧
      ∀ head ∈ bodyHeads body, head.condition.Plain)
    ⟨fun ⟨fields, heads⟩ => ⟨fields, heads⟩, fun h => ⟨h.fields, h.heads⟩⟩

instance (member : BitfieldMember) : Decidable member.Plain :=
  decidable_of_iff
    (Lexeme.isIdentifier member.name.toList = true ∧ ∀ comment ∈ member.comment, IsRemark comment)
    ⟨fun ⟨name, comment⟩ => ⟨name, comment⟩, fun h => ⟨h.name, h.comment⟩⟩

instance (definition : Definition) : Decidable definition.Plain :=
  match definition with
  | .struct d => inferInstanceAs (Decidable (PlainBody d.body))
  | .enum d =>
    inferInstanceAs
      (Decidable (∀ member ∈ d.members, Lexeme.isIdentifier member.name.toList = true))
  | .bitfield d => inferInstanceAs (Decidable (∀ member ∈ d.members, member.Plain))

/-! ### Scanning

Every piece of a plain schema is a lexeme in front of a gap, so its text is scanned into these pieces. -/

section

open Piece

theorem scannable_mark_cons {text : String} {pieces : List Piece} (h : text ∈ punctuation)
    (hpieces : ∀ piece ∈ pieces, piece.Scannable) :
    ∀ piece ∈ .mark text :: pieces, piece.Scannable :=
  List.forall_mem_cons.2 ⟨scannable_mark h, hpieces⟩

theorem scannable_word_cons {text : String} {pieces : List Piece}
    (h : Lexeme.isIdentifier text.toList = true) (hpieces : ∀ piece ∈ pieces, piece.Scannable) :
    ∀ piece ∈ .word text :: pieces, piece.Scannable :=
  List.forall_mem_cons.2 ⟨(beginsWord_of_isIdentifier h).scannable, hpieces⟩

theorem scannable_append {front back : List Piece} (hfront : ∀ piece ∈ front, piece.Scannable)
    (hback : ∀ piece ∈ back, piece.Scannable) : ∀ piece ∈ front ++ back, piece.Scannable :=
  List.forall_mem_append.2 ⟨hfront, hback⟩

theorem scannable_close {text : String} (h : text ∈ punctuation) :
    ∀ piece ∈ [Piece.mark text], piece.Scannable :=
  scannable_mark_cons h (List.forall_mem_nil _)

theorem Term.Plain.scannable {term : Term} (h : term.Plain) : term.piece.Scannable := by
  obtain ⟨kind, text, pos⟩ := term
  cases kind with
  | number value => exact scannable_number _
  | operator => exact scannable_sign h
  | probe => exact scannable_probe h
  | name => exact (beginsWord_of_isIdentifier h).scannable
  | constant => exact (beginsWord_of_isDotted h).scannable

theorem Expression.Plain.scannable {expression : Expression} (h : expression.Plain) :
    ∀ piece ∈ expression.pieces, piece.Scannable := by
  intro piece hpiece
  obtain ⟨term, hterm, rfl⟩ := List.mem_map.1 hpiece
  exact (h.2 term hterm).scannable

theorem scannable_remarks {comment : Option String} (h : ∀ text ∈ comment, IsRemark text) :
    ∀ piece ∈ remarks comment, piece.Scannable := by
  intro piece hpiece
  obtain ⟨text, htext, rfl⟩ := List.mem_map.1 hpiece
  exact scannable_remark (h text (Option.mem_toList.1 htext)).2

theorem isIdentifier_keyword (type : Primitive) :
    Lexeme.isIdentifier type.keyword.toList = true := by
  cases type <;> decide +kernel

theorem Control.isIdentifier_keyword (control : Control) :
    Lexeme.isIdentifier control.keyword.toList = true := by
  obtain ⟨repeats, negated⟩ := control
  cases repeats <;> cases negated <;> decide +kernel

theorem Field.Plain.scannable {field : Field} (h : field.Plain)
    (htype : Lexeme.isIdentifier field.type.name.toList = true) :
    ∀ piece ∈ field.pieces, piece.Scannable := by
  have hlength : ∀ piece ∈ lengthPieces field.length, piece.Scannable := by
    cases hlength : field.length with
    | none => exact List.forall_mem_nil _
    | some length =>
      exact scannable_mark_cons (by decide)
        (scannable_append (h.length length hlength).scannable (scannable_close (by decide)))
  refine scannable_word_cons h.name (scannable_mark_cons (by decide) ?_)
  refine scannable_append (scannable_word_cons htype hlength) ?_
  exact scannable_mark_cons (by decide) (scannable_remarks h.comment)

theorem PlainBody.cons {node : Node} {rest : List Node} (h : PlainBody (node :: rest)) :
    PlainBody [node] ∧ PlainBody rest := by
  obtain ⟨hfields, hheads⟩ := h
  simp only [bodyFields_cons, bodyHeads_cons, List.mem_append] at hfields hheads
  constructor
  · constructor
    · simpa using fun f hf => hfields f (.inl hf)
    · simpa using fun head hhead => hheads head (.inl hhead)
  · exact ⟨fun f hf => hfields f (.inr hf), fun head hhead => hheads head (.inr hhead)⟩

theorem PlainBody.block {head : BlockHead} {body : List Node} (h : PlainBody [.block head body]) :
    PlainBody body := by
  obtain ⟨hfields, hheads⟩ := h
  constructor
  · simpa using hfields
  · intro other hother
    exact hheads other (by simp [hother])

theorem PlainBody.scannable : ∀ (body : List Node), PlainBody body →
    (∀ declared ∈ bodyFields body, Lexeme.isIdentifier declared.type.name.toList = true) →
      ∀ piece ∈ bodyPieces body, piece.Scannable
  | [], _, _ => List.forall_mem_nil _
  | .field declared :: rest, h, htypes => by
    obtain ⟨hfirst, hrest⟩ := h.cons
    simp only [bodyFields_cons, List.mem_append] at htypes
    have hdeclared := hfirst.fields declared (by simp)
    exact scannable_append (hdeclared.scannable (htypes declared (.inl (by simp))))
      (PlainBody.scannable rest hrest fun f hf => htypes f (.inr hf))
  | .block head body :: rest, h, htypes => by
    obtain ⟨hfirst, hrest⟩ := h.cons
    simp only [bodyFields_cons, Node.fields_block, List.mem_append] at htypes
    have hcondition := (hfirst.heads head (by simp)).scannable
    have hbody := PlainBody.scannable body hfirst.block fun f hf => htypes f (.inl hf)
    refine scannable_append ?_ (PlainBody.scannable rest hrest fun f hf => htypes f (.inr hf))
    refine scannable_append (scannable_append ?_ (scannable_mark_cons (by decide) hbody))
      (scannable_close (by decide))
    exact scannable_word_cons head.control.isIdentifier_keyword (scannable_mark_cons (by decide)
      (scannable_append hcondition (scannable_close (by decide))))

theorem scannable_enumMember {member : EnumMember}
    (h : Lexeme.isIdentifier member.name.toList = true) :
    ∀ piece ∈ member.pieces, piece.Scannable := by
  have hsign : ∀ piece ∈ (if member.value < 0 then [Piece.sign "-"] else []), piece.Scannable := by
    split
    · exact List.forall_mem_cons.2 ⟨scannable_sign (by decide), List.forall_mem_nil _⟩
    · exact List.forall_mem_nil _
  refine scannable_word_cons h (List.forall_mem_cons.2 ⟨scannable_sign (by decide), ?_⟩)
  exact scannable_append hsign
    (List.forall_mem_cons.2 ⟨scannable_number _, scannable_close (by decide)⟩)

theorem BitfieldMember.Plain.scannable {member : BitfieldMember} (h : member.Plain) :
    ∀ piece ∈ member.pieces, piece.Scannable :=
  scannable_word_cons h.name (scannable_mark_cons (by decide) (List.forall_mem_cons.2
    ⟨scannable_number _, scannable_mark_cons (by decide) (scannable_remarks h.comment)⟩))

theorem scannable_flatMap {γ : Type} {rows : List γ} {pieces : γ → List Piece}
    (h : ∀ row ∈ rows, ∀ piece ∈ pieces row, piece.Scannable) :
    ∀ piece ∈ rows.flatMap pieces, piece.Scannable := by
  intro piece hpiece
  obtain ⟨row, hrow, hmem⟩ := List.mem_flatMap.1 hpiece
  exact h row hrow piece hmem

theorem Definition.Plain.scannable {definition : Definition} (h : definition.Plain)
    (hname : Lexeme.isIdentifier definition.name.toList = true)
    (htypes : ∀ declared ∈ definition.fields,
      Lexeme.isIdentifier declared.type.name.toList = true) :
    ∀ piece ∈ definition.pieces, piece.Scannable := by
  cases definition with
  | struct d =>
    refine scannable_word_cons (by decide) (scannable_word_cons hname ?_)
    exact scannable_mark_cons (by decide)
      (scannable_append (PlainBody.scannable d.body h htypes) (scannable_close (by decide)))
  | enum d =>
    refine scannable_word_cons (by decide) (scannable_word_cons hname ?_)
    refine scannable_mark_cons (by decide) (scannable_word_cons (isIdentifier_keyword d.base) ?_)
    exact scannable_mark_cons (by decide) (scannable_append
      (scannable_flatMap fun member hmember => scannable_enumMember (h member hmember))
      (scannable_close (by decide)))
  | bitfield d =>
    refine scannable_word_cons (by decide) (scannable_word_cons hname ?_)
    refine scannable_mark_cons (by decide) (scannable_word_cons (isIdentifier_keyword d.base) ?_)
    exact scannable_mark_cons (by decide) (scannable_append
      (scannable_flatMap fun member hmember => (h member hmember).scannable)
      (scannable_close (by decide)))

end

end BinarySchema
