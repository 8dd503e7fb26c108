import BinarySchema.Proofs.Result.Leaves
import BinarySchema.Proofs.Schema.Reads

/-!
# Reading a printed schema

Each reader of the grammar takes the pieces of the part of a schema that it is for, and comes to a part
with the same bare form: terms and expressions, fields, bodies with the control blocks nested in them, and
definitions. The loops of the grammar count their steps by the tokens that are left, which are never fewer
than what they still have to read.
-/

namespace BinarySchema

theorem Piece.BeginsWord.not_startsWith {text : String} (h : BeginsWord text) :
    text.startsWith "@" = false := by
  obtain ⟨c, rest, htext, hstart, -⟩ := h
  cases hat : text.startsWith "@" with
  | false => rfl
  | true =>
    rw [String.startsWith_string_iff, htext] at hat
    obtain ⟨tail, htail⟩ := hat
    obtain ⟨rfl, -⟩ := List.cons.inj htail
    exact absurd hstart (by decide)

theorem contains_point_of_isIdentifier {text : String}
    (h : Lexeme.isIdentifier text.toList = true) : text.toList.contains '.' = false := by
  rw [← Bool.not_eq_true, List.contains_iff_mem]
  exact Piece.point_not_mem_of_isIdentifier h

theorem Term.piece_kind (term : Term) :
    term.piece.kind ≠ .comment ∧ term.piece.kind ≠ .punctuation := by
  unfold piece
  cases term.kind <;> exact ⟨nofun, nofun⟩

/-- Whether a type is a primitive, or has a name that the table knows under its kind and that is no
keyword of a primitive. -/
def TypeRef.KnownIn (types : TypeTable) : TypeRef → Prop
  | .primitive _ => True
  | .named kind name => Primitive.ofWord? name = none ∧ types.kindOf? name = some kind

theorem Control.ofWord?_keyword (control : Control) : ofWord? control.keyword = some control := by
  obtain ⟨repeats, negated⟩ := control
  cases repeats <;> cases negated <;> decide +kernel

theorem bodyPieces_behind (body : List Node) :
    ∃ piece more, bodyPieces body ++ [.mark "\x7d"] = piece :: more ∧ piece.kind ≠ .comment := by
  cases body with
  | nil => exact ⟨_, _, rfl, nofun⟩
  | cons node rest =>
    cases node with
    | field declared => exact ⟨_, _, rfl, nofun⟩
    | block head body => exact ⟨_, _, rfl, nofun⟩

theorem bareBody_eq_map (body : List Node) : bareBody body = body.map Node.bare := by
  induction body with
  | nil => rfl
  | cons node rest ih => rw [bareBody, ih, List.map_cons]

namespace Reader

namespace Reads

/-! ### Expressions -/

theorem term {expected : Term} (h : expected.Plain) {token : Token}
    (htoken : token.piece = expected.piece) (closer : String) :
    Reads Anything [] (Reader.term closer token) (·.bare = expected.bare) := by
  obtain ⟨kind, text, pos⟩ := expected
  unfold Reader.term
  cases kind with
  | number value =>
    have hvalue : 0 ≤ value := h
    rw [(Piece.mk.inj htoken).1]
    dsimp only
    rw [numberValue htoken, pure_bind]
    refine pure ?_
    simp only [Term.bare, Int.toNat_of_nonneg hvalue]
  | operator =>
    obtain ⟨hkind, rfl⟩ := Piece.mk.inj htoken
    rw [hkind]
    exact pure rfl
  | probe =>
    obtain ⟨hkind, rfl⟩ := Piece.mk.inj htoken
    have hprobe : token.text ∈ probes := h
    have hat : token.text.startsWith "@" = true := by
      rw [String.startsWith_string_iff]
      simp only [probes, List.mem_cons, List.not_mem_nil, or_false] at hprobe
      rcases hprobe with hword | hword | hword <;> rw [hword] <;> decide
    rw [hkind]
    dsimp only
    rw [if_pos hat, if_pos (List.contains_iff_mem.2 hprobe)]
    exact pure rfl
  | name =>
    obtain ⟨hkind, rfl⟩ := Piece.mk.inj htoken
    have hname : Lexeme.isIdentifier token.text.toList = true := h
    have hat := (Piece.beginsWord_of_isIdentifier hname).not_startsWith
    rw [hkind]
    dsimp only
    rw [hat, contains_point_of_isIdentifier hname]
    exact pure rfl
  | constant =>
    obtain ⟨hkind, rfl⟩ := Piece.mk.inj htoken
    have hdotted : Piece.IsDotted token.text := h
    have hat := (Piece.beginsWord_of_isDotted hdotted).not_startsWith
    rw [hkind]
    dsimp only
    rw [hat, List.contains_iff_mem.2 hdotted.1]
    exact pure rfl

theorem terms {expected : List Term} (h : ∀ t ∈ expected, t.Plain) (closer : String) {steps : Nat}
    (hsteps : expected.length < steps) :
    Reads Anything (expected.map Term.piece ++ [.mark closer]) (Reader.terms closer steps)
      (·.map Term.bare = expected.map Term.bare) := by
  induction expected generalizing steps with
  | nil =>
    obtain ⟨steps, rfl⟩ : ∃ fewer, steps = fewer + 1 := ⟨steps - 1, by omega⟩
    refine next_bind nofun fun token htoken => ?_
    rw [if_pos (Token.isPunctuation_iff.2 htoken)]
    exact pure rfl
  | cons t rest ih =>
    rw [List.length_cons] at hsteps
    obtain ⟨steps, rfl⟩ : ∃ fewer, steps = fewer + 1 := ⟨steps - 1, by omega⟩
    refine next_bind t.piece_kind.1 fun token htoken => ?_
    have hopen : ¬ token.isPunctuation closer = true := by
      rw [Token.isPunctuation_iff, htoken]
      exact fun hmark => t.piece_kind.2 (congrArg Piece.kind hmark)
    rw [if_neg hopen]
    refine bind_nil (term (h t (by simp)) htoken closer) fun head hhead => ?_
    refine bind_pure (ih (fun other hother => h other (List.mem_cons_of_mem _ hother)) (by omega))
      fun read hread => ?_
    rw [List.map_cons, List.map_cons, hhead, hread]

theorem expression {expected : Expression} (h : expected.Plain) (closer : String) :
    Reads Anything (expected.pieces ++ [.mark closer]) (Reader.expression closer)
      (·.bare = expected.bare) := by
  obtain ⟨hne, hplain⟩ := h
  obtain ⟨t, rest, hterms⟩ := List.exists_cons_of_ne_nil hne
  unfold Reader.expression Expression.pieces
  rw [hterms] at hplain ⊢
  refine peek_bind t.piece_kind.1 fun start _ => remaining_bind fun count hcount => ?_
  have hsteps : (t :: rest).length < count + 1 := by
    change (t.piece :: (rest.map Term.piece ++ [.mark closer])).length ≤ count at hcount
    simp only [List.length_cons, List.length_append, List.length_map] at hcount ⊢
    omega
  refine bind_last (terms hplain closer hsteps) fun read hread => ?_
  have hread_ne : ¬ read.isEmpty = true := by
    intro hempty
    rw [List.isEmpty_iff.1 hempty] at hread
    cases hread
  rw [if_neg hread_ne]
  refine pure ?_
  rw [Expression.bare, Expression.bare, hread, hterms]

/-! ### Fields -/

theorem typeRef {types : TypeTable} {type : TypeRef} (h : type.KnownIn types) {token : Token}
    (htoken : token.piece = .word type.name) : Reader.typeRef types token = Pure.pure type := by
  obtain ⟨-, htext⟩ := Piece.mk.inj htoken
  unfold Reader.typeRef
  rw [htext]
  cases type with
  | primitive type =>
    rw [TypeRef.name, Primitive.ofWord?_keyword]
  | named kind name =>
    obtain ⟨hword, hkind⟩ := h
    have hname : (TypeRef.named kind name).name = name := rfl
    rw [hname, hword, hkind]

theorem moreNames (steps : Nat) :
    Reads Anything [.mark ":"] (Reader.moreNames (steps + 1)) (· = []) := by
  unfold Reader.moreNames
  refine next_bind nofun fun token htoken => ?_
  rw [if_pos (Token.isPunctuation_iff.2 htoken)]
  exact pure rfl

theorem lengthAndEnd {length : Option Expression} (h : ∀ expected ∈ length, expected.Plain) :
    Reads Anything (Field.lengthPieces length ++ [.mark ";"]) Reader.lengthAndEnd
      (·.map Expression.bare = length.map Expression.bare) := by
  unfold Reader.lengthAndEnd
  cases length with
  | none =>
    refine next_bind nofun fun token htoken => ?_
    have hplain : ¬ token.isPunctuation "[" = true := by
      rw [Token.isPunctuation_iff, htoken]
      decide
    rw [if_neg hplain, if_pos (Token.isPunctuation_iff.2 htoken)]
    exact pure rfl
  | some expected =>
    refine next_bind nofun fun token htoken => ?_
    rw [if_pos (Token.isPunctuation_iff.2 htoken)]
    refine bind (expression (h expected rfl) "]") fun read hread => ?_
    refine bind_pure (expectPunctuation ";") fun _ _ => ?_
    rw [Option.map_some, Option.map_some, hread]

theorem fieldDeclaration {types : TypeTable} {declared : Field} (h : declared.Plain)
    (hknown : declared.type.KnownIn types) {first : Token}
    (hfirst : first.piece = .word declared.name) :
    Reads Calm declared.typePieces (Reader.fieldDeclaration types first)
      (·.map Field.bare = [declared.bare]) := by
  have hsplit : declared.typePieces
      = .mark ":" :: .word declared.type.name ::
        (Field.lengthPieces declared.length ++ [.mark ";"] ++ remarks declared.comment) := by
    simp [Field.typePieces]
  unfold Reader.fieldDeclaration
  rw [if_neg (isPlainName h.name hfirst), hsplit]
  refine remaining_bind fun count _ => bind_cons (moreNames count) ?_
  rintro _ rfl
  refine next_bind nofun fun token htoken => ?_
  have hword : ¬ token.kind ≠ .word := not_not_intro (Piece.mk.inj htoken).1
  rw [if_neg hword, typeRef hknown htoken, pure_bind]
  refine bind (lengthAndEnd h.length) fun length hlength => ?_
  refine bind_pure (documentation h.comment) ?_
  rintro _ rfl
  rw [List.map_singleton, List.map_singleton, Field.bare, Field.bare, hlength]
  rw [(Piece.mk.inj hfirst).2]

/-! ### Bodies -/

theorem blockHead {head : BlockHead} (h : head.condition.Plain) (keyword : Token) :
    Reads Anything head.conditionPieces (Reader.blockHead head.control keyword)
      (·.bare = head.bare) := by
  unfold Reader.blockHead
  refine bind_cons (expectPunctuation "(") fun _ _ => ?_
  refine bind_pure (expression h ")") fun read hread => ?_
  rw [BlockHead.bare, BlockHead.bare, hread]

theorem nodes {types : TypeTable} : ∀ (expected : List Node), PlainBody expected →
    (∀ declared ∈ bodyFields expected, declared.type.KnownIn types) →
      ∀ {steps : Nat}, (bodyPieces expected).length < steps →
        Reads Anything (bodyPieces expected ++ [.mark "\x7d"]) (Reader.nodes types steps)
          (bareBody · = bareBody expected)
  | [], _, _, steps, hsteps => by
    obtain ⟨steps, rfl⟩ : ∃ fewer, steps = fewer + 1 := ⟨steps - 1, by omega⟩
    refine next_bind (Piece.mark_kind _) fun token htoken => ?_
    rw [if_pos (Token.isPunctuation_iff.2 htoken)]
    exact pure rfl
  | .field declared :: rest, hplain, hknown, steps, hsteps => by
    obtain ⟨hfirst, hrest⟩ := hplain.cons
    have hdeclared := hfirst.fields declared (by simp)
    simp only [bodyFields_cons, List.mem_append] at hknown
    obtain ⟨piece, more, hbehind, hpiece⟩ := bodyPieces_behind rest
    have hsplit : bodyPieces (.field declared :: rest) ++ [.mark "\x7d"]
        = .word declared.name :: (declared.typePieces ++ piece :: more) := by
      rw [← hbehind]
      simp [bodyPieces, Node.pieces, Field.pieces]
    have hlength : (bodyPieces (.field declared :: rest)).length
        = declared.typePieces.length + 1 + (bodyPieces rest).length := by
      rw [bodyPieces, Node.pieces, Field.pieces, List.length_append, List.length_cons]
    obtain ⟨steps, rfl⟩ : ∃ fewer, steps = fewer + 1 := ⟨steps - 1, by omega⟩
    rw [hsplit]
    refine next_bind (Piece.word_kind _) fun token htoken => ?_
    have hword : ¬ token.kind ≠ .word := not_not_intro (Piece.mk.inj htoken).1
    rw [if_neg (Token.not_isPunctuation_of_word htoken _), if_neg hword, (Piece.mk.inj htoken).2,
      hdeclared.noControl]
    refine bind_calm (fieldDeclaration hdeclared (hknown declared (.inl (by simp))) htoken) hpiece
      fun fields hfields => ?_
    rw [← hbehind]
    refine bind_pure (nodes rest hrest (fun f hf => hknown f (.inr hf)) (by omega))
      fun read hread => ?_
    have hmap : (fields.map Node.field).map Node.bare = (fields.map Field.bare).map Node.field := by
      rw [List.map_map, List.map_map]
      rfl
    rw [bareBody_eq_map] at hread ⊢
    rw [List.map_append, hmap, hfields, hread]
    rfl
  | .block head body :: rest, hplain, hknown, steps, hsteps => by
    obtain ⟨hfirst, hrest⟩ := hplain.cons
    simp only [bodyFields_cons, Node.fields_block, List.mem_append] at hknown
    have hsplit : bodyPieces (.block head body :: rest) ++ [.mark "\x7d"]
        = .word head.control.keyword :: (head.conditionPieces ++ .mark "\x7b" ::
          ((bodyPieces body ++ [.mark "\x7d"]) ++ (bodyPieces rest ++ [.mark "\x7d"]))) := by
      simp [bodyPieces, Node.pieces]
    have hlength := congrArg List.length hsplit
    simp only [List.length_append, List.length_cons, List.length_nil] at hlength
    obtain ⟨steps, rfl⟩ : ∃ fewer, steps = fewer + 1 := ⟨steps - 1, by omega⟩
    rw [hsplit]
    refine next_bind (Piece.word_kind _) fun token htoken => ?_
    have hword : ¬ token.kind ≠ .word := not_not_intro (Piece.mk.inj htoken).1
    rw [if_neg (Token.not_isPunctuation_of_word htoken _), if_neg hword, (Piece.mk.inj htoken).2,
      head.control.ofWord?_keyword]
    refine bind (blockHead (hfirst.heads head (by simp)) token) fun read hread => ?_
    refine bind_cons (expectPunctuation "\x7b") fun _ _ => ?_
    refine bind (nodes body hfirst.block (fun f hf => hknown f (.inl hf)) (by omega))
      fun inner hinner => ?_
    refine bind_pure (nodes rest hrest (fun f hf => hknown f (.inr hf)) (by omega))
      fun others hothers => ?_
    rw [bareBody, bareBody, Node.bare, Node.bare, hread, hinner, hothers]

theorem body {types : TypeTable} {expected : List Node} (h : PlainBody expected)
    (hknown : ∀ declared ∈ bodyFields expected, declared.type.KnownIn types) :
    Reads Anything (.mark "\x7b" :: bodyPieces expected ++ [.mark "\x7d"]) (Reader.body types)
      (bareBody · = bareBody expected) := by
  refine bind_cons (expectPunctuation "\x7b") fun _ _ => remaining_bind fun count hcount => ?_
  have hsteps : (bodyPieces expected).length < count + 1 := by
    change (bodyPieces expected ++ [Piece.mark "\x7d"]).length ≤ count at hcount
    rw [List.length_append] at hcount
    omega
  exact nodes expected h hknown hsteps

/-! ### Definitions -/

theorem freshName {types : TypeTable} {name : String}
    (hname : Lexeme.isIdentifier name.toList = true) (hword : Primitive.ofWord? name = none)
    (hnew : types.declares name = false) :
    Reads Anything [.word name] (Reader.freshName types) (·.piece = .word name) := by
  unfold Reader.freshName
  refine bind_last (expectName hname _) fun token htoken => ?_
  have hfree : ¬ (types.declares token.text || (Primitive.ofWord? token.text).isSome) = true := by
    rw [(Piece.mk.inj htoken).2, hnew, hword]
    decide
  rw [if_neg hfree]
  exact pure htoken

theorem baseType (base : Primitive) :
    Reads Anything [.word base.keyword] Reader.baseType (· = base) := by
  unfold Reader.baseType
  refine next_bind nofun fun token htoken => ?_
  obtain ⟨hkind, htext⟩ := Piece.mk.inj htoken
  rw [hkind, htext, Primitive.ofWord?_keyword]
  exact pure rfl

theorem enumValue (value : Int) :
    Reads Anything ((if value < 0 then [.sign "-"] else []) ++ [.number value.natAbs])
      Reader.enumValue (· = value) := by
  unfold Reader.enumValue
  by_cases hnegative : value < 0
  · rw [if_pos hnegative]
    refine peek_bind nofun fun token htoken => ?_
    rw [if_pos (Token.isOperator_iff.2 htoken)]
    refine next_bind nofun fun _ _ => bind_pure (expectNumber _) ?_
    rintro _ rfl
    omega
  · rw [if_neg hnegative]
    refine peek_bind nofun fun token htoken => ?_
    have hplain : ¬ token.isOperator "-" = true := by
      rw [Token.isOperator_iff, htoken]
      exact fun hsign => absurd (congrArg Piece.kind hsign) nofun
    rw [if_neg hplain]
    refine bind_pure (expectNumber _) ?_
    rintro _ rfl
    omega

theorem enumMembers {expected : List EnumMember}
    (h : ∀ member ∈ expected, Lexeme.isIdentifier member.name.toList = true) {steps : Nat}
    (hsteps : expected.length < steps) (value : Int) :
    Reads Anything (expected.flatMap EnumMember.pieces ++ [.mark "\x7d"])
      (Reader.next >>= Reader.enumMembers steps value) (· = expected) := by
  induction expected generalizing steps value with
  | nil =>
    obtain ⟨steps, rfl⟩ : ∃ fewer, steps = fewer + 1 := ⟨steps - 1, by omega⟩
    refine next_bind nofun fun token htoken => ?_
    unfold Reader.enumMembers
    rw [if_pos (Token.isPunctuation_iff.2 htoken)]
    exact pure rfl
  | cons member rest ih =>
    rw [List.length_cons] at hsteps
    obtain ⟨steps, rfl⟩ : ∃ fewer, steps = fewer + 1 := ⟨steps - 1, by omega⟩
    have hname := h member (by simp)
    have hrest := ih (fun other hother => h other (List.mem_cons_of_mem _ hother))
      (show rest.length < steps by omega) (member.value + 1)
    have hsplit : (member :: rest).flatMap EnumMember.pieces ++ [.mark "\x7d"]
        = .word member.name :: .sign "=" ::
          ((if member.value < 0 then [.sign "-"] else []) ++ [.number member.value.natAbs] ++
            .mark "," :: (rest.flatMap EnumMember.pieces ++ [.mark "\x7d"])) := by
      simp [EnumMember.pieces]
    rw [hsplit]
    refine next_bind nofun fun token htoken => ?_
    unfold Reader.enumMembers
    rw [if_neg (Token.not_isPunctuation_of_word htoken _), if_neg (isPlainName hname htoken)]
    refine next_bind nofun fun equals hequals => ?_
    rw [if_pos (Token.isOperator_iff.2 hequals)]
    refine bind (enumValue member.value) ?_
    rintro _ rfl
    refine next_bind nofun fun comma hcomma => ?_
    simp only [pure_bind]
    rw [if_pos (Token.isPunctuation_iff.2 hcomma), ← bind_assoc]
    refine bind_pure hrest ?_
    rintro _ rfl
    rw [(Piece.mk.inj htoken).2]

theorem bitfieldMembers {expected : List BitfieldMember} (h : ∀ member ∈ expected, member.Plain)
    {steps : Nat} (hsteps : expected.length < steps) :
    Reads Anything (expected.flatMap BitfieldMember.pieces ++ [.mark "\x7d"])
      (Reader.bitfieldMembers steps) (· = expected) := by
  induction expected generalizing steps with
  | nil =>
    obtain ⟨steps, rfl⟩ : ∃ fewer, steps = fewer + 1 := ⟨steps - 1, by omega⟩
    refine next_bind nofun fun token htoken => ?_
    rw [if_pos (Token.isPunctuation_iff.2 htoken)]
    exact pure rfl
  | cons member rest ih =>
    rw [List.length_cons] at hsteps
    obtain ⟨steps, rfl⟩ : ∃ fewer, steps = fewer + 1 := ⟨steps - 1, by omega⟩
    have hmember := h member (by simp)
    have hrest := ih (fun other hother => h other (List.mem_cons_of_mem _ hother))
      (show rest.length < steps by omega)
    obtain ⟨piece, more, hbehind, hpiece⟩ : ∃ piece more,
        rest.flatMap BitfieldMember.pieces ++ [.mark "\x7d"] = piece :: more ∧
          piece.kind ≠ .comment := by
      cases rest with
      | nil => exact ⟨_, _, rfl, nofun⟩
      | cons other rest => exact ⟨_, _, rfl, nofun⟩
    have hsplit : (member :: rest).flatMap BitfieldMember.pieces ++ [.mark "\x7d"]
        = .word member.name :: .mark ":" :: .number member.width :: .mark ";" ::
          (remarks member.comment ++ piece :: more) := by
      rw [← hbehind]
      simp [BitfieldMember.pieces]
    rw [hsplit]
    refine next_bind nofun fun token htoken => ?_
    rw [if_neg (Token.not_isPunctuation_of_word htoken _), if_neg (isPlainName hmember.name htoken)]
    refine bind_cons (expectPunctuation ":") fun _ _ => bind_cons (expectNumber _) ?_
    rintro _ rfl
    refine bind_cons (expectPunctuation ";") fun _ _ => ?_
    refine bind_calm (documentation hmember.comment) hpiece ?_
    rintro _ rfl
    rw [← hbehind]
    refine bind_pure hrest ?_
    rintro _ rfl
    rw [(Piece.mk.inj htoken).2]

theorem length_lt_of_pieces {γ : Type} {rows : List γ} {pieces : γ → List Piece}
    (h : ∀ row ∈ rows, 0 < (pieces row).length) {last : List Piece} {count : Nat}
    (hcount : (rows.flatMap pieces ++ last).length ≤ count) : rows.length < count + 1 := by
  have hrows : rows.length ≤ (rows.flatMap pieces).length := by
    clear hcount
    induction rows with
    | nil => exact Nat.zero_le _
    | cons row rest ih =>
      have hrow := h row (by simp)
      have hrest := ih fun other hother => h other (List.mem_cons_of_mem _ hother)
      rw [List.flatMap_cons, List.length_append, List.length_cons]
      omega
  rw [List.length_append] at hcount
  omega

/-- A table with one more definition, which has the bare form of another. -/
def GrowsBy (types : TypeTable) (definition : Definition) (after : TypeTable) : Prop :=
  ∃ read : Definition, read.bare = definition.bare ∧ after = types.grow read

section

variable {types : TypeTable} (hfrozen : types.frozen = false) (hreserved : types.reserved = [])

include hfrozen hreserved

theorem enumDeclaration {expected : EnumDef} (hplain : (Definition.enum expected).Plain)
    (hname : Lexeme.isIdentifier expected.name.toList = true)
    (hword : Primitive.ofWord? expected.name = none) (hnew : types.declares expected.name = false) :
    Reads Anything (Definition.enum expected).pieces.tail (Reader.enumDeclaration types)
      (GrowsBy types (.enum expected)) := by
  unfold Reader.enumDeclaration
  refine bind_cons (freshName hname hword hnew) fun name hname => ?_
  refine bind_cons (expectPunctuation ":") fun _ _ => bind_cons (baseType _) ?_
  rintro _ rfl
  refine bind_cons (expectPunctuation "\x7b") fun _ _ => remaining_bind fun count hcount => ?_
  have hpiece : ∀ member ∈ expected.members, 0 < member.pieces.length := fun _ _ => Nat.succ_pos _
  have hsteps := length_lt_of_pieces hpiece hcount
  rw [← bind_assoc]
  refine bind_pure (enumMembers hplain hsteps 0) ?_
  rintro _ rfl
  have htext : name.text = expected.name := (Piece.mk.inj hname).2
  have hfresh := TypeTable.find?_eq_none_iff.1 (TypeTable.declares_eq_false hnew).1
  refine ⟨.enum ⟨name.text, expected.base, expected.members, name.pos⟩, ?_,
    define_of_new _ hfrozen (by simp [hreserved]) ?_ types⟩
  · rw [Definition.bare, Definition.bare, htext]
  · rwa [Definition.name, htext]

theorem bitfieldDeclaration {expected : BitfieldDef} (hplain : (Definition.bitfield expected).Plain)
    (hname : Lexeme.isIdentifier expected.name.toList = true)
    (hword : Primitive.ofWord? expected.name = none) (hnew : types.declares expected.name = false) :
    Reads Anything (Definition.bitfield expected).pieces.tail (Reader.bitfieldDeclaration types)
      (GrowsBy types (.bitfield expected)) := by
  unfold Reader.bitfieldDeclaration
  refine bind_cons (freshName hname hword hnew) fun name hname => ?_
  refine bind_cons (expectPunctuation ":") fun _ _ => bind_cons (baseType _) ?_
  rintro _ rfl
  refine bind_cons (expectPunctuation "\x7b") fun _ _ => remaining_bind fun count hcount => ?_
  have hpiece : ∀ member ∈ expected.members, 0 < member.pieces.length := fun _ _ => Nat.succ_pos _
  have hsteps := length_lt_of_pieces hpiece hcount
  refine bind_pure (bitfieldMembers hplain hsteps) ?_
  rintro _ rfl
  have htext : name.text = expected.name := (Piece.mk.inj hname).2
  have hfresh := TypeTable.find?_eq_none_iff.1 (TypeTable.declares_eq_false hnew).1
  refine ⟨.bitfield ⟨name.text, expected.base, expected.members, name.pos⟩, ?_,
    define_of_new _ hfrozen (by simp [hreserved]) ?_ types⟩
  · rw [Definition.bare, Definition.bare, htext]
  · rwa [Definition.name, htext]

/-- The fields of a struct may have the types of the table, and the struct itself. -/
theorem structDeclaration {expected : StructDef} (hplain : (Definition.struct expected).Plain)
    (hknown : ∀ declared ∈ bodyFields expected.body,
      declared.type.KnownIn { types with reserved := [(expected.name, .struct)] })
    (hname : Lexeme.isIdentifier expected.name.toList = true)
    (hword : Primitive.ofWord? expected.name = none) (hnew : types.declares expected.name = false) :
    Reads Anything (Definition.struct expected).pieces.tail (Reader.structDeclaration types)
      (GrowsBy types (.struct expected)) := by
  unfold Reader.structDeclaration
  refine bind_cons (freshName hname hword hnew) fun name hname => ?_
  have htext : name.text = expected.name := (Piece.mk.inj hname).2
  have hfresh := TypeTable.find?_eq_none_iff.1 (TypeTable.declares_eq_false hnew).1
  have hreserve : changeTypes (types.reserve name.text .struct) types
      = { types with reserved := [(expected.name, .struct)] } := by
    rw [htext]
    unfold TypeTable.reserve
    rw [hfrozen, hreserved]
    rfl
  rw [hreserve]
  refine bind_pure (body hplain hknown) fun members hmembers => ?_
  let reserved : TypeTable := { types with reserved := [(expected.name, .struct)] }
  let read : Definition := .struct ⟨name.text, members, name.pos⟩
  have hopen : reserved.frozen = false := hfrozen
  have hpromised : ∀ entry ∈ reserved.reserved, entry.1 = read.name := by
    simp [reserved, read, Definition.name, htext]
  have hgrown : changeTypes (reserved.define read) reserved = reserved.grow read :=
    define_of_new read hopen hpromised (by rwa [Definition.name, htext]) reserved
  refine ⟨read, ?_, hgrown⟩
  rw [Definition.bare, Definition.bare, htext, hmembers]

end

end Reads

end Reader

end BinarySchema
