import BinarySchema.Proofs.Schema.Reads
import BinarySchema.Proofs.Schema.Takes

/-!
# The extent of declarations

What each reader of the grammar takes, in the order of the grammar. The braces of a body close among
themselves, and a declaration takes the pieces of one stretch of the source's outline: through its
semicolon if it is an include directive, and else through the brace that closes its body.
-/

namespace BinarySchema

open Outline (Level Closing Inline EndsAt IsStop)

namespace Token

variable {token : Token} {text : String}

theorem not_isStop_of_kind (h : token.kind ≠ .punctuation) : ¬ IsStop token.piece :=
  Outline.not_isStop_of_kind h

theorem not_isStop_of_mark (h : token.isPunctuation text = true)
    (htext : text ∈ ["(", ")", "[", "]", ",", ":"]) : ¬ IsStop token.piece := by
  rw [isPunctuation_iff.1 h]
  exact Outline.not_isStop_of_mark htext

theorem not_isStop_of_word (h : token.kind = .word) : ¬ IsStop token.piece := by
  refine not_isStop_of_kind ?_
  rw [h]
  decide

theorem piece_of_word (h : token.kind = .word) : token.piece = .word token.text := by
  rw [piece, h]
  rfl

theorem solid_of_word (h : token.kind = .word) : token.kind ≠ .comment := by
  rw [h]
  decide

theorem solid_of_mark (h : token.piece = .mark text) : token.kind ≠ .comment := by
  rw [show token.kind = .punctuation from (Piece.mk.inj h).1]
  decide

end Token

namespace Reader

/-- The type and the length that the names of a declaration share. -/
def typed (types : TypeTable) : Reader (TypeRef × Option Expression) := do
  let token ← next
  if token.kind ≠ .word then unexpected "type identifier" token
  let type ← typeRef types token
  let length ← lengthAndEnd
  return (type, length)

theorem fieldDeclaration_eq (types : TypeTable) (first : Token) :
    fieldDeclaration types first = do
      if !isPlainName first then unexpected "field name" first
      let more ← moreNames ((← remaining) + 1)
      let read ← typed types
      let comment ← documentation
      return (first :: more).map fun name =>
        { name := name.text, type := read.1, pos := name.pos, length := read.2, comment } := by
  have htyped {β : Type} (f : TypeRef × Option Expression → Reader β) :
      typed types >>= f = (do
        let token ← next
        if token.kind ≠ .word then unexpected "type identifier" token
        let type ← typeRef types token
        let length ← lengthAndEnd
        f (type, length)) := by
    unfold typed
    rw [bind_assoc]
    refine bind_congr fun token => ?_
    split <;> simp only [bind_assoc, pure_bind]
  unfold fieldDeclaration
  simp only [htyped]

end Reader

namespace Reader.Takes

variable {α β κ ι : Type}

theorem absorbs_inline : Absorbs Inline fun _ : β => Inline :=
  fun _ _ _ hleft hright => hleft.append hright

/-- Inline pieces, and not none of them. -/
def Filled (pieces : List Piece) : Prop :=
  Inline pieces ∧ pieces ≠ []

theorem absorbs_nothing (whole : β → List Piece → Prop) : Absorbs (· = []) whole := by
  rintro _ _ right rfl hright
  exact hright

theorem absorbs_endsAt (stop : Piece) : Absorbs Inline fun _ : β => EndsAt stop :=
  fun _ _ _ hleft hright => EndsAt.append hleft hright

theorem absorbs_closing : Absorbs Level fun _ : β => Closing :=
  fun _ _ _ hleft (hright : Closing _) => hright.append hleft

variable {loose : Bool} {key : α → κ} {x : Reader α} {y : Nat → Reader α}

theorem level (hx : Takes loose (fun _ => Inline) key x y) : Takes loose (fun _ => Level) key x y :=
  hx.shaped fun _ _ => Inline.level

/-! ### Tokens -/

theorem expectPunctuation (text : String) :
    Takes false (fun _ pieces => pieces = [.mark text]) Token.piece (expectPunctuation text)
      fun _ => Reader.expectPunctuation text := by
  refine next_bind (fun _ => rfl) (fun _ _ _ _ hrun => throw_ok_iff.1 hrun) fun token pos _ =>
    ite (fun h => ?_) fun _ => throw _ _
  exact pure (by rw [Token.isPunctuation_iff.1 h]) rfl

theorem expectInline {text : String} (h : text ∈ ["(", ")", "[", "]", ",", ":"]) :
    Takes false (fun _ => Inline) Token.piece (Reader.expectPunctuation text)
      fun _ => Reader.expectPunctuation text := by
  refine (expectPunctuation text).shaped fun _ pieces hpieces => ?_
  rw [hpieces]
  exact Inline.nil.cons (Outline.not_isStop_of_mark h)

theorem expectStop (text : String) :
    Takes false (fun _ => EndsAt (.mark text)) Token.piece (Reader.expectPunctuation text)
      fun _ => Reader.expectPunctuation text := by
  refine (expectPunctuation text).shaped fun _ pieces hpieces => ?_
  rw [hpieces]
  exact .single _

theorem expectName (what : String) :
    Takes false (fun token pieces => pieces = [token.piece] ∧ token.kind = .word) Token.piece
      (expectName what) fun _ => Reader.expectName what := by
  refine next_bind (fun _ => rfl) (fun _ _ _ _ hrun => throw_ok_iff.1 hrun) fun token pos _ =>
    ite (fun h => ?_) fun _ => throw _ _
  refine pure ⟨rfl, ?_⟩ rfl
  unfold isPlainName at h
  simpa using (Bool.and_eq_true_iff.1 h).1

theorem expectNameInline (what : String) :
    Takes false (fun _ => Inline) Token.piece (Reader.expectName what)
      fun _ => Reader.expectName what := by
  refine (expectName what).shaped fun token pieces hpieces => ?_
  rw [hpieces.1]
  exact Inline.nil.cons (Token.not_isStop_of_word hpieces.2)

theorem numberValue (token : Token) (pos : Position) :
    Takes false (fun _ pieces => pieces = []) id (Reader.numberValue token)
      fun _ => Reader.numberValue { token with pos } := by
  unfold Reader.numberValue
  dsimp only
  split
  · exact pure rfl rfl
  · exact throw _ _
  · exact throw _ _

theorem expectNumber :
    Takes false (fun _ pieces => ∃ text, pieces = [⟨.number, text⟩]) id Reader.expectNumber
      fun _ => Reader.expectNumber := by
  refine next_bind (fun _ => rfl) nofun fun token pos _ => ite (fun h => ?_) fun _ => throw _ _
  refine (numberValue token pos).shaped fun _ pieces hpieces => ⟨token.text, ?_⟩
  rw [hpieces, Token.piece, h]

theorem expectNumberInline :
    Takes false (fun _ => Inline) id Reader.expectNumber fun _ => Reader.expectNumber := by
  refine expectNumber.shaped fun _ pieces hpieces => ?_
  obtain ⟨text, rfl⟩ := hpieces
  exact Inline.nil.cons (Outline.not_isStop_of_kind nofun)

/-! ### Expressions -/

theorem term (closer : String) (token : Token) (pos : Position) :
    Takes false (fun _ pieces => Inline (token.piece :: pieces)) (Term.view .unplaced)
      (Reader.term closer token) fun _ => Reader.term closer { token with pos } := by
  have hword (h : token.kind ≠ .punctuation) : Inline [token.piece] :=
    Inline.nil.cons (Token.not_isStop_of_kind h)
  unfold Reader.term
  dsimp only
  split
  case h_1 h =>
    refine bind_pure ((numberValue token pos).shaped fun _ pieces hpieces => ?_) ?_ fun _ _ h => h
    · rw [hpieces]
      exact hword (by rw [h]; nofun)
    · rintro a b (rfl : a = b)
      rfl
  case h_2 h => exact pure (hword (by rw [h]; nofun)) rfl
  case h_3 h =>
    have hlevel := hword (by rw [h]; nofun)
    refine ite (fun _ => ite (fun _ => pure hlevel rfl) fun _ => throw _ _) fun _ => ?_
    exact ite (fun _ => pure hlevel rfl) fun _ => pure hlevel rfl
  case h_4 => exact throw _ _

theorem terms {closer : String} (h : closer ∈ [")", "]"]) (steps : Nat) :
    Takes false (fun _ => Filled) (List.map (Term.view .unplaced)) (Reader.terms closer steps)
      (Reader.terms closer) := by
  have hmark : closer ∈ ["(", ")", "[", "]", ",", ":"] := by
    simp only [List.mem_cons, List.not_mem_nil, or_false] at h
    rcases h with rfl | rfl <;> decide
  induction steps with
  | zero => exact unexpectedEnd _ _
  | succ steps ih =>
    refine next_bind (fun _ => rfl) nofun fun token pos _ => ite (fun hclose => ?_) fun _ => ?_
    · exact pure ⟨Inline.nil.cons (Token.not_isStop_of_mark hclose hmark), nofun⟩ rfl
    refine bind (term closer token pos) fun head other hhead => ?_
    refine bind_pure ih (fun read reads hread => ?_) fun read pieces hpieces left hleft => ?_
    · rw [List.map_cons, List.map_cons, hhead, hread]
    · exact ⟨hleft.append hpieces.1, nofun⟩

theorem expression {closer : String} (h : closer ∈ [")", "]"]) :
    Takes false (fun _ => Inline) (Expression.view .unplaced) (Reader.expression closer)
      fun _ => Reader.expression closer := by
  unfold Reader.expression
  refine shaped (bind_loose (absorbs_nothing fun _ => Filled) (fun _ h => h.2 rfl) peek fun start other _ =>
    remaining_bind fun count => ?_) fun _ _ h => h.1
  refine bind (terms h (count + 1)).more fun read reads hread => ?_
  have hempty : reads.isEmpty = read.isEmpty := by
    have hsame := congrArg List.isEmpty hread
    rw [List.isEmpty_map, List.isEmpty_map] at hsame
    exact hsame.symm
  dsimp only
  rw [hempty]
  refine ite (fun _ => throw_bind _ _ _) fun _ => pure (fun left hleft => ?_) ?_
  · rwa [List.append_nil]
  · rw [Expression.view, Expression.view, hread]
    rfl

/-! ### Fields -/

theorem typeRef (types : TypeTable) (token : Token) (pos : Position) :
    Takes false (fun _ => Inline) id (Reader.typeRef types token)
      fun _ => Reader.typeRef types { token with pos } := by
  unfold Reader.typeRef
  dsimp only
  split
  · exact pure .nil rfl
  · split
    · exact pure .nil rfl
    · exact throw _ _

theorem moreNames (steps : Nat) :
    Takes false (fun _ => Inline) (List.map Token.piece) (Reader.moreNames steps)
      Reader.moreNames := by
  induction steps with
  | zero => exact unexpectedEnd _ _
  | succ steps ih =>
    refine next_bind (fun _ => rfl) nofun fun token pos _ => ite (fun hcolon => ?_) fun _ =>
      ite (fun _ => throw_bind _ _ _) fun hmore => ?_
    · exact pure (Inline.nil.cons (Token.not_isStop_of_mark hcolon (by decide))) rfl
    have hcomma : token.isPunctuation "," = true := by simpa using hmore
    refine shaped (bind_absorbed absorbs_inline (expectNameInline _) fun name other hname =>
      bind_pure ih (fun more others hmore => ?_) fun _ _ h => h) fun _ _ h => ?_
    · rw [List.map_cons, List.map_cons, hname, hmore]
    · exact h.cons (Token.not_isStop_of_mark hcomma (by decide))

theorem lengthAndEnd :
    Takes false (fun _ => EndsAt (.mark ";")) (Option.map (Expression.view .unplaced))
      Reader.lengthAndEnd fun _ => Reader.lengthAndEnd := by
  refine next_bind (fun _ => rfl) nofun fun token pos _ => ite (fun hopen => ?_) fun _ =>
    ite (fun hclose => ?_) fun _ => throw _ _
  · refine shaped (bind_absorbed (absorbs_endsAt _) (expression (by decide)) fun length other hlength =>
      bind_pure (expectStop ";") (fun _ _ _ => ?_) fun _ _ h => h) fun _ _ h => ?_
    · rw [Option.map_some, Option.map_some, hlength]
    · exact h.cons (Token.not_isStop_of_mark hopen (by decide))
  · refine pure ?_ rfl
    rw [Token.isPunctuation_iff.1 hclose]
    exact .single _

theorem typed (types : TypeTable) :
    Takes false (fun _ => EndsAt (.mark ";")) (Prod.map id (Option.map (Expression.view .unplaced)))
      (Reader.typed types) fun _ => Reader.typed types := by
  unfold Reader.typed
  refine next_bind (fun _ => rfl) (fun _ _ _ _ hrun => nomatch hrun) fun token pos _ =>
    ite (fun _ => throw_bind _ _ _) fun hword => ?_
  have hstop := Token.not_isStop_of_word (Decidable.of_not_not hword)
  refine shaped (bind_absorbed (absorbs_endsAt _) (typeRef types token pos) ?_)
    fun _ _ h => h.cons hstop
  rintro type _ rfl
  exact bind_pure lengthAndEnd (fun length other hlength => Prod.ext rfl hlength) fun _ _ h => h

theorem view_fields (names : List Token) (type : TypeRef) (length : Option Expression)
    (comment : Option String) :
    (names.map fun name => ({ name := name.text, type, pos := name.pos, length, comment } : Field)).map
        (Field.view .unplaced)
      = (names.map Token.piece).map fun piece =>
          { name := piece.text, type, pos := .first, length := length.map (Expression.view .unplaced),
            comment } := by
  rw [List.map_map, List.map_map]
  rfl

theorem fieldDeclaration (types : TypeTable) (first : Token) (pos : Position) :
    Takes true (fun _ => EndsAt (.mark ";")) (List.map (Field.view .unplaced))
      (Reader.fieldDeclaration types first)
      fun _ => Reader.fieldDeclaration types { first with pos } := by
  rw [fieldDeclaration_eq, fieldDeclaration_eq]
  refine ite (fun _ => throw_bind _ _ _) fun _ => remaining_bind fun count => ?_
  refine bind_absorbed (absorbs_endsAt _) (moreNames (count + 1)).more fun more others hmore => ?_
  refine bind (typed types) fun read other hread => ?_
  refine bind_pure documentation ?_ ?_
  · obtain ⟨type, length⟩ := read
    obtain ⟨type', length'⟩ := other
    obtain ⟨rfl, hlength⟩ : type = type' ∧ length.map (Expression.view .unplaced)
        = length'.map (Expression.view .unplaced) := Prod.mk.inj hread
    rintro comment _ rfl
    rw [view_fields, view_fields, List.map_cons, List.map_cons, hmore, hlength]
    rfl
  · rintro comment _ rfl left hleft
    rwa [List.append_nil]

/-! ### Bodies -/

theorem blockHead (control : Control) (keyword : Token) (pos : Position) :
    Takes false (fun _ => Inline) (BlockHead.view .unplaced) (Reader.blockHead control keyword)
      fun _ => Reader.blockHead control { keyword with pos } := by
  refine bind_absorbed absorbs_inline (expectInline (by decide)) fun _ _ _ => ?_
  refine bind_pure (expression (by decide)) (fun condition other hcondition => ?_) fun _ _ h => h
  rw [BlockHead.view, BlockHead.view, hcondition]
  rfl

theorem nodes (types : TypeTable) (steps : Nat) :
    Takes false (fun _ => Closing) (bodyView .unplaced) (Reader.nodes types steps)
      (Reader.nodes types) := by
  induction steps with
  | zero => exact unexpectedEnd _ _
  | succ steps ih =>
    refine next_bind (fun _ => rfl) nofun fun token pos _ => ite (fun hclose => ?_) fun _ =>
      ite (fun _ => throw_bind _ _ _) fun hword => ?_
    · refine pure ?_ rfl
      rw [Token.isPunctuation_iff.1 hclose]
      exact .closer
    have hstop := Token.not_isStop_of_word (Decidable.of_not_not hword)
    dsimp only
    split
    · refine shaped (bind_absorbed absorbs_closing (blockHead _ token pos).level fun head other hhead =>
        bind (expectPunctuation "\x7b") fun _ _ _ => ?_) fun _ _ h => h.cons hstop
      refine bind ih fun inner inners hinner => bind_pure ih (fun rest rests hrest => ?_) ?_
      · rw [bodyView, bodyView, Node.view, Node.view, hhead, hinner, hrest]
      · rintro rest pieces hpieces left hleft _ rfl
        rw [← List.append_assoc]
        exact hpieces.append hleft.level
    · refine shaped (bind_loose absorbs_closing (fun _ h => h.ne_nil rfl)
        ((fieldDeclaration types token pos).shaped fun _ _ => EndsAt.level) fun fields others hfields =>
          bind_pure ih (fun rest rests hrest => ?_) fun _ _ h => h) fun _ _ h => h.cons hstop
      rw [bodyView_append, bodyView_append, bodyView_map_field, bodyView_map_field, hfields, hrest]

theorem body (types : TypeTable) :
    Takes false (fun _ pieces => ∃ rest, pieces = .mark "\x7b" :: rest ∧ Closing rest)
      (bodyView .unplaced) (Reader.body types) fun _ => Reader.body types := by
  refine bind (expectPunctuation "\x7b") fun _ _ _ => remaining_bind fun count => ?_
  refine (nodes types (count + 1)).more.shaped fun _ pieces hpieces => ?_
  rintro left rfl
  exact ⟨pieces, rfl, hpieces⟩

/-! ### Definitions -/

theorem freshName (types : TypeTable) :
    Takes false (fun token pieces => pieces = [token.piece] ∧ token.kind = .word) Token.piece
      (Reader.freshName types) fun _ => Reader.freshName types := by
  unfold Reader.freshName
  refine bind (expectName _) fun token other htoken => ?_
  have htext : other.text = token.text := (Piece.mk.inj htoken).2.symm
  rw [htext]
  refine ite (fun _ => throw_bind _ _ _) fun _ => pure (fun left hleft => ?_) htoken
  rwa [List.append_nil]

theorem baseType :
    Takes false (fun _ pieces => ∃ base : String, pieces = [.word base]) id Reader.baseType
      fun _ => Reader.baseType := by
  refine next_bind (fun _ => rfl) (fun _ _ _ _ hrun => throw_ok_iff.1 hrun) fun token pos _ => ?_
  dsimp only
  split
  case h_1 hkind _ =>
    exact pure ⟨token.text, by rw [Token.piece_of_word hkind]⟩ rfl
  case h_2 => exact throw _ _

theorem enumValue :
    Takes false (fun _ => Inline) id Reader.enumValue fun _ => Reader.enumValue := by
  rw [enumValue_eq]
  refine next_bind (fun _ => rfl) nofun fun token pos _ => ite (fun hsign => ?_) fun _ =>
    ite (fun hnumber => ?_) fun _ => throw _ _
  · refine bind_pure expectNumberInline (fun m n hvalue => ?_) fun _ pieces hpieces => hpieces.cons ?_
    · rw [show m = n from hvalue]
    · refine Token.not_isStop_of_kind ?_
      rw [(Piece.mk.inj (Token.isOperator_iff.1 hsign)).1]
      nofun
  · refine bind_pure (numberValue token pos) (fun m n hvalue => ?_) ?_
    · rw [show m = n from hvalue]
    · rintro _ _ rfl
      exact Inline.nil.cons (Token.not_isStop_of_kind (by rw [hnumber]; nofun))

theorem not_isStop_of_isPlainName {token : Token} (h : ¬ (!isPlainName token) = true) :
    ¬ IsStop token.piece := by
  refine Token.not_isStop_of_kind ?_
  simp only [isPlainName, Bool.not_eq_true, Bool.not_eq_false', Bool.and_eq_true,
    decide_eq_true_eq] at h
  rw [h.1]
  decide

/-- Behind the value of an enum's member stands a comma and the next member, or the closing brace. -/
theorem enumRest (x : Int → Token → Reader (List EnumMember))
    (y : Int → Token → Nat → Reader (List EnumMember))
    (hend : ∀ value pos c b d, x value (TokenStream.endToken pos) c ≠ .ok (b, d))
    (h : ∀ value token pos, Takes false (fun _ pieces => EndsAt (.mark "\x7d") (token.piece :: pieces)) id
      (x value token) (y value { token with pos }))
    (name : String) (own : Int) (mark : Token) (pos : Position) :
    Takes false (fun _ pieces => EndsAt (.mark "\x7d") (mark.piece :: pieces)) id
      (if mark.isPunctuation "," then
        Reader.next >>= fun token => x (own + 1) token >>= fun rest => Pure.pure (⟨name, own⟩ :: rest)
      else if mark.isPunctuation "\x7d" then Pure.pure [⟨name, own⟩]
      else unexpected "[,] or [\x7d]" mark >>= fun rest => Pure.pure (⟨name, own⟩ :: rest))
      fun n =>
        if mark.isPunctuation "," then
          Reader.next >>= fun token => y (own + 1) token n >>= fun rest =>
            Pure.pure (⟨name, own⟩ :: rest)
        else if mark.isPunctuation "\x7d" then Pure.pure [⟨name, own⟩]
        else unexpected "[,] or [\x7d]" { mark with pos } >>= fun rest =>
          Pure.pure (⟨name, own⟩ :: rest) := by
  refine ite (fun hcomma => ?_) fun _ => ite (fun hclose => ?_) fun _ => throw_bind _ _ _
  · have hstop := Token.not_isStop_of_mark hcomma (by decide)
    refine next_bind (fun _ => rfl) (fun pos c b d hrun => ?_) fun token pos _ => ?_
    · obtain ⟨rest, between, hrest, -⟩ := bind_ok_iff.1 hrun
      exact hend _ pos c rest between hrest
    refine bind_pure (h (own + 1) token pos).more ?_ fun _ _ h => h.cons hstop
    rintro rest _ rfl
    rfl
  · refine pure ?_ rfl
    rw [Token.isPunctuation_iff.1 hclose]
    exact .single _

theorem enumMembers_end (steps : Nat) (value : Int) (pos : Position) (c : Cursor)
    (b : List EnumMember) (d : Cursor) :
    Reader.enumMembers steps value (TokenStream.endToken pos) c ≠ .ok (b, d) := by
  cases steps with
  | zero => exact fun hrun => unexpectedEnd_ok_iff.1 hrun
  | succ steps => exact fun hrun => nomatch hrun

theorem enumMembers (steps : Nat) (value : Int) (token : Token) (pos : Position) :
    Takes false (fun _ pieces => EndsAt (.mark "\x7d") (token.piece :: pieces)) id
      (Reader.enumMembers steps value token)
      fun n => Reader.enumMembers (n + 1) value { token with pos } := by
  induction steps generalizing value token pos with
  | zero => exact unexpectedEnd _ _
  | succ steps ih =>
    refine ite (fun hclose => ?_) fun _ => ite (fun _ => throw_bind _ _ _) fun hname => ?_
    · refine pure ?_ rfl
      rw [Token.isPunctuation_iff.1 hclose]
      exact .single _
    have hstop := not_isStop_of_isPlainName hname
    have hrest (own : Int) (mark : Token) (pos' : Position) :=
      enumRest (Reader.enumMembers steps) (fun value token n => Reader.enumMembers (n + 1) value token)
        (enumMembers_end steps) ih token.text own mark pos'
    refine next_bind (fun _ => rfl) nofun fun mark pos' _ => ite (fun hequals => ?_) fun _ => ?_
    · have hsign : ¬ IsStop mark.piece := by
        refine Token.not_isStop_of_kind ?_
        rw [(Piece.mk.inj (Token.isOperator_iff.1 hequals)).1]
        nofun
      refine shaped (bind_absorbed (absorbs_endsAt (.mark "\x7d")) enumValue ?_) fun _ _ hrest => ?_
      · rintro own _ rfl
        refine next_bind (fun _ => rfl) nofun fun mark pos' _ => ?_
        simp only [pure_bind]
        exact (hrest own mark pos').more
      · exact EndsAt.cons hstop (EndsAt.cons hsign hrest)
    · simp only [pure_bind]
      exact (hrest value mark pos').shaped fun _ _ hpieces => EndsAt.cons hstop hpieces

theorem enumRow (count : Nat) :
    Takes false (fun _ => EndsAt (.mark "\x7d")) id
      (Reader.next >>= Reader.enumMembers (count + 1) 0)
      fun n => Reader.next >>= Reader.enumMembers (n + 1) 0 := by
  refine next_bind (fun _ => rfl) (enumMembers_end _ _) fun token pos _ => ?_
  exact (enumMembers (count + 1) 0 token pos).more

theorem bitfieldMembers (steps : Nat) :
    Takes false (fun _ => Closing) id (Reader.bitfieldMembers steps) Reader.bitfieldMembers := by
  induction steps with
  | zero => exact unexpectedEnd _ _
  | succ steps ih =>
    refine next_bind (fun _ => rfl) nofun fun token pos _ => ite (fun hclose => ?_) fun _ =>
      ite (fun _ => throw_bind _ _ _) fun hname => ?_
    · refine pure ?_ rfl
      rw [Token.isPunctuation_iff.1 hclose]
      exact .closer
    have hstop := not_isStop_of_isPlainName hname
    refine shaped (bind_absorbed absorbs_closing (expectInline (by decide)).level fun _ _ _ => ?_)
      fun _ _ h => h.cons hstop
    refine bind_absorbed absorbs_closing expectNumberInline.level ?_
    rintro width _ rfl
    have hsemicolon := (expectStop ";").shaped fun _ _ => EndsAt.level
    refine bind_absorbed absorbs_closing hsemicolon fun _ _ _ => ?_
    refine bind_loose (absorbs_nothing _) (fun _ h => h.ne_nil rfl) documentation ?_
    rintro comment _ rfl
    refine bind_pure ih ?_ fun _ _ h => h
    rintro rest _ rfl
    rfl

/-- The name of a definition and what stands behind it, through its braces. -/
def Named (definition : Definition) (pieces : List Piece) : Prop :=
  ∃ rest, pieces = .word definition.name :: rest ∧ Outline.Braced rest

theorem structDefinition (types : TypeTable) :
    Takes false Named (Definition.view .unplaced) (Reader.structDefinition types)
      fun _ => Reader.structDefinition types := by
  unfold Reader.structDefinition
  refine bind (freshName types) fun name other hname => ?_
  obtain ⟨-, htext⟩ := Piece.mk.inj hname
  rw [← htext]
  refine bind_pure (body _) (fun members others hmembers => ?_) ?_
  · rw [Definition.view, Definition.view, hmembers, htext]
    rfl
  · rintro members _ ⟨rest, rfl, hrest⟩ _ ⟨rfl, hkind⟩
    exact ⟨_, by rw [Token.piece_of_word hkind]; rfl, hrest.braced⟩

theorem named_of_closing {definition : Definition} {name : Token} (hname : definition.name = name.text)
    (hkind : name.kind = .word) (base : String) {pieces : List Piece} (h : Closing pieces) :
    Named definition (name.piece :: .mark ":" :: .word base :: .mark "\x7b" :: pieces) := by
  have hcolon : Piece.deepen 0 (.mark ":") = some 0 := by decide
  refine ⟨.mark ":" :: .word base :: .mark "\x7b" :: pieces, ?_, h.braced.word.cons hcolon⟩
  rw [Token.piece_of_word hkind, hname]

theorem enumDefinition (types : TypeTable) :
    Takes false Named (Definition.view .unplaced) (Reader.enumDefinition types)
      fun _ => Reader.enumDefinition types := by
  unfold Reader.enumDefinition
  refine bind (freshName types) fun name other hname => ?_
  obtain ⟨-, htext⟩ := Piece.mk.inj hname
  refine bind (expectPunctuation ":") fun _ _ _ => bind baseType ?_
  rintro base _ rfl
  refine bind (expectPunctuation "\x7b") fun _ _ _ => remaining_bind fun count => ?_
  refine next_bind (fun _ => rfl) (fun pos c b d hrun => ?_) fun token pos _ => ?_
  · obtain ⟨members, between, hmembers, -⟩ := bind_ok_iff.1 hrun
    exact enumMembers_end _ _ pos c members between hmembers
  refine bind_pure (enumMembers (count + 1) 0 token pos).more ?_ ?_
  · rintro members _ rfl
    rw [Definition.view, Definition.view, htext]
    rfl
  · rintro members pieces hpieces _ rfl _ ⟨word, rfl⟩ _ rfl _ ⟨rfl, hkind⟩
    exact named_of_closing rfl hkind word (EndsAt.closing hpieces)

theorem bitfieldDefinition (types : TypeTable) :
    Takes false Named (Definition.view .unplaced) (Reader.bitfieldDefinition types)
      fun _ => Reader.bitfieldDefinition types := by
  unfold Reader.bitfieldDefinition
  refine bind (freshName types) fun name other hname => ?_
  obtain ⟨-, htext⟩ := Piece.mk.inj hname
  refine bind (expectPunctuation ":") fun _ _ _ => bind baseType ?_
  rintro base _ rfl
  refine bind (expectPunctuation "\x7b") fun _ _ _ => remaining_bind fun count => ?_
  refine bind_pure (bitfieldMembers (count + 1)).more ?_ ?_
  · rintro members _ rfl
    rw [Definition.view, Definition.view, htext]
    rfl
  · rintro members pieces hpieces _ rfl _ ⟨word, rfl⟩ _ rfl _ ⟨rfl, hkind⟩
    exact named_of_closing rfl hkind word hpieces

/-! ### Declarations -/

theorem includeDirective :
    Takes false (fun directive pieces => pieces = [directive.1.piece, .mark ";"] ∧
        Piece.includedName? (.word "include" :: pieces) = some directive.2)
      (fun directive => (directive.1.piece, directive.2)) Draft.includeDirective
      fun _ => Draft.includeDirective := by
  have hname {kind : TokenKind} {text name : String}
      (h : Piece.includedName? [.word "include", ⟨kind, text⟩, .mark ";"] = some name)
      (pos pos' : Position) :
      Takes false (fun directive pieces =>
          (⟨kind, text⟩ : Piece) :: pieces = [directive.1.piece, .mark ";"] ∧
            Piece.includedName? (.word "include" :: ⟨kind, text⟩ :: pieces) = some directive.2)
        (fun directive : Token × String => (directive.1.piece, directive.2))
        (Reader.expectPunctuation ";" >>= fun _ => Pure.pure (⟨kind, text, pos⟩, name))
        fun _ => Reader.expectPunctuation ";" >>= fun _ => Pure.pure (⟨kind, text, pos'⟩, name) := by
    refine bind_pure (expectPunctuation ";") (fun _ _ _ => rfl) ?_
    rintro _ _ rfl
    exact ⟨rfl, h⟩
  refine next_bind (fun _ => rfl) (fun _ _ _ _ hrun => ?_) fun token pos _ => ?_
  · obtain ⟨_, _, hthrow, -⟩ := bind_ok_iff.1 hrun
    exact throw_ok_iff.1 hthrow
  obtain ⟨kind, text, pos'⟩ := token
  cases kind with
  | string => exact hname (by rfl) pos' pos
  | word => exact hname (by rfl) pos' pos
  | number | punctuation | operator | comment | endOfInput => exact throw_bind _ _ _

end Reader.Takes

/-- What the pieces of a declaration say of it. -/
def Reader.Declaration.Heads : Declaration → List Piece → Prop
  | .definition d, pieces => Piece.declaredName? pieces = some d.name ∧ Piece.includedName? pieces = none
  | .root _, pieces =>
    Piece.declaresRoot pieces = true ∧ Piece.declaredName? pieces = none ∧
      Piece.includedName? pieces = none
  | .inclusion token name, pieces =>
    pieces = [.word "include", token.piece, .mark ";"] ∧ Piece.includedName? pieces = some name

/-- The view of a declaration. -/
def Reader.Declaration.view (v : View) : Declaration → Declaration
  | .definition d => .definition (d.view v)
  | .root body => .root (bodyView v body)
  | .inclusion token name => .inclusion { token with pos := v.place token.pos } name

namespace Reader.Takes

theorem heads_of_named {definition : Definition} {keyword : String} {pieces : List Piece}
    (hkeyword : keyword ∈ ["struct", "enum", "bitfield"]) (h : Named definition pieces) :
    (Declaration.definition definition).Heads (.word keyword :: pieces) ∧
      Outline.Closes some 0 (.word keyword :: pieces) := by
  obtain ⟨rest, rfl, hrest⟩ := h
  refine ⟨?_, hrest.word.word.closes⟩
  simp only [List.mem_cons, List.not_mem_nil, or_false] at hkeyword
  constructor
  · rcases hkeyword with rfl | rfl | rfl <;> rfl
  · refine Piece.includedName?_of_ne ?_ _
    rcases hkeyword with rfl | rfl | rfl <;> decide

/-- A definition behind its keyword. -/
theorem define {x : Reader Definition} {keyword : String}
    (hkeyword : keyword ∈ ["struct", "enum", "bitfield"])
    (hx : Takes false Named (Definition.view .unplaced) x fun _ => x) :
    Takes false (fun declared pieces => declared.Heads (.word keyword :: pieces) ∧
        Outline.Closes some 0 (.word keyword :: pieces)) (Declaration.view .unplaced)
      (x >>= fun d => Pure.pure (.definition d)) fun _ => x >>= fun d => Pure.pure (.definition d) := by
  refine bind_pure hx (fun d other hd => ?_) fun d pieces h => heads_of_named hkeyword h
  rw [Declaration.view, Declaration.view, hd]

theorem piece_of_isWord {token : Token} {text : String} (h : token.isWord text = true) :
    token.piece = .word text := by
  simp only [Token.isWord, Bool.and_eq_true, decide_eq_true_eq] at h
  rw [Token.piece, h.1, h.2]
  rfl

theorem declaration (types : TypeTable) (keyword : Token) (pos : Position) :
    Takes false (fun declared pieces => declared.Heads (keyword.piece :: pieces) ∧
        Outline.Closes some 0 (keyword.piece :: pieces)) (Declaration.view .unplaced)
      (Reader.declaration types keyword) fun _ => Reader.declaration types { keyword with pos } := by
  unfold Reader.declaration
  refine ite (fun hword => ?_) fun _ => ite (fun hword => ?_) fun _ => ite (fun hword => ?_) fun _ =>
    ite (fun hword => ?_) fun _ => ite (fun hword => ?_) fun _ => throw _ _
  all_goals
    rw [piece_of_isWord hword]
  · refine bind_pure includeDirective (fun directive other hsame => ?_) ?_
    · obtain ⟨hpiece, hname⟩ := Prod.mk.inj hsame
      rw [Declaration.view, Declaration.view, hname, Token.eq_of_piece hpiece.symm]
      rfl
    · rintro directive _ ⟨rfl, hname⟩
      have hkeyword : Piece.deepen 0 (.word "include") = some 0 := by decide
      have hdirective := Piece.deepen_of_kind (Piece.kind_of_includedName? hname) 0
      have hdepth : Outline.depth? some 0 [.word "include", directive.1.piece] = some 0 := by
        simp only [Outline.depth?, Outline.deepen, hkeyword, hdirective, Option.bind_some]
      have hcloser : Outline.Closes some 0 [.mark ";"] := rfl
      exact ⟨⟨rfl, hname⟩, Outline.closes_append hdepth hcloser⟩
  · exact define (by decide) (structDefinition types)
  · exact define (by decide) (enumDefinition types)
  · exact define (by decide) (bitfieldDefinition types)
  · refine bind_pure (body types) (fun nodes other hsame => ?_) ?_
    · rw [Declaration.view, Declaration.view, hsame]
    · rintro nodes _ ⟨rest, rfl, hrest⟩
      have hinclude := Piece.includedName?_of_ne (show "schema" ≠ "include" by decide)
      exact ⟨⟨rfl, rfl, hinclude _⟩, hrest.braced.word.closes⟩

end Reader.Takes

namespace Reader

variable {types : TypeTable} {c d : Cursor} {keyword : Token} {declared : Declaration}

def nextDeclaration (types : TypeTable) : Reader (Token × Declaration) :=
  next >>= fun keyword =>
    if keyword.kind = .endOfInput then unexpected "declaration" keyword
    else declaration types keyword >>= fun declared => pure (keyword, declared)

theorem nextDeclaration_ok_iff : nextDeclaration types c = .ok ((keyword, declared), d) ↔
    declaration? types c = .ok (some (keyword, declared), d) := by
  unfold declaration? nextDeclaration
  rw [bind_ok_iff, bind_ok_iff]
  refine exists_congr fun token => exists_congr fun between => and_congr_right fun _ => ?_
  by_cases hend : token.kind = .endOfInput
  · rw [if_pos hend, if_pos hend, pure_ok_iff]
    exact ⟨fun h => (throw_ok_iff.1 h).elim, fun h => nomatch h.1⟩
  · rw [if_neg hend, if_neg hend, bind_ok_iff, bind_ok_iff]
    refine exists_congr fun read => exists_congr fun behind => and_congr_right fun _ => ?_
    rw [pure_ok_iff, pure_ok_iff, Option.some.injEq]

theorem Takes.nextDeclaration (types : TypeTable) :
    Takes false (fun read pieces => read.2.Heads pieces ∧ Outline.Closes some 0 pieces)
      (fun read => read.2.view .unplaced) (nextDeclaration types) fun _ => nextDeclaration types := by
  refine next_bind (fun _ => rfl) (fun pos c b d hrun => ?_) fun token pos _ =>
    ite (fun _ => throw _ _) fun _ => ?_
  · have hend : (TokenStream.endToken pos).kind = .endOfInput := rfl
    rw [if_pos hend] at hrun
    exact throw_ok_iff.1 hrun
  exact bind_pure (declaration types token pos) (fun _ _ hsame => hsame) fun _ _ h => h

/-- A declaration that is read takes the stretch that stands in front. Where the same pieces stand in
front of something else, the same is declared up to places. -/
theorem declaration?_some (h : declaration? types c = .ok (some (keyword, declared), d)) :
    ∃ used, c = ⟨used ++ d.tokens, d.ending⟩ ∧ Outline.Closes Token.solid? 0 used ∧
      declared.Heads (Outline.solid Token.solid? used) ∧
        ∀ (others : List Token) (rest : Cursor), others.map Token.piece = used.map Token.piece →
          ∃ keyword' declared', declaration? types ⟨others ++ rest.tokens, rest.ending⟩
              = .ok (some (keyword', declared'), rest) ∧
            declared.view .unplaced = declared'.view .unplaced := by
  obtain ⟨used, hc, ⟨hheads, hcloses⟩, hends, hbehind⟩ :=
    Takes.nextDeclaration types c _ d (nextDeclaration_ok_iff.2 h)
  refine ⟨used, hc, Outline.closes_of_solid hcloses (hends rfl), hheads, fun others rest hothers => ?_⟩
  obtain ⟨⟨keyword', declared'⟩, hrun, hview⟩ :=
    hbehind used.length others rest hothers (Nat.le_refl _) fun hloose => nomatch hloose
  exact ⟨keyword', declared', nextDeclaration_ok_iff.1 hrun, hview⟩

/-- Behind the last declaration only comments are left, and the source is finished. -/
theorem declaration?_none (hc : ∀ token ∈ c.tokens, token.kind ≠ .endOfInput)
    (h : declaration? types c = .ok (none, d)) :
    Remarks c.tokens ∧ ∃ pos, c.ending = .finished pos := by
  unfold declaration? at h
  obtain ⟨token, between, hnext, hrest⟩ := bind_ok_iff.1 h
  have hend : token.kind = .endOfInput := by
    by_cases hend : token.kind = .endOfInput
    · exact hend
    · rw [if_neg hend] at hrest
      obtain ⟨_, _, -, hpure⟩ := bind_ok_iff.1 hrest
      exact nomatch (pure_ok_iff.1 hpure).1
  obtain ⟨tokens, ending⟩ := c
  obtain ⟨comments, hcomments, rfl | ⟨head, tail, hhead, rfl⟩⟩ := Cursor.exists_remarks tokens
  · refine ⟨hcomments, ?_⟩
    rw [next_end hcomments] at hnext
    obtain ⟨pos, houtcome, -⟩ := Except.map_ok_iff.1 hnext
    cases ending with
    | finished pos => exact ⟨pos, rfl⟩
    | fault error => cases houtcome
    | spent => cases houtcome
  · rw [next_token hcomments hhead] at hnext
    cases hnext
    exact absurd hend (hc token (by simp))

/-! ### Declarations in the outline -/

namespace Declaration

def included? : Declaration → Option String
  | .inclusion _ name => some name
  | _ => none

def declared? : Declaration → Option String
  | .definition d => some d.name
  | _ => none

theorem Heads.names {pieces : List Piece} (h : declared.Heads pieces) :
    Piece.includedName? pieces = declared.included? ∧
      Piece.declaredName? pieces = declared.declared? := by
  cases declared with
  | definition d => exact ⟨h.2, h.1⟩
  | root body => exact ⟨h.2.2, h.2.1⟩
  | inclusion token name =>
    obtain ⟨rfl, hname⟩ := h
    exact ⟨hname, rfl⟩

end Declaration

theorem includedNames_of_some (h : declaration? types c = .ok (some (keyword, declared), d)) :
    includedNames c.tokens = declared.included?.toList ++ includedNames d.tokens := by
  obtain ⟨used, rfl, hcloses, hheads, -⟩ := declaration?_some h
  unfold includedNames
  rw [Outline.stretches_of_closes hcloses, List.filterMap_cons, hheads.names.1]
  cases declared.included? <;> rfl

theorem declaredNames_of_some (h : declaration? types c = .ok (some (keyword, declared), d)) :
    declaredNames c.tokens = declared.declared?.toList ++ declaredNames d.tokens := by
  obtain ⟨used, rfl, hcloses, hheads, -⟩ := declaration?_some h
  unfold declaredNames
  rw [Outline.stretches_of_closes hcloses, List.filterMap_cons, hheads.names.2]
  cases declared.declared? <;> rfl

theorem stretches_of_remarks {tokens : List Token} (h : Remarks tokens) :
    Outline.stretches Token.solid? tokens = [tokens] :=
  Outline.stretches_of_solid_eq_nil (Outline.solid_remarks h)

theorem includedNames_of_remarks {tokens : List Token} (h : Remarks tokens) :
    includedNames tokens = [] := by
  unfold includedNames
  rw [stretches_of_remarks h, List.filterMap_cons, Outline.solid_remarks h]
  rfl

theorem declaredNames_of_remarks {tokens : List Token} (h : Remarks tokens) :
    declaredNames tokens = [] := by
  unfold declaredNames
  rw [stretches_of_remarks h, List.filterMap_cons, Outline.solid_remarks h]
  rfl

end Reader

end BinarySchema
