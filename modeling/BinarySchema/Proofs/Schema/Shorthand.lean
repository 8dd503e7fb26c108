import BinarySchema.Proofs.Schema.Rows
import BinarySchema.Proofs.Schema.Sharing

/-!
# Sources with a row exchanged

A run over a source with one row of tokens goes declaration by declaration with a run over the source with
the other row. In front of the row the same is declared from the same pieces, one declaration has the row
inside, and behind it the pieces are the same again. So the two sources compile to the same schema up to
places, or neither of them compiles.

For declarations of several names this says that they are a shorthand (`compile_shorthand`).
-/

namespace BinarySchema

open Outline (solid)
open Reader (Declaration declaration? nextDeclaration_ok_iff Rows)

theorem Reader.declaration?_end {tokens : List Token} (h : Remarks tokens) (types : TypeTable)
    (pos : Position) : ∃ d, declaration? types ⟨tokens, .finished pos⟩ = .ok (none, d) := by
  refine ⟨⟨[], .finished pos⟩, ?_⟩
  unfold Reader.declaration?
  rw [bind_of_ok (next_end h)]
  rfl

namespace Exchange

/-- That a source has the pieces of another one, or has them with a row exchanged. -/
structure Relates (ex : Exchange) (c c' : Cursor) : Prop where
  kinds : ∀ token ∈ c.tokens, token.kind ≠ .endOfInput
  ending : ∀ pos, c.ending = .finished pos → ∃ pos', c'.ending = .finished pos'
  tokens : c'.tokens.map Token.piece = c.tokens.map Token.piece ∨
    ∃ front row back front' row' back', c.tokens = front ++ (row ++ back) ∧
      c'.tokens = front' ++ (row' ++ back') ∧ Fresh true front ∧ ex.IsOld row ∧ ex.IsNew row' ∧
        ex.Follows back ∧ front'.map Token.piece = front.map Token.piece ∧
          back'.map Token.piece = back.map Token.piece

variable {ex : Exchange} {types : TypeTable} {c c' d : Cursor} {keyword : Token} {declared : Declaration}

theorem Relates.scan (ex : Exchange) (text : String) : ex.Relates (.scan text) (.scan text) where
  kinds := TokenStream.kind_ne_scan text
  ending pos h := ⟨pos, h⟩
  tokens := .inl rfl

theorem not_remarks {front row back : List Token} (hrow : ex.IsOld row) :
    ¬ Remarks (front ++ (row ++ back)) := by
  obtain ⟨first, rest, rfl, -, hfirst, -⟩ := hrow.exists_cons
  intro hremarks
  exact hfirst (hremarks first (by simp))

/-- The sources end together. -/
theorem Relates.ended (h : ex.Relates c c') (hread : declaration? types c = .ok (none, d)) :
    ∃ d', declaration? types c' = .ok (none, d') := by
  obtain ⟨hremarks, pos, hending⟩ := Reader.declaration?_none h.kinds hread
  obtain ⟨pos', hending'⟩ := h.ending pos hending
  rcases h.tokens with hsame | ⟨front, row, back, _, _, _, htokens, -, -, hrow, -⟩
  · obtain ⟨tokens, ending⟩ := c'
    obtain rfl : ending = .finished pos' := hending'
    exact Reader.declaration?_end (hremarks.of_pieces hsame) types pos'
  · rw [htokens] at hremarks
    exact absurd hremarks (not_remarks hrow)

/-- The sources declare the same, and what is behind it is related again. -/
theorem Relates.declares
    (hrows : ∀ types steps, Rows ex true (bodyView .unplaced) (Reader.nodes types steps) (Reader.nodes types))
    (h : ex.Relates c c') (hread : declaration? types c = .ok (some (keyword, declared), d)) :
    ∃ keyword' declared' d', declaration? types c' = .ok (some (keyword', declared'), d') ∧
      declared.view .unplaced = declared'.view .unplaced ∧ ex.Relates d d' := by
  obtain ⟨used, hused, -, -, hreplay⟩ := Reader.declaration?_some hread
  obtain ⟨tokens, ending⟩ := c
  obtain ⟨tokens', ending'⟩ := c'
  obtain ⟨rfl, rfl⟩ := TokenStream.mk.inj hused
  have hkinds : ∀ token ∈ d.tokens, token.kind ≠ .endOfInput :=
    fun token htoken => h.kinds token (List.mem_append_right _ htoken)
  rcases h.tokens with hsame | ⟨front, row, back, front', row', back', htokens, htokens', hfresh, hrow,
    hrow', hback, hfront', hback'⟩
  · obtain ⟨others, rest, rfl, hothers, hrest⟩ := List.map_eq_append_iff.1
      (hsame.trans List.map_append)
    obtain ⟨keyword', declared', hread', hview⟩ := hreplay others ⟨rest, ending'⟩ hothers
    exact ⟨keyword', declared', ⟨rest, ending'⟩, hread', hview, hkinds, h.ending, .inl hrest⟩
  obtain rfl : tokens' = front' ++ (row' ++ back') := htokens'
  have hnext : Reader.nextDeclaration types ⟨front ++ (row ++ back), d.ending⟩
      = .ok ((keyword, declared), d) := by
    rw [← show used ++ d.tokens = front ++ (row ++ back) from htokens]
    exact nextDeclaration_ok_iff.2 hread
  obtain ⟨-, ⟨ahead, left, rfl, hleft, hbehind⟩ | ⟨-, behind, rfl, hpasses⟩⟩ :=
    Reader.Trades.nextDeclaration hrows types front row back d.ending (keyword, declared) d hfresh hrow
      hback hnext
  · obtain rfl : used = ahead := by
      rw [hbehind, List.append_assoc] at htokens
      exact List.append_cancel_right htokens
    obtain ⟨others, left', rfl, hothers, hleft'⟩ := List.map_eq_append_iff.1
      (hfront'.trans List.map_append)
    obtain ⟨keyword', declared', hread', hview⟩ :=
      hreplay others ⟨left' ++ (row' ++ back'), ending'⟩ hothers
    rw [← List.append_assoc] at hread'
    refine ⟨keyword', declared', _, hread', hview, hkinds, h.ending, .inr ?_⟩
    exact ⟨left, row, back, left', row', back', hbehind, rfl, hleft, hrow, hrow', hback, hleft', hback'⟩
  · obtain ⟨others, rest, rfl, hothers, hrest⟩ := List.map_eq_append_iff.1
      (hback'.trans List.map_append)
    obtain ⟨⟨keyword', declared'⟩, hread', hview⟩ := hpasses _ front' row' others ⟨rest, ending'⟩ hfront'
      hrow' hothers (Nat.le_refl _)
    exact ⟨keyword', declared', ⟨rest, ending'⟩, nextDeclaration_ok_iff.1 hread', hview, hkinds, h.ending,
      .inl hrest⟩

end Exchange

/-! ### Runs -/

namespace Draft

variable {fs : FileSystem} {standing : Standing} {draft other after : Draft} {keyword keyword' : Token}
  {declared declared' : Declaration}

theorem includeTarget_again {token token' : Token} {name : String} {target : Option (Path × String)}
    (hincluded : other.included = draft.included)
    (h : includeTarget fs standing draft token name = .ok target) :
    includeTarget fs standing other token' name = .ok target := by
  rw [includeTarget_eq _ rfl] at h ⊢
  rw [hincluded]
  split at h
  · cases h
  rename_i hnul
  rw [if_neg hnul]
  split at h
  · cases h
  rename_i hactive
  rw [if_neg hactive]
  split at h
  · rename_i hmet
    rw [if_pos hmet]
    exact h
  rename_i hmet
  rw [if_neg hmet]
  split at h
  · cases h
  · cases h
  · split at h
    · cases h
    · exact h

theorem Similar.meets (h : draft.Similar other) (path : Path) :
    (draft.meets path).Similar (other.meets path) :=
  ⟨h.opened, h.definitions, h.root⟩

/-- Where a declaration makes one draft of another, its like makes the like of it. -/
theorem effect_goes_again (hsimilar : draft.Similar other) (hincluded : other.included = draft.included)
    (hview : declared.view .unplaced = declared'.view .unplaced)
    (h : effect fs standing draft keyword declared = .ok (.goes after)) :
    ∃ after', effect fs standing other keyword' declared' = .ok (.goes after') ∧
      after.Similar after' ∧ after'.included = after.included := by
  cases declared with
  | definition d =>
    cases declared' with
    | definition d' =>
      cases h
      exact ⟨_, rfl, hsimilar.grow (Declaration.definition.inj hview), hincluded⟩
    | root body => cases hview
    | inclusion token name => cases hview
  | root body =>
    cases declared' with
    | definition d => cases hview
    | inclusion token name => cases hview
    | root body' =>
      unfold effect at h ⊢
      dsimp only at h ⊢
      split at h
      · rename_i houter
        cases h
        rw [if_pos houter]
        exact ⟨other, rfl, hsimilar, hincluded⟩
      rename_i houter
      split at h
      · cases h
      rename_i hroot
      cases h
      have hother : ¬ other.root.isSome = true := by
        have hsame := congrArg Option.isSome hsimilar.root
        rw [Option.isSome_map, Option.isSome_map] at hsame
        rwa [← hsame]
      rw [if_neg houter, if_neg hother]
      refine ⟨_, rfl, ⟨hsimilar.opened, hsimilar.definitions, ?_⟩, hincluded⟩
      exact congrArg some (Declaration.root.inj hview)
  | inclusion token name =>
    cases declared' with
    | definition d => cases hview
    | root body => cases hview
    | inclusion token' name' =>
      obtain rfl : name = name' := (Declaration.inclusion.inj hview).2
      obtain ⟨target, htarget, hgoes⟩ := Except.map_ok_iff.1 h
      cases target with
      | some file => cases hgoes
      | none =>
        cases hgoes
        have htarget' : includeTarget fs standing other token' name = .ok none :=
          includeTarget_again hincluded htarget
        refine ⟨other, ?_, hsimilar, hincluded⟩
        rw [effect, htarget']
        rfl

theorem effect_enters_again {path : Path} {text : String} (hincluded : other.included = draft.included)
    (hview : declared.view .unplaced = declared'.view .unplaced)
    (h : effect fs standing draft keyword declared = .ok (.enters path text)) (keyword' : Token) :
    effect fs standing other keyword' declared' = .ok (.enters path text) := by
  obtain ⟨token, name, rfl, -⟩ := effect_enters h
  cases declared' with
  | definition d => cases hview
  | root body => cases hview
  | inclusion token' name' =>
    obtain rfl : name = name' := (Declaration.inclusion.inj hview).2
    obtain ⟨target, htarget, hgoes⟩ := Except.map_ok_iff.1 h
    cases target with
    | none => cases hgoes
    | some file =>
      have htarget' : includeTarget fs standing other token' name = .ok (some file) :=
        includeTarget_again hincluded htarget
      rw [effect, htarget']
      exact congrArg Except.ok hgoes

/-- A run over one source is accompanied by a run over the other one, with the same sources met. -/
theorem Run.exchange {ex : Exchange} {c c' : Cursor} {met : List Path}
    (hrows : ∀ types steps, Rows ex true (bodyView .unplaced) (Reader.nodes types steps) (Reader.nodes types))
    (h : Run fs standing draft c met (.ok after)) (hc : ex.Relates c c')
    (hsimilar : draft.Similar other) (hincluded : other.included = draft.included) :
    ∃ after', Run fs standing other c' met (.ok after') ∧ after.Similar after' ∧
      after'.included = after.included := by
  generalize hresult : Except.ok after = result at h
  induction h generalizing after other c' with
  | failed | refused | broken => cases hresult
  | ended read =>
    cases hresult
    obtain ⟨d', hread'⟩ := hc.ended read
    rw [Reader.declaration?_congr hsimilar.agrees hsimilar.opened.1 hsimilar.opened.2] at hread'
    exact ⟨other, .ended hread', hsimilar, hincluded⟩
  | went read effect rest ih =>
    obtain ⟨keyword', declared', d', hread', hview, hd⟩ := hc.declares hrows read
    rw [Reader.declaration?_congr hsimilar.agrees hsimilar.opened.1 hsimilar.opened.2] at hread'
    obtain ⟨between, heffect, hbetween, hkept⟩ := effect_goes_again hsimilar hincluded hview effect
    obtain ⟨after', hrest, hafter⟩ := ih hd hbetween hkept hresult
    exact ⟨after', .went hread' heffect hrest, hafter⟩
  | @entered _ _ _ _ _ _ path _ _ _ _ _ read effect inside rest ih ih' =>
    obtain ⟨keyword', declared', d', hread', hview, hd⟩ := hc.declares hrows read
    rw [Reader.declaration?_congr hsimilar.agrees hsimilar.opened.1 hsimilar.opened.2] at hread'
    have heffect := effect_enters_again hincluded hview effect keyword'
    obtain ⟨between, hinside, hbetween, hkept⟩ := ih (Exchange.Relates.scan ex _) (hsimilar.meets path)
      (congrArg (path :: ·) hincluded) rfl
    obtain ⟨after', hrest, hafter⟩ := ih' hd hbetween hkept hresult
    exact ⟨after', .entered hread' heffect hinside hrest, hafter⟩

/-- A source with a row that bodies cannot begin with is not run to its end. -/
theorem Run.not_ok {ex : Exchange} {front row back : List Token} {ending : Ending} {met : List Path}
    (hrows : ∀ types steps,
      Rows ex false (bodyView .unplaced) (Reader.nodes types steps) (Reader.nodes types))
    (hfresh : Fresh true front) (hrow : ex.IsOld row) (hback : ex.Follows back)
    (hkinds : ∀ token ∈ front ++ (row ++ back), token.kind ≠ .endOfInput) :
    ¬ Run fs standing draft ⟨front ++ (row ++ back), ending⟩ met (.ok after) := by
  intro h
  generalize hresult : Except.ok after = result at h
  generalize hc : (⟨front ++ (row ++ back), ending⟩ : Cursor) = c at h
  have hbehind {types : TypeTable} {keyword : Token} {declared : Declaration} {d : Cursor}
      {front : List Token} (hfresh : Fresh true front)
      (read : declaration? types ⟨front ++ (row ++ back), ending⟩ = .ok (some (keyword, declared), d)) :
      ∃ used left, front = used ++ left ∧ Fresh true left ∧ d = ⟨left ++ (row ++ back), ending⟩ := by
    obtain ⟨hending, ⟨used, left, hfront, hleft, htokens⟩ | ⟨hthrough, -⟩⟩ :=
      Reader.Trades.nextDeclaration hrows types front row back ending (keyword, declared) d hfresh hrow
        hback (nextDeclaration_ok_iff.2 read)
    · refine ⟨used, left, hfront, hleft, ?_⟩
      rw [← htokens, ← hending]
    · cases hthrough
  induction h generalizing after front with
  | failed | refused | broken => cases hresult
  | ended read =>
    subst hc
    exact Exchange.not_remarks hrow (Reader.declaration?_none hkinds read).1
  | went read effect rest ih =>
    subst hc
    obtain ⟨used, left, rfl, hleft, rfl⟩ := hbehind hfresh read
    refine ih hleft (fun token htoken => hkinds token ?_) hresult rfl
    rw [List.append_assoc]
    exact List.mem_append_right _ htoken
  | entered read effect inside rest ih ih' =>
    subst hc
    obtain ⟨used, left, rfl, hleft, rfl⟩ := hbehind hfresh read
    refine ih' hleft (fun token htoken => hkinds token ?_) hresult rfl
    rw [List.append_assoc]
    exact List.mem_append_right _ htoken

end Draft

theorem Schema.compile_exchange {ex : Exchange} {fs : FileSystem} {text text' : String}
    {directory : Option String} {schema : Schema}
    (hrows : ∀ types steps, Rows ex true (bodyView .unplaced) (Reader.nodes types steps) (Reader.nodes types))
    (htext : ex.Relates (.scan text) (.scan text')) (h : compile fs text directory = .ok schema) :
    ∃ schema', compile fs text' directory = .ok schema' ∧
      schema'.types.definitions.map (Definition.view .unplaced)
        = schema.types.definitions.map (Definition.view .unplaced) ∧
      schema'.root.map (bodyView .unplaced) = schema.root.map (bodyView .unplaced) := by
  obtain ⟨met, result, hrun, hcompile⟩ := exists_run fs text directory
  rw [hcompile] at h
  obtain ⟨after, rfl, rfl⟩ := Except.map_ok_iff.1 h
  have hstart : Draft.Similar {} {} := ⟨⟨.empty, .empty⟩, rfl, rfl⟩
  obtain ⟨after', hrun', hsimilar, -⟩ := hrun.exchange hrows htext hstart rfl
  obtain ⟨met', result', hrun'', hcompile'⟩ := exists_run fs text' directory
  obtain ⟨-, rfl⟩ := hrun''.unique hrun'
  exact ⟨_, hcompile', hsimilar.definitions.symm, hsimilar.root.symm⟩

/-! ### Declarations of several names -/

def piecesOf (text : String) : List Piece :=
  (TokenStream.scan text).tokens.map Token.piece

/-- That a source text is scanned to its end. -/
def Scans (text : String) : Prop :=
  ∃ pos, (TokenStream.scan text).ending = .finished pos

theorem solid_eq_filter (tokens : List Token) :
    solid Token.solid? tokens = (tokens.map Token.piece).filter (·.kind ≠ .comment) := by
  induction tokens with
  | nil => rfl
  | cons token rest ih =>
    by_cases hkind : token.kind = .comment
    · have hnone : token.solid? = none := if_pos hkind
      rw [solid, List.filterMap_cons_none hnone, List.map_cons,
        List.filter_cons_of_neg (by simp [Token.piece, hkind])]
      exact ih
    · rw [Outline.solid_cons hkind, List.map_cons,
        List.filter_cons_of_pos (by simp [Token.piece, hkind]), ih]

theorem Fresh.of_pieces {tokens : List Token}
    (h : ∀ last ∈ ((tokens.map Token.piece).filter (·.kind ≠ .comment)).getLast?, Outline.IsStop last) :
    Fresh true tokens := by
  rw [← solid_eq_filter] at h
  cases hlast : (solid Token.solid? tokens).getLast? with
  | none => exact .inl ⟨rfl, List.getLast?_eq_none_iff.1 hlast⟩
  | some last => exact .inr ⟨last, hlast, h last hlast⟩

theorem exists_stretches {text : String} {front row back : List Piece}
    (h : piecesOf text = front ++ (row ++ back)) :
    ∃ front' row' back', (TokenStream.scan text).tokens = front' ++ (row' ++ back') ∧
      front'.map Token.piece = front ∧ row'.map Token.piece = row ∧ back'.map Token.piece = back := by
  obtain ⟨front', behind, hsplit, hfront, hbehind⟩ := List.map_eq_append_iff.1 h
  obtain ⟨row', back', rfl, hrow, hback⟩ := List.map_eq_append_iff.1 hbehind
  exact ⟨front', row', back', hsplit, hfront, hrow, hback⟩

theorem Exchange.follows_of_pieces {ex : Exchange} {back : List Token}
    (h : ∀ piece ∈ (back.map Token.piece).head?, ex.follow piece) : ex.Follows back := by
  intro token htoken
  refine h token.piece ?_
  rw [List.head?_map]
  exact Option.mem_map_of_mem _ htoken

/-- A source that differs from another one in a row. -/
theorem Exchange.Relates.of_pieces {ex : Exchange} {text text' : String} {front back : List Piece}
    (htext : piecesOf text = front ++ ((.word ex.word :: ex.old) ++ back))
    (htext' : piecesOf text' = front ++ ((.word ex.word :: ex.new) ++ back))
    (hends : Scans text → Scans text')
    (hfront : ∀ last ∈ (front.filter (·.kind ≠ .comment)).getLast?, Outline.IsStop last)
    (hback : ∀ piece ∈ back.head?, ex.follow piece) :
    ex.Relates (.scan text) (.scan text') := by
  refine ⟨TokenStream.kind_ne_scan text, fun pos hpos => hends ⟨pos, hpos⟩, .inr ?_⟩
  obtain ⟨front, row, back, hsplit, rfl, hrow, rfl⟩ := exists_stretches htext
  obtain ⟨front', row', back', hsplit', hfront', hrow', hback'⟩ := exists_stretches htext'
  exact ⟨front, row, back, front', row', back', hsplit, hsplit', .of_pieces hfront, hrow, hrow',
    follows_of_pieces hback, hfront', hback'⟩

theorem Schema.not_compile_exchange {ex : Exchange} {fs : FileSystem} {text : String}
    {directory : Option String} {front back : List Piece}
    (hrows : ∀ types steps,
      Rows ex false (bodyView .unplaced) (Reader.nodes types steps) (Reader.nodes types))
    (htext : piecesOf text = front ++ ((.word ex.word :: ex.old) ++ back))
    (hfront : ∀ last ∈ (front.filter (·.kind ≠ .comment)).getLast?, Outline.IsStop last)
    (hback : ∀ piece ∈ back.head?, ex.follow piece) (schema : Schema) :
    compile fs text directory ≠ .ok schema := by
  intro h
  obtain ⟨met, result, hrun, hcompile⟩ := exists_run fs text directory
  rw [hcompile] at h
  obtain ⟨after, rfl, -⟩ := Except.map_ok_iff.1 h
  obtain ⟨front, row, back, hsplit, rfl, hrow, rfl⟩ := exists_stretches htext
  have htokens : (TokenStream.scan text).tokens = front ++ (row ++ back) := hsplit
  have hkinds : ∀ token ∈ front ++ (row ++ back), token.kind ≠ .endOfInput := by
    rw [← htokens]
    exact TokenStream.kind_ne_scan text
  have hcursor : TokenStream.scan text = ⟨front ++ (row ++ back), (TokenStream.scan text).ending⟩ := by
    rw [← htokens]
  rw [hcursor] at hrun
  exact hrun.not_ok hrows (.of_pieces hfront) hrow (Exchange.follows_of_pieces hback) hkinds

/-- A declaration of several names is a shorthand. Where a declaration may begin, a source with the
declaration of all names compiles to the same schema up to places as the source with a declaration for each
of them, whether there is a comment behind every declaration or behind none; or neither source compiles. The
one exception is that a keyword of control blocks can be a name behind a comma only. -/
theorem compile_shorthand (fs : FileSystem) (directory : Option String) (s : SharedDeclaration)
    (front back : List Piece) (joined separate : String)
    (hjoined : piecesOf joined = front ++ (s.joined ++ back))
    (hseparate : piecesOf separate = front ++ (s.separate ++ back))
    (hscans : Scans joined ↔ Scans separate)
    (hfront : ∀ last ∈ (front.filter (·.kind ≠ .comment)).getLast?, Outline.IsStop last)
    (hback : ∀ piece ∈ back.head?, s.note = none → piece.kind ≠ .comment) :
    ((∃ schema, Schema.compile fs joined directory = .ok schema) ∧
        (∀ name ∈ s.others, Control.ofWord? name = none) ↔
      ∃ schema, Schema.compile fs separate directory = .ok schema) ∧
    ∀ schema schema', Schema.compile fs joined directory = .ok schema →
      Schema.compile fs separate directory = .ok schema' →
        schema.types.definitions.map (Definition.view .unplaced)
          = schema'.types.definitions.map (Definition.view .unplaced) ∧
        schema.root.map (bodyView .unplaced) = schema'.root.map (bodyView .unplaced) := by
  have hsplit : s.split.Relates (.scan joined) (.scan separate) :=
    .of_pieces hjoined hseparate hscans.1 hfront hback
  have hjoin : s.join.Relates (.scan separate) (.scan joined) :=
    .of_pieces hseparate hjoined hscans.2 hfront hback
  have hfree (h : ∃ schema, Schema.compile fs separate directory = .ok schema) :
      ∀ name ∈ s.others, Control.ofWord? name = none := by
    by_cases hnames : ∀ name ∈ s.others, Control.ofWord? name = none
    · exact hnames
    · obtain ⟨schema, h⟩ := h
      have hthrough : (∀ name ∈ s.others, Control.ofWord? name = none) → false = true :=
        fun hfree => absurd hfree hnames
      exact absurd h
        (Schema.not_compile_exchange (Reader.rows_join hthrough) hseparate hfront hback schema)
  refine ⟨⟨?_, fun h => ?_⟩, fun schema schema' h h' => ?_⟩
  · rintro ⟨⟨schema, h⟩, hnames⟩
    obtain ⟨schema', h', -⟩ := Schema.compile_exchange (Reader.rows_split hnames) hsplit h
    exact ⟨schema', h'⟩
  · obtain ⟨schema, hseparate⟩ := h
    obtain ⟨schema', h', -⟩ :=
      Schema.compile_exchange (Reader.rows_join fun _ => rfl) hjoin hseparate
    exact ⟨⟨schema', h'⟩, hfree ⟨schema, hseparate⟩⟩
  · obtain ⟨other, hother, hdefinitions, hroot⟩ :=
      Schema.compile_exchange (Reader.rows_join fun _ => rfl) hjoin h'
    rw [h] at hother
    cases hother
    exact ⟨hdefinitions, hroot⟩

/-- Three fields of two bytes each with one comment. -/
def SharedDeclaration.channels : SharedDeclaration where
  name := "r"
  others := ["g", "b"]
  type := "byte"
  length := [.mark "[", ⟨.number, "2"⟩, .mark "]"]
  note := some ⟨.comment, "/* 16 bits */"⟩
  inline := by
    unfold Outline.Inline Outline.IsStop Outline.IsBrace
    decide
  remark := by decide

theorem compile_shorthand_channels :
    let joined := "schema \x7b n : byte; r, g, b : byte[2]; /* 16 bits */ \x7d"
    let separate := "schema \x7b n : byte; r : byte[2]; /* 16 bits */ g : byte[2]; /* 16 bits */
      b : byte[2]; /* 16 bits */ \x7d"
    ∃ schema schema', Schema.compile {} joined = .ok schema ∧ Schema.compile {} separate = .ok schema' ∧
      schema.root.map (bodyView .unplaced) = schema'.root.map (bodyView .unplaced) := by
  intro joined separate
  have hshorthand := compile_shorthand {} none .channels
    [.word "schema", .mark "\x7b", .word "n", .mark ":", .word "byte", .mark ";"] [.mark "\x7d"] joined separate
    (by decide +kernel) (by decide +kernel)
    ⟨fun _ => ⟨⟨2, 35⟩, by decide +kernel⟩, fun _ => ⟨⟨1, 54⟩, by decide +kernel⟩⟩
    (by unfold Outline.IsStop Outline.IsBrace; decide) (by decide)
  have hjoined : (Schema.compile {} joined).toOption.isSome = true := by
    decide +kernel
  cases hcompile : Schema.compile {} joined with
  | error e =>
    rw [hcompile] at hjoined
    cases hjoined
  | ok schema =>
    obtain ⟨schema', hcompile'⟩ := hshorthand.1.1 ⟨⟨schema, hcompile⟩, by decide⟩
    exact ⟨schema, schema', rfl, hcompile', (hshorthand.2 schema schema' hcompile hcompile').2⟩

/-- A keyword of control blocks is a name behind a comma, and no name where it comes first. -/
theorem compile_keyword_behind_comma :
    piecesOf "schema \x7b a, if : byte; \x7d"
        = [.word "schema", .mark "\x7b", .word "a", .mark ",", .word "if", .mark ":", .word "byte", .mark ";",
            .mark "\x7d"] ∧
      piecesOf "schema \x7b a : byte; if : byte; \x7d"
        = [.word "schema", .mark "\x7b", .word "a", .mark ":", .word "byte", .mark ";", .word "if", .mark ":",
            .word "byte", .mark ";", .mark "\x7d"] ∧
      (Schema.compile {} "schema \x7b a, if : byte; \x7d").toOption.isSome = true ∧
      (Schema.compile {} "schema \x7b a : byte; if : byte; \x7d").toOption.isSome = false := by
  decide +kernel

end BinarySchema
