import BinarySchema.Proofs.Schema.Run
import BinarySchema.Proofs.Token.Composition

/-!
# Includes as one text

A text with its includes goes by one text without any: each directive is replaced by the text of its
file, on lines of its own and without its schema blocks, the first time that the path is met, and by
nothing later.

The replacement goes by the outline of the texts and compiles nothing. That it compiles to the same
schema is proved along a run: the text that stands for a source makes of every similar draft what the
run makes of the draft (`Run.yields`). So the tables agree wherever the one text declares what the
sources do, and declarations are read from the same pieces.
-/

namespace BinarySchema

open Lexeme (source tokensAt lead solid? lexemes Tiled)
open TokenStream (scanAt)

/-! ### Flattened texts -/

section

variable (enter : Path → List Path → List Char × List Path) (directory : Path) (outermost : Bool)

/-- What stands for a declaration, and the paths met behind it. `enter` flattens a file. -/
def flattenOne (met : List Path) (stretch : List Lexeme) : List Char × List Path :=
  match Piece.includedName? (Outline.solid solid? stretch) with
  | none =>
    if outermost || !Piece.declaresRoot (Outline.solid solid? stretch) then (source stretch, met)
    else (source (lead stretch), met)
  | some name =>
    let path := Path.resolve directory name
    if path ∈ met then (source (lead stretch), met)
    else
      let (inner, after) := enter path (path :: met)
      (source (lead stretch) ++ '\n' :: (inner ++ ['\n']), after)

def flattenAll : List Path → List (List Lexeme) → List Char × List Path
  | met, [] => ([], met)
  | met, stretch :: rest =>
    let (front, between) := flattenOne enter directory outermost met stretch
    let (back, after) := flattenAll between rest
    (front ++ back, after)

variable {enter directory outermost} {met : List Path} {stretch : List Lexeme}

theorem flattenOne_kept (h : Piece.includedName? (Outline.solid solid? stretch) = none)
    (hkept : outermost = true ∨ Piece.declaresRoot (Outline.solid solid? stretch) = false) :
    flattenOne enter directory outermost met stretch = (source stretch, met) := by
  unfold flattenOne
  rw [h]
  exact if_pos (by simpa using hkept)

theorem flattenOne_dropped (h : Piece.includedName? (Outline.solid solid? stretch) = none)
    (hroot : Piece.declaresRoot (Outline.solid solid? stretch) = true) :
    flattenOne enter directory false met stretch = (source (lead stretch), met) := by
  unfold flattenOne
  rw [h]
  exact if_neg (by simp [hroot])

theorem flattenOne_met {name : String}
    (h : Piece.includedName? (Outline.solid solid? stretch) = some name)
    (hmem : Path.resolve directory name ∈ met) :
    flattenOne enter directory outermost met stretch = (source (lead stretch), met) := by
  unfold flattenOne
  rw [h]
  exact if_pos hmem

theorem flattenOne_entered {name : String} {inner : List Char} {after : List Path}
    (h : Piece.includedName? (Outline.solid solid? stretch) = some name)
    (hnew : Path.resolve directory name ∉ met)
    (henter : enter (Path.resolve directory name) (Path.resolve directory name :: met) = (inner, after)) :
    flattenOne enter directory outermost met stretch
      = (source (lead stretch) ++ '\n' :: (inner ++ ['\n']), after) := by
  unfold flattenOne
  rw [h]
  dsimp only
  rw [if_neg hnew, henter]

theorem flattenAll_cons {rest : List (List Lexeme)} {front back : List Char} {between after : List Path}
    (hone : flattenOne enter directory outermost met stretch = (front, between))
    (hall : flattenAll enter directory outermost between rest = (back, after)) :
    flattenAll enter directory outermost met (stretch :: rest) = (front ++ back, after) := by
  rw [flattenAll, hone]
  dsimp only
  rw [hall]

theorem flattenAll_remarks (h : Outline.solid solid? stretch = []) :
    flattenAll enter directory outermost met (Outline.stretches solid? stretch)
      = (source stretch, met) := by
  have hone : flattenOne enter directory outermost met stretch = (source stretch, met) :=
    flattenOne_kept (by rw [h]; rfl) (.inr (by rw [h]; rfl))
  rw [Outline.stretches_of_solid_eq_nil h]
  refine (flattenAll_cons hone rfl).trans ?_
  rw [flattenAll, List.append_nil]

end

def stretchesOf (text : String) : List (List Lexeme) :=
  Outline.stretches solid? (lexemes text.toList)

/-- The text that stands for a file where its path is met. Each level of inclusion meets a path of its
own, so the number of files bounds the levels. -/
def FileSystem.flattenFile (fs : FileSystem) :
    (levels : Nat) → Path → List Path → List Char × List Path
  | 0, _, met => ([], met)
  | levels + 1, path, met =>
    match fs.textAt path with
    | none => ([], met)
    | some text => flattenAll (fs.flattenFile levels) path.parent false met (stretchesOf text)

/-- The text of a root with its includes. -/
def Root.flattened (fs : FileSystem) (root : Root) (text : String) : String :=
  String.ofList (flattenAll (fs.flattenFile fs.files.length) (root.directory fs) true
    (root.path? fs).toList (stretchesOf text)).1

/-! ### Stretches that are declared -/

theorem Piece.declaresRoot_of_declaredName? {pieces : List Piece} {name : String}
    (h : declaredName? pieces = some name) : declaresRoot pieces = false := by
  unfold declaredName? at h
  split at h
  · split at h
    · rename_i keyword _ _ hkeyword
      simp only [List.mem_cons, List.not_mem_nil, or_false] at hkeyword
      rcases hkeyword with rfl | rfl | rfl <;> rfl
    · cases h
  · cases h

namespace Reader

variable {types : TypeTable} {c d : Cursor} {keyword : Token} {declared : Declaration}
  {row : List Lexeme} {pos : Position} {ending : Ending}

/-- That a declaration is read from lexemes: they are a stretch, its pieces say what is declared, and
the same is declared wherever they stand. -/
structure ReadFrom (types : TypeTable) (declared : Declaration) (front : List Lexeme) : Prop where
  closes : Outline.Closes solid? 0 front
  heads : declared.Heads (Outline.solid solid? front)
  anywhere : ∀ (pos : Position) (rest : Cursor), ∃ keyword other,
    declaration? types (rest.prepend (tokensAt pos front)) = .ok (some (keyword, other), rest) ∧
      declared.view .unplaced = other.view .unplaced

theorem exists_stretch
    (h : declaration? types ⟨tokensAt pos row, ending⟩ = .ok (some (keyword, declared), d))
    (hrow : Tiled [] row) :
    ∃ front back, row = front ++ back ∧ Tiled (source back) front ∧ Tiled [] back ∧
      d = ⟨tokensAt (pos.after (source front)) back, ending⟩ ∧ ReadFrom types declared front := by
  obtain ⟨used, hc, hcloses, hheads, hanywhere⟩ := declaration?_some h
  obtain ⟨htokens, hending⟩ := TokenStream.mk.inj hc
  obtain ⟨front, back, rfl, hfront, hused, hback⟩ := Lexeme.exists_front htokens hcloses
  obtain ⟨hfronts, hbacks⟩ := hrow.of_append
  rw [List.append_nil] at hfronts
  refine ⟨front, back, rfl, hfronts, hbacks, ?_, hfront, ?_, fun other rest => ?_⟩
  · rw [hback, hending]
  · rwa [← hused, Lexeme.solid_tokensAt] at hheads
  · exact hanywhere _ rest (hused ▸ Lexeme.map_piece_tokensAt other pos front)

theorem declaration?_prepend {comments : List Token} (h : Remarks comments) (types : TypeTable)
    (c : Cursor) : declaration? types (c.prepend comments) = declaration? types c := by
  have hnext : next (c.prepend comments) = next c := by
    have hskip : Cursor.skipComments (c.prepend comments) = Cursor.skipComments c := by
      unfold Cursor.skipComments TokenStream.prepend
      rw [List.dropWhile_append_of_pos fun token hmem => by simp [h token hmem]]
    unfold next ofStep Cursor.next
    rw [hskip]
  unfold declaration?
  rw [bind_run, bind_run, hnext]

end Reader

/-! ### What a text does to drafts -/

namespace Draft

open Reader (Declaration declaration? ReadFrom)

/-- That drafts are the same up to places, whatever sources they have met. -/
structure Similar (draft other : Draft) : Prop where
  opened : draft.types.Open ∧ other.types.Open
  definitions : draft.types.definitions.map (Definition.view .unplaced)
    = other.types.definitions.map (Definition.view .unplaced)
  root : draft.root.map (bodyView .unplaced) = other.root.map (bodyView .unplaced)

variable {fs plain : FileSystem} {standing flat : Standing} {draft between after other : Draft}
  {c d : Cursor} {met : List Path} {result : Except CompileError Draft}

theorem Similar.agrees (h : draft.Similar other) : draft.types.Agrees other.types := by
  refine TypeTable.agrees_of_signatures h.opened.1 h.opened.2 ?_
  have hsignatures := congrArg (List.map fun d : Definition => (d.name, d.kind)) h.definitions
  rw [List.map_map, List.map_map] at hsignatures
  simpa only [Function.comp_def, Definition.name_view, Definition.kind_view] using hsignatures

theorem Similar.grow {definition definition' : Definition} (h : draft.Similar other)
    (hsame : definition.view .unplaced = definition'.view .unplaced) :
    Similar { draft with types := draft.types.grow definition }
      { other with types := other.types.grow definition' } where
  opened := ⟨h.opened.1.grow definition, h.opened.2.grow definition'⟩
  definitions := by
    unfold TypeTable.grow
    rw [List.map_append, List.map_append, h.definitions, List.map_singleton, List.map_singleton, hsame]
  root := h.root

theorem Run.of_declaration? (h : Run fs standing draft c met result)
    (hsame : declaration? draft.types d = declaration? draft.types c) :
    Run fs standing draft d met result := by
  cases h with
  | failed read => exact .failed (hsame.trans read)
  | ended read => exact .ended (hsame.trans read)
  | refused read effect => exact .refused (hsame.trans read) effect
  | went read effect rest => exact .went (hsame.trans read) effect rest
  | broken read effect inside => exact .broken (hsame.trans read) effect inside
  | entered read effect inside rest => exact .entered (hsame.trans read) effect inside rest

def EndsLine (chars : List Char) : Prop :=
  ∀ c ∈ chars.head?, c = '\n'

/-- That a text in front of others makes of every draft similar to one a draft similar to another. -/
def Yields (plain : FileSystem) (flat : Standing) (follows : List Char → Prop) (draft after : Draft)
    (out : List Char) : Prop :=
  ∀ (pos : Position) (more : List Char) (other : Draft), follows more → draft.Similar other →
    ∃ final, after.Similar final ∧ ∀ met result,
      Run plain flat final (scanAt (pos.after out) more) met result →
        Run plain flat other (scanAt pos (out ++ more)) met result

namespace Yields

variable {follows : List Char → Prop} {front back out : List Char} {row : List Lexeme}

theorem append (hfront : Yields plain flat (fun _ => True) draft between front)
    (hback : Yields plain flat follows between after back) :
    Yields plain flat follows draft after (front ++ back) := by
  intro pos more other hmore hsimilar
  obtain ⟨next, hnext, hrun⟩ := hfront pos (back ++ more) other trivial hsimilar
  obtain ⟨final, hfinal, hrun'⟩ := hback (pos.after front) more next hmore hnext
  refine ⟨final, hfinal, fun met result hrest => ?_⟩
  rw [Position.after_append] at hrest
  rw [List.append_assoc]
  exact hrun met result (hrun' met result hrest)

theorem of_meets {path : Path} (h : Yields plain flat follows (draft.meets path) after out) :
    Yields plain flat follows draft after out :=
  fun pos more other hmore hsimilar =>
    h pos more other hmore ⟨hsimilar.opened, hsimilar.definitions, hsimilar.root⟩

/-- On lines of its own, a text stands in front of any other. -/
theorem lines (h : Yields plain flat EndsLine draft after out) :
    Yields plain flat (fun _ => True) draft after ('\n' :: (out ++ ['\n'])) := by
  intro pos more other _ hsimilar
  have hmore : EndsLine ('\n' :: more) := by
    rintro c ⟨⟩
    rfl
  obtain ⟨final, hfinal, hrun⟩ := h (pos.advance '\n') ('\n' :: more) other hmore hsimilar
  refine ⟨final, hfinal, fun met result hrest => ?_⟩
  have hline : Lexeme.isSourceBlank '\n' = true := rfl
  have htext : '\n' :: (out ++ ['\n']) ++ more = '\n' :: (out ++ '\n' :: more) := by simp
  have hplace : pos.after ('\n' :: (out ++ ['\n']))
      = ((pos.advance '\n').after out).advance '\n' := Position.after_append _ out ['\n']
  rw [htext, TokenStream.scanAt_blank hline]
  refine hrun met result ?_
  rwa [TokenStream.scanAt_blank hline, ← hplace]

/-- Blanks and comments change nothing. -/
theorem remarks (hremarks : ∀ pos, Remarks (tokensAt pos row))
    (hscan : ∀ more, follows more → ∀ pos, scanAt pos (source row ++ more)
      = (scanAt (pos.after (source row)) more).prepend (tokensAt pos row)) :
    Yields plain flat follows draft draft (source row) := by
  intro pos more other hmore hsimilar
  refine ⟨other, hsimilar, fun met result hrest => hrest.of_declaration? ?_⟩
  rw [hscan more hmore]
  exact Reader.declaration?_prepend (hremarks pos) _ _

theorem lead {rest : List Char} (hrow : Tiled rest row) (hcloses : Outline.Closes solid? 0 row) :
    Yields plain flat (fun _ => True) draft draft (source (lead row)) :=
  remarks (Lexeme.lead_remarks row) fun more _ => TokenStream.scanAt_lead hrow hcloses more

/-- What stands behind the declarations of a source. -/
theorem tail (hrow : Tiled [] row) (hsolid : Outline.solid solid? row = []) :
    Yields plain flat EndsLine draft draft (source row) := by
  refine remarks (fun pos => Lexeme.remarks_tokensAt hsolid) fun more hmore => ?_
  refine TokenStream.scanAt_remarks hrow (List.filterMap_eq_nil_iff.1 hsolid) ?_
  cases more with
  | nil => exact .inl rfl
  | cons c more =>
    obtain rfl := hmore c rfl
    exact .inr (.inl rfl)

/-- What is declared is declared in front of any text, if all similar drafts go on alike. -/
theorem declared {rest : List Char} {declared : Declaration} (hread : ReadFrom draft.types declared row)
    (hrow : Tiled rest row)
    (heffect : ∀ other keyword declared', draft.Similar other →
      declared.view .unplaced = declared'.view .unplaced →
        ∃ final, effect plain flat other keyword declared' = .ok (.goes final) ∧ after.Similar final) :
    Yields plain flat (fun _ => True) draft after (source row) := by
  intro pos more other _ hsimilar
  obtain ⟨keyword, declared', hdeclared, hview⟩ :=
    hread.anywhere pos (scanAt (pos.after (source row)) more)
  obtain ⟨final, hgoes, hfinal⟩ := heffect other keyword declared' hsimilar hview
  refine ⟨final, hfinal, fun met result hrest => .went ?_ hgoes hrest⟩
  rw [TokenStream.scanAt_closes hrow hread.closes,
    ← Reader.declaration?_congr hsimilar.agrees hsimilar.opened.1 hsimilar.opened.2]
  exact hdeclared

theorem definition {rest : List Char} {definition : Definition}
    (hread : ReadFrom draft.types (.definition definition) row) (hrow : Tiled rest row) :
    Yields plain flat (fun _ => True) draft { draft with types := draft.types.grow definition }
      (source row) := by
  refine declared hread hrow fun other keyword declared' hsimilar hview => ?_
  cases declared' with
  | definition definition' =>
    exact ⟨_, rfl, hsimilar.grow (Declaration.definition.inj hview)⟩
  | root body => cases hview
  | inclusion token name => cases hview

/-- The first schema block of the outermost source. -/
theorem root {rest : List Char} {body : List Node} (hread : ReadFrom draft.types (.root body) row)
    (hrow : Tiled rest row) (hflat : flat.outermost = true) (hnone : draft.root = none) :
    Yields plain flat (fun _ => True) draft { draft with root := some body } (source row) := by
  refine declared hread hrow fun other keyword declared' hsimilar hview => ?_
  cases declared' with
  | definition definition => cases hview
  | inclusion token name => cases hview
  | root body' =>
    have hother : other.root = none := by
      have hroot := hsimilar.root
      rw [hnone] at hroot
      exact Option.map_eq_none_iff.1 hroot.symm
    refine ⟨{ other with root := some body' }, ?_, hsimilar.opened, hsimilar.definitions, ?_⟩
    · rw [effect, hflat, hother]
      rfl
    · exact congrArg some (Declaration.root.inj hview)

/-- What stands for a declaration behind which its source goes on. -/
theorem went (plain : FileSystem) {enter : Path → List Path → List Char × List Path}
    {rest : List Char} {keyword : Token} {declared : Declaration}
    (hread : ReadFrom draft.types declared row) (hrow : Tiled rest row) (hflat : flat.outermost = true)
    (heffect : effect fs standing draft keyword declared = .ok (.goes after)) :
    ∃ out, flattenOne enter standing.directory standing.outermost draft.included row
        = (out, draft.included) ∧
      Yields plain flat (fun _ => True) draft after out := by
  cases declared with
  | definition definition =>
    cases heffect
    obtain ⟨hname, hincludes⟩ := hread.heads
    have hkept := Piece.declaresRoot_of_declaredName? hname
    exact ⟨_, flattenOne_kept hincludes (.inr hkept), .definition hread hrow⟩
  | root body =>
    obtain ⟨hroot, -, hincludes⟩ := hread.heads
    cases houter : standing.outermost with
    | false =>
      rw [effect, if_pos houter] at heffect
      cases heffect
      exact ⟨_, flattenOne_dropped hincludes hroot, .lead hrow hread.closes⟩
    | true =>
      rw [effect, houter, if_neg nofun] at heffect
      split at heffect
      · cases heffect
      · rename_i hnone
        cases heffect
        have hnone := Option.not_isSome_iff_eq_none.1 hnone
        exact ⟨_, flattenOne_kept hincludes (.inl rfl), .root hread hrow hflat hnone⟩
  | inclusion token name =>
    obtain ⟨target, htarget, hgoes⟩ := Except.map_ok_iff.1 heffect
    cases target with
    | some file => cases hgoes
    | none =>
      cases hgoes
      have hmem := (includeTarget_none htarget).2
      exact ⟨_, flattenOne_met hread.heads.2 hmem, .lead hrow hread.closes⟩

end Yields

/-! ### What a run does to drafts -/

/-- The source of a run that comes to a result has no lexical fault. -/
theorem Run.finished (h : Run fs standing draft c met (.ok after))
    (hc : ∀ token ∈ c.tokens, token.kind ≠ .endOfInput) : ∃ pos, c.ending = .finished pos := by
  generalize hresult : Except.ok after = result at h
  have hbehind {types : TypeTable} {c d : Cursor} {keyword : Token} {declared : Declaration}
      (read : declaration? types c = .ok (some (keyword, declared), d))
      (hc : ∀ token ∈ c.tokens, token.kind ≠ .endOfInput) :
      (∀ token ∈ d.tokens, token.kind ≠ .endOfInput) ∧ c.ending = d.ending := by
    obtain ⟨used, rfl, -⟩ := Reader.declaration?_some read
    exact ⟨fun token htoken => hc token (List.mem_append_right _ htoken), rfl⟩
  induction h with
  | failed | refused | broken => cases hresult
  | ended read => exact (Reader.declaration?_none hc read).2
  | went read effect rest ih =>
    obtain ⟨hd, hending⟩ := hbehind read hc
    rw [hending]
    exact ih hd hresult
  | entered read effect inside rest ih ih' =>
    obtain ⟨hd, hending⟩ := hbehind read hc
    rw [hending]
    exact ih' hd hresult

/-- The tokens of a text that is run over are those of its lexemes. -/
theorem Run.scan_eq {text : String} (h : Run fs standing draft (.scan text) met (.ok after)) :
    ∃ last, TokenStream.scan text = ⟨tokensAt .first (lexemes text.toList), .finished last⟩ ∧
      Tiled [] (lexemes text.toList) := by
  obtain ⟨last, hfinished⟩ := h.finished (TokenStream.kind_ne_scan text)
  rw [TokenStream.scan_eq] at hfinished ⊢
  exact ⟨last, TokenStream.scanAt_of_finished hfinished, (TokenStream.tiled_of_finished hfinished).1⟩

/-- What stands for a source makes of similar drafts what the run makes of its draft. -/
theorem Run.yields (plain : FileSystem) {levels : Nat} {row : List Lexeme} {pos : Position}
    {ending : Ending} (h : Run fs standing draft c met (.ok after)) (hflat : flat.outermost = true)
    (hopen : draft.types.Open) (hlevels : fs.unmet draft.included ≤ levels)
    (hc : c = ⟨tokensAt pos row, ending⟩) (hrow : Tiled [] row) :
    ∃ out, flattenAll (fs.flattenFile levels) standing.directory standing.outermost draft.included
        (Outline.stretches solid? row) = (out, after.included) ∧
      Yields plain flat EndsLine draft after out := by
  generalize hresult : Except.ok after = result at h
  induction h generalizing after levels row pos ending with
  | failed | refused | broken => cases hresult
  | ended read =>
    subst hc
    cases hresult
    obtain ⟨hremarks, -⟩ := Reader.declaration?_none (hrow.kind_ne pos) read
    have hsolid : Outline.solid solid? row = [] := by
      rw [← Lexeme.solid_tokensAt]
      exact Outline.solid_remarks hremarks
    exact ⟨_, flattenAll_remarks hsolid, .tail hrow hsolid⟩
  | @went standing draft c d keyword declared between met result read effect rest ih =>
    subst hc
    obtain ⟨front, back, rfl, hfront, hback, rfl, hread⟩ := Reader.exists_stretch read hrow
    obtain ⟨hbetween, hincluded⟩ := effect_goes effect hopen
    obtain ⟨behind, hall, hbehind⟩ := ih hbetween (hincluded ▸ hlevels) rfl hback hresult
    rw [hincluded] at hall
    obtain ⟨out, hone, hyields⟩ := Yields.went plain hread hfront hflat effect
    rw [Outline.stretches_of_closes hread.closes]
    exact ⟨_, flattenAll_cons hone hall, hyields.append hbehind⟩
  | @entered standing draft c d keyword declared path text inner between met result read effect inside
      rest ih ih' =>
    subst hc
    obtain ⟨front, back, rfl, hfront, hback, rfl, hread⟩ := Reader.exists_stretch read hrow
    obtain ⟨token, name, rfl, rfl, -, hnew, htext⟩ := effect_enters effect
    obtain ⟨hbetween, -⟩ := ok_included inside hopen
    have hkept : fs.unmet between.included ≤ fs.unmet draft.included :=
      fs.unmet_anti fun other hmem => included_subset inside hopen (List.mem_cons_of_mem _ hmem)
    obtain ⟨behind, hall, hbehind⟩ := ih' hbetween (Nat.le_trans hkept hlevels) rfl hback hresult
    -- The file that is met leaves fewer levels for what it includes.
    have hfile := FileSystem.mem_files_of_textAt (Path.resolve_normal _ _) htext
    have hfewer := FileSystem.unmet_cons_lt hfile hnew
    obtain ⟨levels, rfl⟩ : ∃ fewer, levels = fewer + 1 := ⟨levels - 1, by omega⟩
    obtain ⟨last, hscan, htiled⟩ := inside.scan_eq
    have hmeets : fs.unmet (draft.meets (Path.resolve standing.directory name)).included ≤ levels := by
      change fs.unmet (Path.resolve standing.directory name :: draft.included) ≤ levels
      omega
    obtain ⟨out, hflattened, hyields⟩ := ih hopen hmeets hscan htiled rfl
    have henter : fs.flattenFile (levels + 1) (Path.resolve standing.directory name)
        (Path.resolve standing.directory name :: draft.included) = (out, between.included) := by
      rw [FileSystem.flattenFile, htext]
      exact hflattened
    rw [Outline.stretches_of_closes hread.closes]
    refine ⟨_, flattenAll_cons (flattenOne_entered hread.heads.2 hnew henter) hall, ?_⟩
    exact (Yields.append (.lead hfront hread.closes) hyields.of_meets.lines).append hbehind

end Draft

/-- The text of a root with its includes compiles to the same schema up to places, whatever files there
are. -/
theorem Root.compile_flattened (fs : FileSystem) (root : Root) (schema : Schema)
    (h : root.compile fs = .ok schema) (plain : FileSystem) (directory : Option String) :
    ∃ text flat, root.readText fs = .ok text ∧
      Schema.compile plain (root.flattened fs text) directory = .ok flat ∧
        flat.types.definitions.map (Definition.view .unplaced)
          = schema.types.definitions.map (Definition.view .unplaced) ∧
        flat.root.map (bodyView .unplaced) = schema.root.map (bodyView .unplaced) := by
  cases htext : root.readText fs with
  | error e =>
    rw [compile_of_error htext] at h
    cases h
  | ok text =>
    obtain ⟨met, result, hrun, hcompile⟩ := exists_run htext
    rw [hcompile] at h
    cases result with
    | error e => cases h
    | ok after =>
      cases h
      have hflat : (Schema.outset plain directory).outermost = true := by cases directory <;> rfl
      obtain ⟨last, hscan, htiled⟩ := hrun.scan_eq
      obtain ⟨out, hall, hyields⟩ := hrun.yields plain hflat .empty (fs.unmet_le _) hscan htiled
      have hstart : Draft.Similar (root.draft fs) {} := ⟨⟨.empty, .empty⟩, rfl, rfl⟩
      obtain ⟨final, hfinal, hflattened⟩ := hyields .first [] {} nofun hstart
      have hend : Draft.Run plain (Schema.outset plain directory) final
          (scanAt (Position.first.after out) []) [] (.ok final) := .ended rfl
      have hrun' := hflattened _ _ hend
      have htext : root.flattened fs text = String.ofList out :=
        congrArg String.ofList (congrArg Prod.fst hall)
      rw [List.append_nil, ← String.toList_ofList (l := out), ← TokenStream.scan_eq, ← htext] at hrun'
      obtain ⟨met', result', hrun'', hcompile'⟩ :=
        Schema.exists_run plain (root.flattened fs text) directory
      obtain ⟨-, rfl⟩ := hrun''.unique hrun'
      exact ⟨text, final.finish none, rfl, hcompile', hfinal.definitions.symm, hfinal.root.symm⟩

/-- Two files that include a third one. The first has a schema block. -/
def FileSystem.diamond : FileSystem where
  files := [(["d", "a"], "include c; struct A{c:C;} schema{a:A;}"),
      (["d", "b"], "include c; struct B{c:C;} // b"),
      (["d", "c"], "enum C:byte{One}")].map
    fun file => (file.1, file.2.toList.map fun c => UInt8.ofNat c.toNat)

/-- A text that includes both. -/
def Root.diamond : Root := .source "include a; include b; schema{a:A;b:B;}" (some "d")

theorem Root.compile_flattened_diamond :
    ∃ schema, Root.diamond.compile .diamond = .ok schema ∧ schema.types.names = ["C", "A", "B"] ∧
      ∃ text flat, Root.diamond.readText .diamond = .ok text ∧
        Schema.compile {} (Root.diamond.flattened .diamond text) none = .ok flat ∧
          flat.types.definitions.map (Definition.view .unplaced)
            = schema.types.definitions.map (Definition.view .unplaced) ∧
          flat.root.map (bodyView .unplaced) = schema.root.map (bodyView .unplaced) := by
  have hnames : (Root.diamond.compile .diamond).toOption.map (fun schema => schema.types.names)
      = some ["C", "A", "B"] := by
    decide +kernel
  cases hrun : Root.diamond.compile .diamond with
  | error e =>
    rw [hrun] at hnames
    cases hnames
  | ok schema =>
    rw [hrun] at hnames
    exact ⟨schema, rfl, Option.some.inj hnames,
      Root.compile_flattened .diamond Root.diamond schema hrun {} none⟩

/-- The third file stands where it is met first, and the schema block of the first is left out. -/
example : (Root.diamond.readText .diamond).toOption.map (Root.diamond.flattened .diamond)
    = some ("\n\nenum C:byte{One}\n struct A{c:C;} \n \n struct B{c:C;} // b\n" ++
        " schema{a:A;b:B;}") := by
  decide +kernel

end BinarySchema
