import BinarySchema.Proofs.Number.Numerals
import BinarySchema.Proofs.Schema.Cycles
import BinarySchema.Proofs.Token.Places

/-!
# Limits of a compilation

A compilation that fails says what is wrong with a source or its includes. Two limits break this rule, and
nothing else does: a decimal numeral may have more digits than can be read, and an include may have a path
that no file can have, because it is too long or has a NUL in it.

Each of these errors is found in a source that the root leads to. So a run knows of the source that is read
that it is one of them, and that the tokens that are left are its own.
-/

namespace BinarySchema

open Relation (ReflTransGen)

/-- Whether an error says what is wrong with a source or its includes: it is one of splitting a source
into tokens, of its grammar, of an include, or of a type. -/
def CompileError.isSchemaError : CompileError → Bool
  | .inaccessible _ | .numberTooLong _ | .nulInPath | .spent => false
  | _ => true

/-! ### Paths -/

namespace FileSystem

variable {fs : FileSystem} {path : Path}

theorem walk_nameTooLong {place : Path} {parts : List String}
    (h : fs.walk place parts = .error .nameTooLong) :
    ∃ part ∈ parts, longestPart < part.utf8ByteSize := by
  induction parts generalizing place with
  | nil =>
    unfold walk at h
    split at h
    · cases h
    · split at h <;> cases h
  | cons part parts ih =>
    unfold walk at h
    split at h
    · cases h
    split at h
    · exact ⟨part, List.mem_cons_self, ‹_›⟩
    · dsimp only at h
      split at h
      · obtain ⟨other, hother, hlong⟩ := ih h
        exact ⟨other, List.mem_cons_of_mem _ hother, hlong⟩
      · cases h

/-- A path that no file can have: it is too long, or one of its parts is. -/
def TooLong (path : Path) : Prop :=
  longestName < path.text.utf8ByteSize ∨ ∃ part ∈ path, longestPart < part.utf8ByteSize

theorem contentAt_error {e : FileError} (h : fs.contentAt path = .error e) :
    e = ⟨.nameTooLong, path.text⟩ ∧ TooLong path := by
  unfold contentAt at h
  dsimp only at h
  split at h
  · rename_i hlong
    cases h
    exact ⟨rfl, .inl hlong⟩
  split at h
  · cases h
  · rename_i hwalk
    cases h
    exact ⟨rfl, .inr (walk_nameTooLong hwalk)⟩
  · cases h

end FileSystem

/-! ### Include directives -/

namespace Draft

variable {fs : FileSystem} {standing : Standing} {draft : Draft} {token : Token} {name : String}
  {e : CompileError}

/-- What is wrong with an include is found out from its path, or is said about it. -/
theorem includeTarget_error (h : includeTarget fs standing draft token name = .error e) :
    let path := Path.resolve standing.directory name
    e.isSchemaError = true ∨
      (e = .inaccessible ⟨.nameTooLong, path.text⟩ ∧ FileSystem.TooLong path) ∨
      (e = .nulInPath ∧ ('\x00' ∈ name.toList ∨ '\x00' ∈ path.text.toList)) := by
  rw [includeTarget_eq _ rfl] at h
  split at h
  · rename_i hnul
    cases h
    rw [Bool.or_eq_true, List.contains_iff_mem, List.contains_iff_mem] at hnul
    exact .inr (.inr ⟨rfl, hnul⟩)
  split at h
  · cases h
    exact .inl rfl
  split at h
  · cases h
  split at h
  · rename_i hcontent
    cases h
    obtain ⟨rfl, hlong⟩ := FileSystem.contentAt_error hcontent
    exact .inr (.inl ⟨rfl, hlong⟩)
  · cases h
    exact .inl rfl
  · split at h <;> cases h
    exact .inl rfl

end Draft

/-! ### Sources -/

namespace Root

variable (fs : FileSystem) (root : Root)

/-- That a root leads to a source with a directory and a text. -/
def LeadsTo (directory : Path) (text : String) : Prop :=
  ∃ place, ReflTransGen (root.Includes fs) (root.path? fs) place ∧
    root.sourceAt fs place = some (directory, text)

/-- An error for something that is beyond a limit in a source that a root leads to. -/
inductive Exceeds : CompileError → Prop
  | number {directory : Path} {text : String} {token : Token}
      (hsource : root.LeadsTo fs directory text) (htoken : token ∈ (TokenStream.scan text).tokens)
      (hkind : token.kind = .number) (hlong : ¬ Number.IsReadable token.text.toList) :
      Exceeds (.numberTooLong token.text.toList.length)
  | path {directory : Path} {text name : String} (hsource : root.LeadsTo fs directory text)
      (hname : name ∈ includedNames (TokenStream.scan text).tokens)
      (hlong : FileSystem.TooLong (Path.resolve directory name)) :
      Exceeds (.inaccessible ⟨.nameTooLong, (Path.resolve directory name).text⟩)
  | nul {directory : Path} {text name : String} (hsource : root.LeadsTo fs directory text)
      (hname : name ∈ includedNames (TokenStream.scan text).tokens)
      (hnul : '\x00' ∈ name.toList ∨ '\x00' ∈ (Path.resolve directory name).text.toList) :
      Exceeds .nulInPath

/-- What is known where a source with some text is read: the root leads to it, and all that is left is
from its text. -/
structure Amid (place : Option Path) (text : String) (standing : Standing) (c : Cursor) : Prop
    extends root.At fs place standing c where
  reached : ReflTransGen (root.Includes fs) (root.path? fs) place
  source : root.sourceAt fs place = some (standing.directory, text)
  own : c.Holds (· ∈ (TokenStream.scan text).tokens) (TokenStream.scan text).ending
  names : includedNames c.tokens ⊆ includedNames (TokenStream.scan text).tokens

variable {fs root} {place : Option Path} {text : String} {standing : Standing} {draft : Draft}
  {c d : Cursor} {keyword : Token} {declared : Reader.Declaration} {met : List Path} {e : CompileError}

theorem Amid.start (h : root.readText fs = .ok text) :
    root.Amid fs (root.path? fs) text (root.standing fs) (.scan text) where
  toAt := .start h
  reached := .refl
  source := sourceAt_outset h
  own := ⟨fun _ htoken => htoken, rfl⟩
  names := List.Subset.refl _

namespace Amid

variable (h : root.Amid fs place text standing c)

include h

theorem leadsTo : root.LeadsTo fs standing.directory text := ⟨place, h.reached, h.source⟩

theorem of_arises (herror : e.Arises (· ∈ (TokenStream.scan text).tokens)
    (TokenStream.scan text).ending) : e.isSchemaError = true ∨ root.Exceeds fs e := by
  cases herror with
  | lexical | unexpected | alreadyDeclared | unknownType => exact .inl rfl
  | numberTooLong htoken hkind hread =>
    have hnumeral := TokenStream.isNumeral_scan text _ htoken hkind
    rw [Number.readNumeral_of_isNumeral hnumeral] at hread
    split at hread
    · cases hread
    · rename_i hlong
      cases hread
      exact .inr (.number h.leadsTo htoken hkind hlong)
  | spent hending => exact (TokenStream.ending_scan_ne_spent text hending).elim

variable (hread : Reader.declaration? draft.types c = .ok (some (keyword, declared), d))

include hread

theorem rest : root.Amid fs place text standing d where
  toAt := h.toAt.rest hread
  reached := h.reached
  source := h.source
  own := ((Reader.Draws.declaration? _).of_ok h.own hread).1
  names := by
    intro name hname
    apply h.names
    rw [Reader.includedNames_of_some hread]
    exact List.mem_append_right _ hname

theorem enter {path : Path} {inner : String}
    (heffect : Draft.effect fs standing draft keyword declared = .ok (.enters path inner)) :
    root.Amid fs (some path) inner (standing.inside path) (.scan inner) := by
  obtain ⟨hedge, hsource, hat⟩ := h.toAt.enter hread heffect
  exact ⟨hat, h.reached.tail hedge, hsource, ⟨fun _ htoken => htoken, rfl⟩, List.Subset.refl _⟩

theorem of_refused (heffect : Draft.effect fs standing draft keyword declared = .error e) :
    e.isSchemaError = true ∨ root.Exceeds fs e := by
  rcases Draft.effect_error heffect with rfl | ⟨token, name, rfl, htarget⟩
  · exact .inl rfl
  have hname : name ∈ includedNames (TokenStream.scan text).tokens := by
    apply h.names
    rw [Reader.includedNames_of_some hread]
    exact List.mem_cons_self
  rcases Draft.includeTarget_error htarget with hschema | ⟨rfl, hlong⟩ | ⟨rfl, hnul⟩
  · exact .inl hschema
  · exact .inr (.path h.leadsTo hname hlong)
  · exact .inr (.nul h.leadsTo hname hnul)

end Amid

theorem Amid.of_error (h : root.Amid fs place text standing c)
    (hrun : Draft.Run fs standing draft c met (.error e)) :
    e.isSchemaError = true ∨ root.Exceeds fs e := by
  generalize hresult : (Except.error e : Except CompileError Draft) = result at hrun
  induction hrun generalizing place text with
  | ended => cases hresult
  | failed hread =>
    cases hresult
    exact h.of_arises ((Reader.Draws.declaration? _).of_error h.own hread)
  | refused hread heffect =>
    cases hresult
    exact h.of_refused hread heffect
  | went hread heffect rest ih => exact ih (h.rest hread) hresult
  | broken hread heffect inside ih => exact ih (h.enter hread heffect) hresult
  | entered hread heffect inside rest ih ih' => exact ih' (h.rest hread) hresult

end Root

/-- Compiling a root whose text can be had comes to a schema with a frozen type table, or to an error that
says what is wrong with a source, unless something is beyond a limit in a source that the root leads to. -/
theorem compile_schema_error_or_limit (fs : FileSystem) (root : Root) :
    match root.compile fs with
    | .ok schema => schema.types.frozen = true
    | .error (.file e) => root.readText fs = .error e
    | .error (.compile e) => e.isSchemaError = true ∨ root.Exceeds fs e := by
  cases htext : root.readText fs with
  | error e => rw [Root.compile_of_error htext]
  | ok text =>
    obtain ⟨met, result, hrun, hcompile⟩ := Root.exists_run htext
    rw [hcompile]
    cases result with
    | ok draft => rfl
    | error e => exact (Root.Amid.start htext).of_error hrun

/-! ### A numeral beyond the limit -/

namespace Number

theorem readNumeral_ones {n : Nat} (h : digitLimit < n) :
    readNumeral (List.replicate n '1') = .error (.tooLong n) := by
  obtain ⟨m, rfl⟩ := Nat.exists_eq_add_one_of_ne_zero (Nat.ne_zero_of_lt h)
  have hnumeral : IsNumeral (List.replicate (m + 1) '1') := by
    refine .decimal (List.cons_ne_nil _ _) fun c hc => ?_
    rw [List.eq_of_mem_replicate hc]
    rfl
  have hunreadable : ¬ IsReadable (List.replicate (m + 1) '1') := by
    rintro (hmarked | hshort)
    · cases hmarked
    · rw [List.length_replicate] at hshort
      exact absurd h (Nat.not_lt.2 hshort)
  rw [readNumeral_of_isNumeral hnumeral, if_neg hunreadable, List.length_replicate]

end Number

namespace Piece

theorem scannable_ones (n : Nat) :
    Scannable ⟨.number, String.ofList (List.replicate (n + 1) '1')⟩ := by
  refine ⟨'1', List.replicate n '1', String.toList_ofList, by decide, fun gap hgap behind => ?_⟩
  have hones : ∀ c ∈ List.replicate n '1', c.isDigit = true := by
    intro c hc
    rw [List.eq_of_mem_replicate hc]
    rfl
  have hends : gap.isDigit = false := by rcases hgap.or with rfl | rfl <;> decide
  obtain ⟨htake, hdrop⟩ := takeWhile_append_of_ends hones hends behind
  have hdecimal : ¬ Lexeme.IsHex '1' (List.replicate n '1' ++ gap :: behind) := by
    intro hhex
    cases n with
    | zero => cases behind <;> cases hhex
    | succ n => cases n <;> cases hhex
  change Lexeme.numberFrom '1' _ = _
  rw [Lexeme.numberFrom_of_decimal hdecimal, Lexeme.run, htake, hdrop]
  rfl

def numeralCondition (digits : Nat) : List Piece :=
  [word "schema", mark "\x7b", word "if", mark "(", ⟨.number, String.ofList (List.replicate digits '1')⟩,
    mark ")", mark "\x7b", mark "\x7d", mark "\x7d"]

end Piece

namespace Reader

variable {α β : Type}

theorem bind_of_error {x : Reader α} {f : α → Reader β} {c : Cursor} {e : CompileError}
    (h : x c = .error e) : (x >>= f) c = .error e := by
  rw [bind_run, h]
  rfl

variable {token : Token} {rest : List Token} {ending : Ending} {digits : Nat}

theorem next_run (htoken : token.kind ≠ .comment) :
    next ⟨token :: rest, ending⟩ = .ok (token, ⟨rest, ending⟩) :=
  next_token (List.forall_mem_nil _) htoken

theorem expectPunctuation_run {text : String} (h : token.piece = .mark text) :
    expectPunctuation text ⟨token :: rest, ending⟩ = .ok (token, ⟨rest, ending⟩) := by
  obtain ⟨hkind, -⟩ := Piece.mk.inj h
  rw [expectPunctuation, bind_of_ok (next_run (by simp [hkind])), if_pos (Token.isPunctuation_iff.2 h)]
  rfl

theorem expression_tooLong {closer : String} (hkind : token.kind = .number)
    (h : Number.readNumeral token.text.toList = .error (.tooLong digits)) :
    expression closer ⟨token :: rest, ending⟩ = .error (.numberTooLong digits) := by
  have htoken : token.kind ≠ .comment := by simp [hkind]
  have hpeek : peek ⟨token :: rest, ending⟩ = .ok (token, ⟨token :: rest, ending⟩) :=
    peek_token (List.forall_mem_nil _) htoken
  have hvalue : numberValue token = throw (.numberTooLong digits) := by
    unfold numberValue
    rw [h]
  have hterm : term closer token ⟨rest, ending⟩ = .error (.numberTooLong digits) := by
    unfold term
    rw [hkind, hvalue]
    rfl
  have hmark : ¬ token.isPunctuation closer = true := by simp [Token.isPunctuation, hkind]
  have hterms (steps : Nat) :
      terms closer (steps + 1) ⟨token :: rest, ending⟩ = .error (.numberTooLong digits) := by
    rw [terms, bind_of_ok (next_run htoken), if_neg hmark]
    exact bind_of_error hterm
  have hcount : remaining ⟨token :: rest, ending⟩
      = .ok (rest.length + 1, ⟨token :: rest, ending⟩) := rfl
  rw [expression, bind_of_ok hpeek, bind_of_ok hcount]
  exact bind_of_error (hterms _)

theorem nodes_tooLong {types : TypeTable} {keyword parenthesis : Token} (steps : Nat)
    (hkeyword : keyword.piece = .word "if") (hparenthesis : parenthesis.piece = .mark "(")
    (hkind : token.kind = .number)
    (h : Number.readNumeral token.text.toList = .error (.tooLong digits)) :
    nodes types (steps + 1) ⟨keyword :: parenthesis :: token :: rest, ending⟩
      = .error (.numberTooLong digits) := by
  have hhead (control : Control) : blockHead control keyword ⟨parenthesis :: token :: rest, ending⟩
      = .error (.numberTooLong digits) := by
    rw [blockHead, bind_of_ok (expectPunctuation_run hparenthesis)]
    exact bind_of_error (expression_tooLong hkind h)
  obtain ⟨_, _, pos⟩ := keyword
  obtain ⟨rfl, rfl⟩ := Piece.mk.inj hkeyword
  rw [nodes, bind_of_ok (next_run (by simp))]
  exact bind_of_error (hhead _)

theorem declaration?_tooLong {types : TypeTable} {tokens : List Token}
    (hdigits : Number.digitLimit < digits)
    (h : tokens.map Token.piece = Piece.numeralCondition digits) :
    declaration? types ⟨tokens, ending⟩ = .error (.numberTooLong digits) := by
  unfold Piece.numeralCondition at h
  obtain ⟨schema, tokens, rfl, hschema, h⟩ := List.map_eq_cons_iff.1 h
  obtain ⟨brace, tokens, rfl, hbrace, h⟩ := List.map_eq_cons_iff.1 h
  obtain ⟨keyword, tokens, rfl, hkeyword, h⟩ := List.map_eq_cons_iff.1 h
  obtain ⟨parenthesis, tokens, rfl, hparenthesis, h⟩ := List.map_eq_cons_iff.1 h
  obtain ⟨numeral, rest, rfl, hnumeral, -⟩ := List.map_eq_cons_iff.1 h
  obtain ⟨hkind, htext⟩ := Piece.mk.inj hnumeral
  have hvalue : Number.readNumeral numeral.text.toList = .error (.tooLong digits) := by
    rw [htext, String.toList_ofList]
    exact Number.readNumeral_ones hdigits
  have hbody : body types ⟨brace :: keyword :: parenthesis :: numeral :: rest, ending⟩
      = .error (.numberTooLong digits) := by
    rw [body, bind_of_ok (expectPunctuation_run hbrace), bind_run]
    exact nodes_tooLong _ hkeyword hparenthesis hkind hvalue
  obtain ⟨_, _, pos⟩ := schema
  obtain ⟨rfl, rfl⟩ := Piece.mk.inj hschema
  rw [declaration?, bind_of_ok (next_run (by simp))]
  exact bind_of_error (bind_of_error hbody)

end Reader

/-- The limit is met by schemas whose only fault is the length of a numeral. -/
theorem compile_numeralCondition :
    Schema.compile {} (String.ofList (Piece.layout (Piece.numeralCondition (Number.digitLimit + 1))))
        = .error (.numberTooLong (Number.digitLimit + 1)) ∧
      CompileError.isSchemaError (.numberTooLong (Number.digitLimit + 1)) = false := by
  have hscannable : ∀ piece ∈ Piece.numeralCondition (Number.digitLimit + 1), piece.Scannable := by
    refine scannable_word_cons (by decide) (scannable_mark_cons (by decide) ?_)
    refine scannable_word_cons (by decide) (scannable_mark_cons (by decide) ?_)
    refine List.forall_mem_cons.2 ⟨Piece.scannable_ones _, scannable_mark_cons (by decide) ?_⟩
    exact scannable_mark_cons (by decide) (scannable_mark_cons (by decide)
      (scannable_close (by decide)))
  obtain ⟨tokens, last, hscan, htokens⟩ := Piece.scan_layout hscannable
  obtain ⟨met, result, hrun, hcompile⟩ := Schema.exists_run {}
    (String.ofList (Piece.layout (Piece.numeralCondition (Number.digitLimit + 1)))) none
  rw [hscan] at hrun
  have hfailed : Draft.Run {} (Schema.outset {} none) {} ⟨tokens, .finished last⟩ []
      (.error (.numberTooLong (Number.digitLimit + 1))) :=
    .failed (Reader.declaration?_tooLong (Nat.lt_succ_self _) htokens)
  obtain ⟨-, rfl⟩ := hrun.unique hfailed
  exact ⟨hcompile, rfl⟩

end BinarySchema
