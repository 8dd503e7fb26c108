import BinarySchema.Proofs.Schema.Flatten
import BinarySchema.Proofs.Token.Prefix

/-!
# Truncated sources

A source that compiles and is cut off between two tokens either compiles as well, or ends where something
is still expected. The error is then about the end and has its place, whatever was being read: no reader
goes on without tokens, and none of them takes the end for something else.

`Follows` compares a reader of the whole source with one of its front. As long as the front has tokens the
two do the same; where it has none, the reader of the front finds the error, unless it has nothing to
expect.
-/

namespace BinarySchema

open TokenStream (endToken)

/-- That a source ends in one cursor where it may go on in another one. -/
structure Cursor.Cuts (pos : Position) (front whole : Cursor) : Prop where
  tokens : front.tokens <+: whole.tokens
  ending : front.ending = .finished pos

namespace Reader

open Cursor (Cuts)

variable {α β : Type} {pos : Position} {n : Nat} {p : α → Prop} {q : β → Prop}

def atEnd (pos : Position) : Cursor := ⟨[], .finished pos⟩

/-- What comes of a reader that is at the end: the error about it, or a result with a property. -/
def MeetsEnd (pos : Position) (p : α → Prop) (outcome : Except CompileError (α × Cursor)) : Prop :=
  (∃ expected, outcome = .error (.unexpected expected (endToken pos))) ∨
    ∃ a, outcome = .ok (a, atEnd pos) ∧ p a

def Never (_ : α) : Prop := False

theorem MeetsEnd.bind {y : Reader α} {c : Cursor} (h : MeetsEnd pos Never (y c))
    (g : α → Reader β) : MeetsEnd pos q ((y >>= g) c) := by
  obtain ⟨expected, herror⟩ | ⟨_, -, hnever⟩ := h
  · refine .inl ⟨expected, ?_⟩
    rw [bind_run, herror]
    rfl
  · exact hnever.elim

/-- That a reader of the front of a source does what another one does in the whole source, or it meets the
end of the front. -/
structure Follows (pos : Position) (n : Nat) (p : α → Prop) (x y : Reader α) : Prop where
  run {c d k : Cursor} {a : α} : Cuts pos k c → k.tokens.length < n → x c = .ok (a, d) →
    (∃ l, y k = .ok (a, l) ∧ Cuts pos l d ∧ l.tokens <:+ k.tokens) ∨ MeetsEnd pos p (y k)

namespace Follows

/-! ### Rules -/

theorem pure (a : α) : Follows pos n p (Pure.pure a) (Pure.pure a) where
  run {c d k _} hcut _ hrun := by
    obtain ⟨rfl, rfl⟩ := pure_ok_iff.1 hrun
    exact .inl ⟨k, rfl, hcut, List.suffix_refl _⟩

theorem throw {e : CompileError} {y : Reader α} : Follows pos n p (MonadExcept.throw e) y where
  run _ _ hrun := (throw_ok_iff.1 hrun).elim

theorem throw_bind {e : CompileError} {f : β → Reader α} {y : Reader α} :
    Follows pos n p (MonadExcept.throw e >>= f) y where
  run _ _ hrun := by
    obtain ⟨_, _, hthrow, -⟩ := bind_ok_iff.1 hrun
    exact (throw_ok_iff.1 hthrow).elim

theorem unexpectedEnd (expected : String) {y : Reader α} :
    Follows pos n p (Reader.unexpectedEnd expected) y where
  run _ _ hrun := (unexpectedEnd_ok_iff.1 hrun).elim

theorem ite {c : Prop} [Decidable c] {x y v w : Reader α} (hthen : Follows pos n p x y)
    (helse : Follows pos n p v w) :
    Follows pos n p (if c then x else v) (if c then y else w) := by
  split
  · exact hthen
  · exact helse

/-- Without steps nothing has to be shown. -/
theorem zero {x y : Reader α} : Follows pos 0 p x y where
  run _ hsteps := absurd hsteps (Nat.not_lt_zero _)

theorem bind_end {x y : Reader α} {f g : α → Reader β} (hx : Follows pos n p x y)
    (hf : ∀ a, Follows pos n q (f a) (g a))
    (hend : ∀ a, p a → MeetsEnd pos q (g a (atEnd pos))) :
    Follows pos n q (x >>= f) (y >>= g) where
  run {c d k b} hcut hsteps hrun := by
    obtain ⟨a, between, hfirst, hsecond⟩ := bind_ok_iff.1 hrun
    rcases hx.run hcut hsteps hfirst with ⟨l, hfront, hbetween, hsuffix⟩ | hmeets
    · have hless : l.tokens.length < n := Nat.lt_of_le_of_lt hsuffix.length_le hsteps
      rw [bind_of_ok hfront]
      rcases (hf a).run hbetween hless hsecond with ⟨rest, hrest, hd, hbehind⟩ | hmeets
      · exact .inl ⟨rest, hrest, hd, hbehind.trans hsuffix⟩
      · exact .inr hmeets
    · right
      obtain ⟨expected, herror⟩ | ⟨a, hfront, ha⟩ := hmeets
      · exact MeetsEnd.bind (.inl ⟨expected, herror⟩) g
      · rw [bind_of_ok hfront]
        exact hend a ha

theorem bind {x y : Reader α} {f g : α → Reader β} (hx : Follows pos n Never x y)
    (hf : ∀ a, Follows pos n q (f a) (g a)) : Follows pos n q (x >>= f) (y >>= g) :=
  bind_end hx hf nofun

/-! ### Steps -/

/-- Where a reader begins with a token, what follows has a step less. -/
theorem next_bind {f g : Token → Reader β} (hend : MeetsEnd pos q (g (endToken pos) (atEnd pos)))
    (hf : ∀ token, Follows pos n q (f token) (g token)) :
    Follows pos (n + 1) q (Reader.next >>= f) (Reader.next >>= g) where
  run {c d k b} hcut hsteps hrun := by
    obtain ⟨tokens, ending⟩ := k
    obtain rfl : ending = .finished pos := hcut.ending
    obtain ⟨comments, hcomments, rfl | ⟨token, rest, htoken, rfl⟩⟩ := Cursor.exists_remarks tokens
    · right
      rw [bind_run, next_end hcomments]
      exact hend
    · obtain ⟨more, hmore⟩ := hcut.tokens
      have hwhole : c = ⟨comments ++ token :: (rest ++ more), c.ending⟩ := by
        rw [← List.cons_append, ← List.append_assoc, hmore]
      rw [hwhole, bind_of_ok (next_token hcomments htoken)] at hrun
      rw [bind_of_ok (next_token hcomments htoken)]
      rw [List.length_append, List.length_cons] at hsteps
      have hrest : Cuts pos ⟨rest, .finished pos⟩ ⟨rest ++ more, c.ending⟩ :=
        ⟨List.prefix_append rest more, rfl⟩
      have hless : rest.length < n := by omega
      rcases (hf token).run hrest hless hrun with ⟨l, hl, hd, hsuffix⟩ | hmeets
      · refine .inl ⟨l, hl, hd, hsuffix.trans ?_⟩
        exact (List.suffix_cons token rest).trans (List.suffix_append comments (token :: rest))
      · exact .inr hmeets

theorem next_then {f g : Token → Reader β} (hend : MeetsEnd pos q (g (endToken pos) (atEnd pos)))
    (hf : ∀ token, Follows pos n q (f token) (g token)) :
    Follows pos n q (Reader.next >>= f) (Reader.next >>= g) where
  run hcut hsteps hrun := (next_bind hend hf).run hcut (Nat.lt_succ_of_lt hsteps) hrun

theorem peek : Follows pos n (· = endToken pos) Reader.peek Reader.peek where
  run {c d k a} hcut _ hrun := by
    obtain ⟨tokens, ending⟩ := k
    obtain rfl : ending = .finished pos := hcut.ending
    obtain ⟨comments, hcomments, rfl | ⟨token, rest, htoken, rfl⟩⟩ := Cursor.exists_remarks tokens
    · rw [peek_end hcomments]
      exact .inr (.inr ⟨_, rfl, rfl⟩)
    · obtain ⟨more, hmore⟩ := hcut.tokens
      have hwhole : c = ⟨comments ++ token :: (rest ++ more), c.ending⟩ := by
        rw [← List.cons_append, ← List.append_assoc, hmore]
      rw [hwhole, peek_token hcomments htoken] at hrun
      cases hrun
      refine .inl ⟨_, peek_token hcomments htoken, ⟨⟨more, rfl⟩, rfl⟩, List.suffix_append _ _⟩

/-- At the end there is no documentation. -/
theorem documentation : Follows pos n (fun _ => True) Reader.documentation Reader.documentation where
  run {c d k a} hcut _ hrun := by
    obtain ⟨tokens, ending⟩ := k
    obtain rfl : ending = .finished pos := hcut.ending
    cases tokens with
    | nil =>
      rw [documentation_nil]
      exact .inr (.inr ⟨none, rfl, trivial⟩)
    | cons token rest =>
      left
      obtain ⟨more, hmore⟩ := hcut.tokens
      have hwhole : c = ⟨token :: (rest ++ more), c.ending⟩ := by
        rw [← List.cons_append, hmore]
      rw [hwhole] at hrun
      by_cases hkind : token.kind = .comment
      · rw [documentation_comment hkind] at hrun ⊢
        cases hrun
        exact ⟨_, rfl, ⟨List.prefix_append rest more, rfl⟩, List.suffix_cons token rest⟩
      · rw [documentation_token hkind] at hrun ⊢
        cases hrun
        exact ⟨_, rfl, ⟨⟨more, rfl⟩, rfl⟩, List.suffix_refl _⟩

theorem remaining_bind {f g : Nat → Reader β} (hf : ∀ m n, Follows pos (n + 1) q (f m) (g n)) :
    Follows pos n q (remaining >>= f) (remaining >>= g) where
  run {c _ k _} hcut _ hrun := (hf c.tokens.length k.tokens.length).run hcut (Nat.lt_succ_self _) hrun

/-! ### Readers -/

theorem expectPunctuation (text : String) :
    Follows pos n Never (Reader.expectPunctuation text) (Reader.expectPunctuation text) :=
  next_then (.inl ⟨_, rfl⟩) fun token => ite (pure token) throw

theorem expectName (what : String) :
    Follows pos n Never (Reader.expectName what) (Reader.expectName what) :=
  next_then (.inl ⟨_, rfl⟩) fun token => ite (pure token) throw

theorem numberValue (token : Token) :
    Follows pos n Never (Reader.numberValue token) (Reader.numberValue token) := by
  unfold Reader.numberValue
  split
  · exact pure _
  · exact throw
  · exact throw

theorem expectNumber : Follows pos n Never Reader.expectNumber Reader.expectNumber :=
  next_then (.inl ⟨_, rfl⟩) fun token => ite (numberValue token) throw

theorem term (closer : String) (token : Token) :
    Follows pos n Never (Reader.term closer token) (Reader.term closer token) := by
  unfold Reader.term
  split
  · exact bind (numberValue token) fun _ => pure _
  · exact pure _
  · exact ite (ite (pure _) throw) (ite (pure _) (pure _))
  · exact throw

theorem terms (closer : String) (m n : Nat) :
    Follows pos n Never (Reader.terms closer m) (Reader.terms closer n) := by
  induction m generalizing n with
  | zero => exact unexpectedEnd _
  | succ m ih =>
    cases n with
    | zero => exact zero
    | succ n =>
      refine next_bind (.inl ⟨_, rfl⟩) fun token => ite (pure []) ?_
      exact bind (term closer token) fun head => bind (ih n) fun _ => pure _

theorem expression (closer : String) :
    Follows pos n Never (Reader.expression closer) (Reader.expression closer) := by
  refine bind_end peek (fun start => remaining_bind fun m n => ?_) ?_
  · exact bind (terms closer (m + 1) (n + 1)) fun read => ite throw_bind (pure _)
  · rintro _ rfl
    exact .inl ⟨_, rfl⟩

theorem typeRef (types : TypeTable) (token : Token) :
    Follows pos n Never (Reader.typeRef types token) (Reader.typeRef types token) := by
  unfold Reader.typeRef
  split
  · exact pure _
  · split
    · exact pure _
    · exact throw

theorem moreNames (m n : Nat) :
    Follows pos n Never (Reader.moreNames m) (Reader.moreNames n) := by
  induction m generalizing n with
  | zero => exact unexpectedEnd _
  | succ m ih =>
    cases n with
    | zero => exact zero
    | succ n =>
      refine next_bind (.inl ⟨_, rfl⟩) fun token => ite (pure []) (ite throw_bind ?_)
      exact bind (expectName _) fun name => bind (ih n) fun _ => pure _

theorem lengthAndEnd : Follows pos n Never Reader.lengthAndEnd Reader.lengthAndEnd := by
  refine next_then (.inl ⟨_, rfl⟩) fun token => ite ?_ (ite (pure none) throw)
  exact bind (expression _) fun length => bind (expectPunctuation _) fun _ => pure _

/-- The declaration is over where its documentation would stand. -/
theorem fieldDeclaration (types : TypeTable) (first : Token) :
    Follows pos n (fun _ => True) (Reader.fieldDeclaration types first)
      (Reader.fieldDeclaration types first) := by
  refine ite throw_bind (remaining_bind fun m n => bind (moreNames (m + 1) (n + 1)) fun more => ?_)
  refine next_then (.inl ⟨_, rfl⟩) fun token => ite throw_bind ?_
  refine bind (typeRef types token) fun type => bind lengthAndEnd fun length => ?_
  exact bind_end documentation (fun comment => pure _) fun comment _ => .inr ⟨_, rfl, trivial⟩

theorem blockHead (control : Control) (keyword : Token) :
    Follows pos n Never (Reader.blockHead control keyword) (Reader.blockHead control keyword) :=
  bind (expectPunctuation _) fun _ => bind (expression _) fun _ => pure _

theorem nodes_end (types : TypeTable) (n : Nat) :
    MeetsEnd pos Never (Reader.nodes types n (atEnd pos)) := by
  cases n <;> exact .inl ⟨_, rfl⟩

theorem nodes (types : TypeTable) (m n : Nat) :
    Follows pos n Never (Reader.nodes types m) (Reader.nodes types n) := by
  induction m generalizing n with
  | zero => exact unexpectedEnd _
  | succ m ih =>
    cases n with
    | zero => exact zero
    | succ n =>
      refine next_bind (.inl ⟨_, rfl⟩) fun token => ite (pure []) (ite throw_bind ?_)
      split
      · refine bind (blockHead _ token) fun head => bind (expectPunctuation _) fun _ => ?_
        exact bind (ih n) fun inner => bind (ih n) fun rest => pure _
      · refine bind_end (fieldDeclaration types token) (fun fields => ?_) fun fields _ => ?_
        · exact bind (ih n) fun rest => pure _
        · exact (nodes_end types n).bind _

theorem body (types : TypeTable) :
    Follows pos n Never (Reader.body types) (Reader.body types) :=
  bind (expectPunctuation _) fun _ => remaining_bind fun m n => nodes types (m + 1) (n + 1)

/-! ### Declarations -/

theorem freshName (types : TypeTable) :
    Follows pos n Never (Reader.freshName types) (Reader.freshName types) :=
  bind (expectName _) fun token => ite throw_bind (pure token)

theorem baseType : Follows pos n Never Reader.baseType Reader.baseType := by
  refine next_then (.inl ⟨_, rfl⟩) fun token => ?_
  split
  · exact pure _
  · exact throw

theorem enumValue : Follows pos n Never Reader.enumValue Reader.enumValue := by
  rw [enumValue_eq]
  refine next_then (.inl ⟨_, rfl⟩) fun token => ite ?_ (ite ?_ throw)
  · exact bind expectNumber fun _ => pure _
  · exact bind (numberValue token) fun _ => pure _

/-- Behind the value of an enum's member. -/
theorem enumRest {x y : Int → Token → Reader (List EnumMember)}
    (h : ∀ value token, Follows pos n Never (x value token) (y value token))
    (hend : ∀ value, MeetsEnd pos Never (y value (endToken pos) (atEnd pos)))
    (name : String) (own : Int) (mark : Token) :
    Follows pos n Never
      (if mark.isPunctuation "," then
        Reader.next >>= fun token => x (own + 1) token >>= fun rest => Pure.pure (⟨name, own⟩ :: rest)
      else if mark.isPunctuation "\x7d" then Pure.pure [⟨name, own⟩]
      else unexpected "[,] or [\x7d]" mark >>= fun rest => Pure.pure (⟨name, own⟩ :: rest))
      (if mark.isPunctuation "," then
        Reader.next >>= fun token => y (own + 1) token >>= fun rest => Pure.pure (⟨name, own⟩ :: rest)
      else if mark.isPunctuation "\x7d" then Pure.pure [⟨name, own⟩]
      else unexpected "[,] or [\x7d]" mark >>= fun rest => Pure.pure (⟨name, own⟩ :: rest)) := by
  refine ite (next_then ((hend (own + 1)).bind _) fun token => ?_) (ite (pure _) throw_bind)
  exact bind (h (own + 1) token) fun _ => pure _

/-- The token that a member begins with is read before its steps are counted. -/
theorem enumMembers (m n : Nat) (value : Int) (token : Token) :
    Follows pos n Never (Reader.enumMembers m value token)
      (Reader.enumMembers (n + 1) value token) := by
  induction m generalizing n value token with
  | zero => exact unexpectedEnd _
  | succ m ih =>
    cases n with
    | zero => exact zero
    | succ n =>
      have hend (value : Int) :
          MeetsEnd pos Never (Reader.enumMembers (n + 1) value (endToken pos) (atEnd pos)) :=
        .inl ⟨_, rfl⟩
      refine ite (pure []) (ite throw_bind ?_)
      refine next_bind (.inl ⟨_, rfl⟩) fun mark => ite ?_ ?_
      · refine bind enumValue fun own => next_then (.inl ⟨_, rfl⟩) fun mark => ?_
        simp only [pure_bind]
        exact enumRest (ih n) hend token.text own mark
      · simp only [pure_bind]
        exact enumRest (ih n) hend token.text value mark

theorem bitfieldMembers_end (n : Nat) :
    MeetsEnd pos Never (Reader.bitfieldMembers n (atEnd pos)) := by
  cases n <;> exact .inl ⟨_, rfl⟩

theorem bitfieldMembers (m n : Nat) :
    Follows pos n Never (Reader.bitfieldMembers m) (Reader.bitfieldMembers n) := by
  induction m generalizing n with
  | zero => exact unexpectedEnd _
  | succ m ih =>
    cases n with
    | zero => exact zero
    | succ n =>
      refine next_bind (.inl ⟨_, rfl⟩) fun token => ite (pure []) (ite throw_bind ?_)
      refine bind (expectPunctuation _) fun _ => bind expectNumber fun width => ?_
      refine bind (expectPunctuation _) fun _ => ?_
      refine bind_end documentation (fun comment => bind (ih n) fun rest => pure _) fun comment _ => ?_
      exact (bitfieldMembers_end n).bind _

theorem structDefinition (types : TypeTable) :
    Follows pos n Never (Reader.structDefinition types) (Reader.structDefinition types) :=
  bind (freshName types) fun _ => bind (body _) fun _ => pure _

theorem enumDefinition (types : TypeTable) :
    Follows pos n Never (Reader.enumDefinition types) (Reader.enumDefinition types) := by
  refine bind (freshName types) fun name => bind (expectPunctuation _) fun _ => ?_
  refine bind baseType fun base => bind (expectPunctuation _) fun _ => remaining_bind fun m n => ?_
  refine next_bind (.inl ⟨_, rfl⟩) fun token => ?_
  exact bind (enumMembers (m + 1) n 0 token) fun members => pure _

theorem bitfieldDefinition (types : TypeTable) :
    Follows pos n Never (Reader.bitfieldDefinition types) (Reader.bitfieldDefinition types) := by
  refine bind (freshName types) fun name => bind (expectPunctuation _) fun _ => ?_
  refine bind baseType fun base => bind (expectPunctuation _) fun _ => remaining_bind fun m n => ?_
  exact bind (bitfieldMembers (m + 1) (n + 1)) fun members => pure _

theorem includeDirective :
    Follows pos n Never Draft.includeDirective Draft.includeDirective := by
  refine next_then (.inl ⟨_, rfl⟩) fun token => ?_
  split
  · exact bind (pure _) fun name => bind (expectPunctuation _) fun _ => pure _
  · exact bind (pure _) fun name => bind (expectPunctuation _) fun _ => pure _
  · exact throw_bind

theorem declaration (types : TypeTable) (keyword : Token) :
    Follows pos n Never (Reader.declaration types keyword) (Reader.declaration types keyword) := by
  refine ite ?_ (ite ?_ (ite ?_ (ite ?_ (ite ?_ throw))))
  · exact bind includeDirective fun directive => pure _
  · exact bind (structDefinition types) fun d => pure _
  · exact bind (enumDefinition types) fun d => pure _
  · exact bind (bitfieldDefinition types) fun d => pure _
  · exact bind (body types) fun nodes => pure _

/-- Between two declarations a source may end. -/
theorem declaration? (types : TypeTable) :
    Follows pos n (· = none) (Reader.declaration? types) (Reader.declaration? types) := by
  refine next_then (.inr ⟨none, rfl, rfl⟩) fun keyword => ite (pure none) ?_
  exact bind (declaration types keyword) fun declared => pure _

end Follows

end Reader

/-! ### Runs -/

namespace Draft

open Reader (declaration? MeetsEnd)

variable {fs : FileSystem} {standing : Standing} {draft after : Draft} {front whole : Cursor}
  {met : List Path} {pos : Position}

/-- That a run over a source has not failed but for the end of the source, where something was expected. -/
def EndsOrExpects (pos : Position) (result : Except CompileError Draft) : Prop :=
  (∃ after, result = .ok after) ∨ ∃ expected, result = .error (.unexpected expected (endToken pos))

/-- The front of a source is run over as the whole is, up to its end. -/
theorem Run.cut (h : Run fs standing draft whole met (.ok after)) (hcut : Cursor.Cuts pos front whole) :
    ∃ fewer result, Run fs standing draft front fewer result ∧ EndsOrExpects pos result := by
  -- If the front goes on with no declaration, its run is over.
  have hends {standing : Standing} {draft : Draft} {front : Cursor}
      (hmeets : MeetsEnd pos (· = none) (declaration? draft.types front)) :
      ∃ fewer result, Run fs standing draft front fewer result ∧ EndsOrExpects pos result := by
    obtain ⟨expected, herror⟩ | ⟨_, hnone, rfl⟩ := hmeets
    · exact ⟨[], _, .failed herror, .inr ⟨expected, rfl⟩⟩
    · exact ⟨[], _, .ended hnone, .inl ⟨draft, rfl⟩⟩
  have hstep (types : TypeTable) (front : Cursor) : Reader.Follows pos (front.tokens.length + 1)
      (· = none) (declaration? types) (declaration? types) := .declaration? types
  generalize hresult : Except.ok after = result at h
  induction h generalizing front with
  | failed | refused | broken => cases hresult
  | ended read =>
    rcases (hstep _ front).run hcut (Nat.lt_succ_self _) read with ⟨_, hread, -⟩ | hmeets
    · exact ⟨[], _, .ended hread, .inl ⟨_, rfl⟩⟩
    · exact hends hmeets
  | went read effect rest ih =>
    rcases (hstep _ front).run hcut (Nat.lt_succ_self _) read with ⟨l, hread, hrest, -⟩ | hmeets
    · obtain ⟨fewer, result, hrun, hcome⟩ := ih hrest hresult
      exact ⟨_, result, .went hread effect hrun, hcome⟩
    · exact hends hmeets
  | entered read effect inside rest ih ih' =>
    rcases (hstep _ front).run hcut (Nat.lt_succ_self _) read with ⟨l, hread, hrest, -⟩ | hmeets
    · obtain ⟨fewer, result, hrun, hcome⟩ := ih' hrest hresult
      exact ⟨_, result, .entered hread effect inside hrun, hcome⟩
    · exact hends hmeets

end Draft

/-- The front of a source that compiles, cut between two tokens, compiles too, or something is expected at
its end: the error then says that the input ends, at the place of the token that stands for its end. -/
theorem compile_front {fs : FileSystem} {text front : String} {directory : Option String}
    {schema : Schema} (hcompile : Schema.compile fs text directory = .ok schema) {back : List Char}
    (htext : text.toList = front.toList ++ back) (hboundary : TokenBoundary text front.length) :
    (∃ shorter, Schema.compile fs front directory = .ok shorter) ∨
      ∃ tokens pos expected error, (TokenStream.scan front).complete = (tokens ++ [endToken pos], none) ∧
        Schema.compile fs front directory = .error error ∧
        error.expectation? = some (expected, "end of input") ∧ error.pos? = some pos := by
  obtain ⟨met, result, hrun, hwhole⟩ := Schema.exists_run fs text directory
  rw [hcompile] at hwhole
  obtain ⟨after, rfl, -⟩ := Except.map_ok_iff.1 hwhole.symm
  obtain ⟨last, hfinished⟩ := hrun.finished (TokenStream.kind_ne_scan text)
  obtain ⟨hending, htokens⟩ := TokenStream.scan_front htext hfinished hboundary
  obtain ⟨fewer, outcome, hfront, hcome⟩ := hrun.cut ⟨htokens, hending⟩
  obtain ⟨met', result', hrun', hcompile'⟩ := Schema.exists_run fs front directory
  obtain ⟨-, rfl⟩ := hrun'.unique hfront
  rw [hcompile']
  rcases hcome with ⟨shorter, rfl⟩ | ⟨expected, rfl⟩
  · exact .inl ⟨_, rfl⟩
  · have hcomplete : (TokenStream.scan front).complete
        = ((TokenStream.scan front).tokens ++ [endToken (.after .first front.toList)], none) := by
      rw [TokenStream.complete, hending]
    exact .inr ⟨_, _, expected, _, hcomplete, rfl, rfl, rfl⟩

def FileSystem.levels : FileSystem where
  files := [(["levels"],
    "enum Level : byte \x7b Low, High = 2 \x7d".toList.map fun c => UInt8.ofNat c.toNat)]

/-- The cut is in the length of an array, behind a sum's sign. -/
theorem compile_front_levels :
    let text := "include levels; schema \x7b n : Level; // kind\n x : byte[n + 1]; \x7d"
    let front := "include levels; schema \x7b n : Level; // kind\n x : byte[n +"
    (∃ schema, Schema.compile .levels text = .ok schema) ∧ TokenBoundary text front.length ∧
      ((∃ shorter, Schema.compile .levels front = .ok shorter) ∨
        ∃ tokens pos expected error,
          (TokenStream.scan front).complete = (tokens ++ [endToken pos], none) ∧
          Schema.compile .levels front = .error error ∧
          error.expectation? = some (expected, "end of input") ∧ error.pos? = some pos) := by
  intro text front
  have hcompiles : (Schema.compile .levels text).toOption.isSome = true := by
    decide +kernel
  have hboundary : TokenBoundary text front.length := by
    decide +kernel
  cases hcompile : Schema.compile .levels text with
  | error e =>
    rw [hcompile] at hcompiles
    cases hcompiles
  | ok schema =>
    have htext : text.toList = front.toList ++ " 1]; \x7d".toList := by
      decide +kernel
    exact ⟨⟨schema, rfl⟩, hboundary, compile_front hcompile htext hboundary⟩

end BinarySchema
