import BinarySchema.Proofs.Definition.View
import BinarySchema.Proofs.Except
import BinarySchema.Proofs.Schema.Extent
import BinarySchema.Proofs.Token.Blanking

/-!
# Reading without comments

What the readers of the grammar make of tokens does not depend on the comments among them, but for the
documentation of fields and members: without the comments the same is read, at the same places, and the
same errors are found.

`Hushes` relates a reader where comments are with one where they are not. They count their steps by the
tokens that are left, so the relation holds as long as both have enough of them. One case is special:
where a comment is the last token in front of a fault, looking for documentation finds the comment, and
without the comment it finds the fault. Nothing is lost, since what is read next meets the fault too.
-/

namespace BinarySchema

namespace Reader

variable {α β γ δ : Type} {late : Bool} {m n : Nat} {c d : Cursor}

/-! ### Cursors without comments -/

theorem quiet_remarks {comments : List Token} (h : Remarks comments) (ending : Ending) :
    TokenStream.quiet ⟨comments, ending⟩ = ⟨[], ending⟩ := by
  unfold TokenStream.quiet
  rw [List.filter_eq_nil_iff.2 fun token htoken => by simp [h token htoken]]

theorem quiet_token {comments rest : List Token} {token : Token} (h : Remarks comments)
    (htoken : token.kind ≠ .comment) (ending : Ending) :
    TokenStream.quiet ⟨comments ++ token :: rest, ending⟩
      = ⟨token :: (TokenStream.quiet ⟨rest, ending⟩).tokens, ending⟩ := by
  have hcomments : comments.filter (·.kind ≠ .comment) = [] :=
    congrArg TokenStream.tokens (quiet_remarks h ending)
  unfold TokenStream.quiet
  rw [List.filter_append, hcomments, List.filter_cons_of_pos (by simp [htoken])]
  rfl

/-- That a cursor leaves readers with and without comments fewer tokens than they have steps. -/
structure Within (m n : Nat) (c : Cursor) : Prop where
  loud : c.tokens.length < m
  quiet : c.quiet.tokens.length < n

theorem Within.of_suffix (h : Within m n c) (hsuffix : d.tokens <:+ c.tokens) : Within m n d where
  loud := Nat.lt_of_le_of_lt hsuffix.length_le h.loud
  quiet := Nat.lt_of_le_of_lt (hsuffix.filter _).length_le h.quiet

/-- That only comments are left, and behind them nothing can be read. -/
def Halts (e : CompileError) (c : Cursor) : Prop :=
  Remarks c.tokens ∧ c.ending.outcome = .error e

/-- That a reader meets what stands behind the comments. -/
def Eager (x : Reader α) : Prop :=
  ∀ c e, Halts e c → x c = .error e

theorem Eager.bind {x : Reader α} (h : Eager x) (f : α → Reader β) : Eager (x >>= f) := by
  intro c e hhalts
  rw [bind_run, h c e hhalts]
  rfl

theorem eager_next : Eager next := by
  rintro ⟨tokens, ending⟩ e ⟨hremarks, hending⟩
  rw [next_end hremarks]
  dsimp only at hending
  rw [hending]
  rfl

theorem eager_peek : Eager peek := by
  rintro ⟨tokens, ending⟩ e ⟨hremarks, hending⟩
  rw [peek_end hremarks]
  dsimp only at hending
  rw [hending]
  rfl

/-! ### Rules -/

/-- That one reader does without comments what another one does with them, up to a view of the results.
If it is late, it may be that only the one without comments has met the end. -/
structure Hushes (late : Bool) (key : α → β) (m n : Nat) (x : Reader α) (y : Reader β) : Prop where
  of_error {c e} : Within m n c → x c = .error e → y c.quiet = .error e
  of_ok {c a d} : Within m n c → x c = .ok (a, d) → d.tokens <:+ c.tokens ∧
    (y c.quiet = .ok (key a, d.quiet) ∨ late = true ∧ ∃ e, Halts e d ∧ y c.quiet = .error e)

namespace Hushes

variable {key : α → β} {behind : γ → δ} {x : Reader α} {y : Reader β}

theorem pure {a : α} {b : β} (h : key a = b) : Hushes late key m n (Pure.pure a) (Pure.pure b) where
  of_error _ hrun := nomatch hrun
  of_ok _ hrun := by
    obtain ⟨rfl, rfl⟩ := pure_ok_iff.1 hrun
    rw [← h]
    exact ⟨List.suffix_refl _, .inl rfl⟩

theorem throw (e : CompileError) :
    Hushes late key m n (MonadExcept.throw e) (MonadExcept.throw e) where
  of_error _ hrun := by
    cases hrun
    rfl
  of_ok _ hrun := (throw_ok_iff.1 hrun).elim

theorem throw_bind (e : CompileError) (f : γ → Reader α) (g : δ → Reader β) :
    Hushes late key m n (MonadExcept.throw e >>= f) (MonadExcept.throw e >>= g) where
  of_error _ hrun := by
    cases hrun
    rfl
  of_ok _ hrun := by
    obtain ⟨_, _, hthrow, -⟩ := bind_ok_iff.1 hrun
    exact (throw_ok_iff.1 hthrow).elim

theorem ite {p : Prop} [Decidable p] {x' : Reader α} {y' : Reader β}
    (hx : p → Hushes late key m n x y) (hx' : ¬ p → Hushes late key m n x' y') :
    Hushes late key m n (if p then x else x') (if p then y else y') := by
  by_cases h : p
  · rw [if_pos h, if_pos h]
    exact hx h
  · rw [if_neg h, if_neg h]
    exact hx' h

theorem of_not_within (h : ∀ c, ¬ Within m n c) : Hushes late key m n x y where
  of_error hwithin := absurd hwithin (h _)
  of_ok hwithin := absurd hwithin (h _)

theorem zero : Hushes late key 0 n x y :=
  of_not_within fun _ h => Nat.not_lt_zero _ h.loud

theorem zero_quiet : Hushes late key m 0 x y :=
  of_not_within fun _ h => Nat.not_lt_zero _ h.quiet

/-- What follows a late reader has to meet the end. -/
theorem bind_late {edge : Bool} {f : α → Reader γ} {g : β → Reader δ} (hx : Hushes edge key m n x y)
    (hf : ∀ a, Hushes late behind m n (f a) (g (key a)))
    (heager : edge = true → ∀ a, Eager (f a)) :
    Hushes late behind m n (x >>= f) (y >>= g) where
  of_error := by
    intro c e hwithin hrun
    rw [bind_run] at hrun ⊢
    cases hfirst : x c with
    | error other =>
      rw [hfirst] at hrun
      cases hrun
      rw [hx.of_error hwithin hfirst]
      rfl
    | ok result =>
      obtain ⟨a, between⟩ := result
      rw [hfirst] at hrun
      obtain ⟨hsuffix, hquiet | ⟨hedge, other, hhalts, hquiet⟩⟩ := hx.of_ok hwithin hfirst
      · rw [hquiet]
        exact (hf a).of_error (hwithin.of_suffix hsuffix) hrun
      · have hsame := (heager hedge a _ _ hhalts).symm.trans hrun
        cases hsame
        rw [hquiet]
        rfl
  of_ok := by
    intro c b d hwithin hrun
    obtain ⟨a, between, hfirst, hsecond⟩ := bind_ok_iff.1 hrun
    rw [bind_run]
    obtain ⟨hsuffix, hquiet | ⟨hedge, other, hhalts, -⟩⟩ := hx.of_ok hwithin hfirst
    · obtain ⟨hbehind, hrest⟩ := (hf a).of_ok (hwithin.of_suffix hsuffix) hsecond
      rw [hquiet]
      exact ⟨hbehind.trans hsuffix, hrest⟩
    · exact nomatch (heager hedge a _ _ hhalts).symm.trans hsecond

theorem bind {f : α → Reader γ} {g : β → Reader δ} (hx : Hushes false key m n x y)
    (hf : ∀ a, Hushes late behind m n (f a) (g (key a))) :
    Hushes late behind m n (x >>= f) (y >>= g) :=
  bind_late hx hf nofun

/-- A result is changed; a late reader stays late. -/
theorem bind_pure {r : α → γ} {s : β → δ} (hx : Hushes late key m n x y)
    (h : ∀ a, behind (r a) = s (key a)) :
    Hushes late behind m n (x >>= fun a => Pure.pure (r a)) (y >>= fun b => Pure.pure (s b)) where
  of_error := by
    intro c e hwithin hrun
    rw [bind_run] at hrun ⊢
    cases hfirst : x c with
    | error other =>
      rw [hfirst] at hrun
      cases hrun
      rw [hx.of_error hwithin hfirst]
      rfl
    | ok result =>
      rw [hfirst] at hrun
      cases hrun
  of_ok := by
    intro c b d hwithin hrun
    obtain ⟨a, between, hfirst, hsecond⟩ := bind_ok_iff.1 hrun
    obtain ⟨rfl, rfl⟩ := pure_ok_iff.1 hsecond
    obtain ⟨hsuffix, hquiet | ⟨hlate, other, hhalts, hquiet⟩⟩ := hx.of_ok hwithin hfirst
    · refine ⟨hsuffix, .inl ?_⟩
      rw [bind_run, hquiet, h]
      rfl
    · refine ⟨hsuffix, .inr ⟨hlate, other, hhalts, ?_⟩⟩
      rw [bind_run, hquiet]
      rfl

/-! ### Steps -/

/-- A plain step finds the same with comments and without; it may keep the token that it finds. -/
theorem step {x : Reader Token} (kept : Token → List Token)
    (hend : ∀ {comments ending}, Remarks comments →
      x ⟨comments, ending⟩ = ending.outcome.map fun pos => (TokenStream.endToken pos, ⟨[], ending⟩))
    (htoken : ∀ {comments token rest ending}, Remarks comments → token.kind ≠ .comment →
      x ⟨comments ++ token :: rest, ending⟩ = .ok (token, ⟨kept token ++ rest, ending⟩))
    (hkept : ∀ token rest, token.kind ≠ .comment → kept token ++ rest <:+ token :: rest ∧
      (kept token).filter (·.kind ≠ .comment) = kept token) : Hushes false id m n x x where
  of_error {c e} _ hrun := by
    obtain ⟨tokens, ending⟩ := c
    obtain ⟨comments, hcomments, rfl | ⟨token, rest, hkind, rfl⟩⟩ := Cursor.exists_remarks tokens
    · rw [hend hcomments] at hrun
      rw [quiet_remarks hcomments, hend (List.forall_mem_nil _), hrun]
    · rw [htoken hcomments hkind] at hrun
      cases hrun
  of_ok {c a d} _ hrun := by
    obtain ⟨tokens, ending⟩ := c
    obtain ⟨comments, hcomments, rfl | ⟨token, rest, hkind, rfl⟩⟩ := Cursor.exists_remarks tokens
    · rw [hend hcomments] at hrun
      rw [quiet_remarks hcomments, hend (List.forall_mem_nil _), hrun]
      obtain ⟨pos, -, hresult⟩ := Except.map_ok_iff.1 hrun
      cases hresult
      exact ⟨List.nil_suffix, .inl rfl⟩
    · rw [htoken hcomments hkind] at hrun
      cases hrun
      obtain ⟨hsuffix, hsolid⟩ := hkept a rest hkind
      refine ⟨hsuffix.trans (List.suffix_append comments (a :: rest)), .inl ?_⟩
      have hkeeps : TokenStream.quiet ⟨kept a ++ rest, ending⟩
          = ⟨kept a ++ rest.filter (·.kind ≠ .comment), ending⟩ := by
        rw [TokenStream.quiet, List.filter_append, hsolid]
      rw [quiet_token hcomments hkind, hkeeps]
      exact htoken (List.forall_mem_nil _) hkind

theorem next : Hushes false id m n Reader.next Reader.next :=
  step (fun _ => []) next_end next_token fun token rest _ => ⟨List.suffix_cons token rest, rfl⟩

theorem peek : Hushes false id m n Reader.peek Reader.peek :=
  step (fun token => [token]) peek_end peek_token fun token rest htoken =>
    ⟨List.suffix_refl _, List.filter_cons_of_pos (by simp [htoken])⟩

/-- Where a reader begins with a token, what follows has a step less; at the end it finds an error. -/
theorem next_bind {f : Token → Reader γ} {g : Token → Reader δ}
    (hend : ∀ pos c, ∃ e, f (TokenStream.endToken pos) c = .error e ∧
      g (TokenStream.endToken pos) c = .error e)
    (hf : ∀ token, Hushes late behind m n (f token) (g token)) :
    Hushes late behind (m + 1) (n + 1) (Reader.next >>= f) (Reader.next >>= g) := by
  have hstep (c : Cursor) (hwithin : Within (m + 1) (n + 1) c) :
      (∃ e, (Reader.next >>= f) c = .error e ∧ (Reader.next >>= g) c.quiet = .error e) ∨
      ∃ token d, (Reader.next >>= f) c = f token d ∧ (Reader.next >>= g) c.quiet = g token d.quiet ∧
        d.tokens <:+ c.tokens ∧ Within m n d := by
    obtain ⟨tokens, ending⟩ := c
    obtain ⟨comments, hcomments, rfl | ⟨token, rest, htoken, rfl⟩⟩ := Cursor.exists_remarks tokens
    · left
      rw [bind_run, bind_run, next_end hcomments, quiet_remarks hcomments,
        next_end (List.forall_mem_nil _)]
      cases ending.outcome with
      | error e => exact ⟨e, rfl, rfl⟩
      | ok pos => exact hend pos ⟨[], ending⟩
    · right
      have hquiet : TokenStream.quiet ⟨comments ++ token :: rest, ending⟩ = _ :=
        quiet_token hcomments htoken ending
      refine ⟨token, ⟨rest, ending⟩, bind_of_ok (next_token hcomments htoken), ?_, ?_, ?_, ?_⟩
      · rw [hquiet]
        exact bind_of_ok (next_token (List.forall_mem_nil _) htoken)
      · exact (List.suffix_cons token rest).trans (List.suffix_append comments (token :: rest))
      · have hloud := hwithin.loud
        rw [List.length_append, List.length_cons] at hloud
        change rest.length < m
        omega
      · have hless := hwithin.quiet
        rw [hquiet, List.length_cons] at hless
        omega
  constructor
  · intro c e hwithin hrun
    rcases hstep c hwithin with ⟨other, hloud, hquiet⟩ | ⟨token, d, hloud, hquiet, -, hbehind⟩
    · rw [hloud] at hrun
      cases hrun
      exact hquiet
    · rw [hloud] at hrun
      rw [hquiet]
      exact (hf token).of_error hbehind hrun
  · intro c b d hwithin hrun
    rcases hstep c hwithin with ⟨other, hloud, -⟩ | ⟨token, between, hloud, hquiet, hsuffix, hbehind⟩
    · rw [hloud] at hrun
      cases hrun
    · rw [hloud] at hrun
      rw [hquiet]
      obtain ⟨hrest, hresult⟩ := (hf token).of_ok hbehind hrun
      exact ⟨hrest.trans hsuffix, hresult⟩

theorem documentation :
    Hushes true (fun _ => none) m n Reader.documentation Reader.documentation where
  of_error {c e} _ hrun := by
    obtain ⟨tokens, ending⟩ := c
    cases tokens with
    | nil => exact hrun
    | cons token rest =>
      by_cases hkind : token.kind = .comment
      · rw [documentation_comment hkind] at hrun
        cases hrun
      · rw [documentation_token hkind] at hrun
        cases hrun
  of_ok {c a d} _ hrun := by
    obtain ⟨tokens, ending⟩ := c
    cases tokens with
    | nil =>
      have hnone := hrun
      rw [documentation_nil] at hnone
      obtain ⟨pos, -, hresult⟩ := Except.map_ok_iff.1 hnone
      cases hresult
      exact ⟨List.suffix_refl _, .inl hrun⟩
    | cons token rest =>
      by_cases hkind : token.kind = .comment
      · rw [documentation_comment hkind] at hrun
        cases hrun
        have hquiet : TokenStream.quiet ⟨token :: rest, ending⟩ = TokenStream.quiet ⟨rest, ending⟩ := by
          rw [TokenStream.quiet, List.filter_cons_of_neg (by simp [hkind])]
          rfl
        refine ⟨List.suffix_cons token rest, ?_⟩
        rw [hquiet]
        obtain ⟨comments, hcomments, rfl | ⟨head, tail, hhead, rfl⟩⟩ := Cursor.exists_remarks rest
        · rw [quiet_remarks hcomments, documentation_nil]
          cases hend : ending.outcome with
          | ok pos => exact .inl rfl
          | error e => exact .inr ⟨rfl, e, ⟨hcomments, hend⟩, rfl⟩
        · rw [quiet_token hcomments hhead]
          exact .inl (documentation_token hhead)
      · rw [documentation_token hkind] at hrun
        cases hrun
        have hquiet : TokenStream.quiet ⟨[] ++ token :: rest, ending⟩ = _ :=
          quiet_token (List.forall_mem_nil _) hkind ending
        rw [List.nil_append] at hquiet
        rw [hquiet]
        exact ⟨List.suffix_refl _, .inl (documentation_token hkind)⟩

theorem remaining_bind {f : Nat → Reader γ} {g : Nat → Reader δ}
    (hf : ∀ m n, Hushes late behind (m + 1) (n + 1) (f m) (g n)) :
    Hushes late behind m n (remaining >>= f) (remaining >>= g) where
  of_error {c _} _ hrun := (hf c.tokens.length c.quiet.tokens.length).of_error
    ⟨Nat.lt_succ_self _, Nat.lt_succ_self _⟩ hrun
  of_ok {c _ _} _ hrun := (hf c.tokens.length c.quiet.tokens.length).of_ok
    ⟨Nat.lt_succ_self _, Nat.lt_succ_self _⟩ hrun

/-! ### Readers -/

theorem expectPunctuation (text : String) :
    Hushes false id m n (Reader.expectPunctuation text) (Reader.expectPunctuation text) :=
  bind next fun _ => ite (fun _ => pure rfl) fun _ => throw _

theorem expectName (what : String) :
    Hushes false id m n (Reader.expectName what) (Reader.expectName what) :=
  bind next fun _ => ite (fun _ => pure rfl) fun _ => throw _

theorem numberValue (token : Token) :
    Hushes false id m n (Reader.numberValue token) (Reader.numberValue token) := by
  unfold Reader.numberValue
  split
  · exact pure rfl
  · exact throw _
  · exact throw _

theorem expectNumber : Hushes false id m n Reader.expectNumber Reader.expectNumber :=
  bind next fun token => ite (fun _ => numberValue token) fun _ => throw _

theorem term (closer : String) (token : Token) :
    Hushes false id m n (Reader.term closer token) (Reader.term closer token) := by
  unfold Reader.term
  split
  · exact bind_pure (numberValue token) fun _ => rfl
  · exact pure rfl
  · exact ite (fun _ => ite (fun _ => pure rfl) fun _ => throw _) fun _ =>
      ite (fun _ => pure rfl) fun _ => pure rfl
  · exact throw _

theorem terms (closer : String) (m n : Nat) :
    Hushes false id m n (Reader.terms closer m) (Reader.terms closer n) := by
  induction m generalizing n with
  | zero => exact zero
  | succ m ih =>
    cases n with
    | zero => exact zero_quiet
    | succ n =>
      refine next_bind (fun pos c => ⟨_, rfl, rfl⟩) fun token => ite (fun _ => pure rfl) fun _ => ?_
      exact bind (term closer token) fun head => bind_pure (ih n) fun _ => rfl

theorem expression (closer : String) :
    Hushes false id m n (Reader.expression closer) (Reader.expression closer) := by
  refine bind peek fun start => remaining_bind fun m n => bind (terms closer _ _) fun read => ?_
  exact ite (fun _ => throw_bind _ _ _) fun _ => pure rfl

theorem typeRef (types : TypeTable) (token : Token) :
    Hushes false id m n (Reader.typeRef types token) (Reader.typeRef types token) := by
  unfold Reader.typeRef
  split
  · exact pure rfl
  · split
    · exact pure rfl
    · exact throw _

theorem moreNames (m n : Nat) :
    Hushes false id m n (Reader.moreNames m) (Reader.moreNames n) := by
  induction m generalizing n with
  | zero => exact zero
  | succ m ih =>
    cases n with
    | zero => exact zero_quiet
    | succ n =>
      refine next_bind (fun pos c => ⟨_, rfl, rfl⟩) fun token => ite (fun _ => pure rfl) fun _ =>
        ite (fun _ => throw_bind _ _ _) fun _ => ?_
      exact bind (expectName _) fun name => bind_pure (ih n) fun _ => rfl

theorem lengthAndEnd : Hushes false id m n Reader.lengthAndEnd Reader.lengthAndEnd := by
  refine bind next fun token => ite (fun _ => ?_) fun _ => ite (fun _ => pure rfl) fun _ => throw _
  exact bind (expression _) fun length => bind_pure (expectPunctuation _) fun _ => rfl

/-- The fields of a declaration wait for their documentation. -/
theorem fieldDeclaration (types : TypeTable) (first : Token) :
    Hushes true (List.map (Field.view .undocumented)) m n (Reader.fieldDeclaration types first)
      (Reader.fieldDeclaration types first) := by
  refine ite (fun _ => throw_bind _ _ _) fun _ => remaining_bind fun m n => ?_
  refine bind (moreNames _ _) fun more => bind next fun token => ?_
  refine ite (fun _ => throw_bind _ _ _) fun _ => ?_
  refine bind (typeRef types token) fun type => bind lengthAndEnd fun length => ?_
  refine bind_pure documentation fun comment => ?_
  rw [List.map_map]
  refine List.map_congr_left fun name _ => ?_
  rw [Function.comp_apply, Field.view, Expression.view_undocumented, Option.map_id]
  rfl

theorem blockHead (control : Control) (keyword : Token) :
    Hushes false (BlockHead.view .undocumented) m n (Reader.blockHead control keyword)
      (Reader.blockHead control keyword) := by
  refine bind (expectPunctuation _) fun _ => bind_pure (expression _) fun condition => ?_
  rw [BlockHead.view, Expression.view_undocumented]
  rfl

theorem eager_nodes (types : TypeTable) (steps : Nat) : Eager (Reader.nodes types steps) := by
  cases steps with
  | zero => exact eager_peek.bind _
  | succ steps => exact eager_next.bind _

theorem nodes (types : TypeTable) (m n : Nat) :
    Hushes false (bodyView .undocumented) m n (Reader.nodes types m) (Reader.nodes types n) := by
  induction m generalizing n with
  | zero => exact zero
  | succ m ih =>
    cases n with
    | zero => exact zero_quiet
    | succ n =>
      refine next_bind (fun pos c => ⟨_, rfl, rfl⟩) fun token => ite (fun _ => pure rfl) fun _ =>
        ite (fun _ => throw_bind _ _ _) fun _ => ?_
      split
      · refine bind (blockHead _ token) fun head => bind (expectPunctuation _) fun _ => ?_
        exact bind (ih n) fun inner => bind_pure (ih n) fun rest => rfl
      · refine bind_late (fieldDeclaration types token) (fun fields => ?_) fun _ fields =>
          (eager_nodes types m).bind _
        refine bind_pure (ih n) fun rest => ?_
        rw [bodyView_append, bodyView_map_field]

theorem body (types : TypeTable) :
    Hushes false (bodyView .undocumented) m n (Reader.body types) (Reader.body types) :=
  bind (expectPunctuation _) fun _ => remaining_bind fun m n => nodes types (m + 1) (n + 1)

/-! ### Declarations -/

theorem freshName (types : TypeTable) :
    Hushes false id m n (Reader.freshName types) (Reader.freshName types) :=
  bind (expectName _) fun _ => ite (fun _ => throw_bind _ _ _) fun _ => pure rfl

theorem baseType : Hushes false id m n Reader.baseType Reader.baseType := by
  refine bind next fun token => ?_
  dsimp only [id]
  split
  · exact pure rfl
  · exact throw _

theorem enumValue : Hushes false id m n Reader.enumValue Reader.enumValue := by
  rw [enumValue_eq]
  refine bind next fun token => ite (fun _ => ?_) fun _ => ite (fun _ => ?_) fun _ => throw _
  · exact bind_pure expectNumber fun _ => rfl
  · exact bind_pure (numberValue token) fun _ => rfl

/-- Behind the value of an enum's member. -/
theorem enumRest {x y : Int → Token → Reader (List EnumMember)}
    (h : ∀ value token, Hushes false id m n (x value token) (y value token))
    (name : String) (own : Int) (mark : Token) :
    Hushes false id m n
      (if mark.isPunctuation "," then
        Reader.next >>= fun token => x (own + 1) token >>= fun rest => Pure.pure (⟨name, own⟩ :: rest)
      else if mark.isPunctuation "\x7d" then Pure.pure [⟨name, own⟩]
      else unexpected "[,] or [\x7d]" mark >>= fun rest => Pure.pure (⟨name, own⟩ :: rest))
      (if mark.isPunctuation "," then
        Reader.next >>= fun token => y (own + 1) token >>= fun rest => Pure.pure (⟨name, own⟩ :: rest)
      else if mark.isPunctuation "\x7d" then Pure.pure [⟨name, own⟩]
      else unexpected "[,] or [\x7d]" mark >>= fun rest => Pure.pure (⟨name, own⟩ :: rest)) := by
  refine ite (fun _ => ?_) fun _ => ite (fun _ => pure rfl) fun _ => throw_bind _ _ _
  exact bind next fun token => bind_pure (h (own + 1) token) fun _ => rfl

/-- The token that a member begins with is read before its steps are counted. -/
theorem enumMembers (m n : Nat) (value : Int) (token : Token) :
    Hushes false id m n (Reader.enumMembers (m + 1) value token)
      (Reader.enumMembers (n + 1) value token) := by
  induction m generalizing n value token with
  | zero => exact zero
  | succ m ih =>
    cases n with
    | zero => exact zero_quiet
    | succ n =>
      refine ite (fun _ => pure rfl) fun _ => ite (fun _ => throw_bind _ _ _) fun _ => ?_
      refine next_bind (fun pos c => ⟨_, rfl, rfl⟩) fun mark => ite (fun _ => ?_) fun _ => ?_
      · refine bind enumValue fun own => bind next fun mark => ?_
        simp only [pure_bind]
        exact enumRest (ih n) token.text own mark
      · simp only [pure_bind]
        exact enumRest (ih n) token.text value mark

theorem eager_bitfieldMembers (steps : Nat) : Eager (Reader.bitfieldMembers steps) := by
  cases steps with
  | zero => exact eager_peek.bind _
  | succ steps => exact eager_next.bind _

theorem bitfieldMembers (m n : Nat) :
    Hushes false (List.map (BitfieldMember.view .undocumented)) m n (Reader.bitfieldMembers m)
      (Reader.bitfieldMembers n) := by
  induction m generalizing n with
  | zero => exact zero
  | succ m ih =>
    cases n with
    | zero => exact zero_quiet
    | succ n =>
      refine next_bind (fun pos c => ⟨_, rfl, rfl⟩) fun token => ite (fun _ => pure rfl) fun _ =>
        ite (fun _ => throw_bind _ _ _) fun _ => ?_
      refine bind (expectPunctuation _) fun _ => bind expectNumber fun width => ?_
      refine bind (expectPunctuation _) fun _ => ?_
      refine bind_late documentation (fun comment => ?_) fun _ comment =>
        (eager_bitfieldMembers m).bind _
      exact bind_pure (ih n) fun rest => rfl

theorem structDefinition (types : TypeTable) :
    Hushes false (Definition.view .undocumented) m n (Reader.structDefinition types)
      (Reader.structDefinition types) :=
  bind (freshName types) fun _ => bind_pure (body _) fun _ => rfl

theorem enumDefinition (types : TypeTable) :
    Hushes false (Definition.view .undocumented) m n (Reader.enumDefinition types)
      (Reader.enumDefinition types) := by
  refine bind (freshName types) fun name => bind (expectPunctuation _) fun _ => ?_
  refine bind baseType fun base => bind (expectPunctuation _) fun _ => remaining_bind fun m n => ?_
  refine next_bind (fun pos c => ⟨_, rfl, rfl⟩) fun token => ?_
  exact bind_pure (enumMembers m n 0 token) fun _ => rfl

theorem bitfieldDefinition (types : TypeTable) :
    Hushes false (Definition.view .undocumented) m n (Reader.bitfieldDefinition types)
      (Reader.bitfieldDefinition types) := by
  refine bind (freshName types) fun name => bind (expectPunctuation _) fun _ => ?_
  refine bind baseType fun base => bind (expectPunctuation _) fun _ => remaining_bind fun m n => ?_
  exact bind_pure (bitfieldMembers (m + 1) (n + 1)) fun _ => rfl

theorem includeDirective :
    Hushes false id m n Draft.includeDirective Draft.includeDirective := by
  refine bind next fun token => ?_
  dsimp only [id]
  split
  · rw [pure_bind]
    exact bind_pure (expectPunctuation _) fun _ => rfl
  · rw [pure_bind]
    exact bind_pure (expectPunctuation _) fun _ => rfl
  · exact throw_bind _ _ _

theorem declaration (types : TypeTable) (keyword : Token) :
    Hushes false (Declaration.view .undocumented) m n (Reader.declaration types keyword)
      (Reader.declaration types keyword) := by
  refine ite (fun _ => ?_) fun _ => ite (fun _ => ?_) fun _ => ite (fun _ => ?_) fun _ =>
    ite (fun _ => ?_) fun _ => ite (fun _ => ?_) fun _ => throw _
  · exact bind_pure includeDirective fun _ => rfl
  · exact bind_pure (structDefinition types) fun _ => rfl
  · exact bind_pure (enumDefinition types) fun _ => rfl
  · exact bind_pure (bitfieldDefinition types) fun _ => rfl
  · exact bind_pure (body types) fun _ => rfl

theorem declaration? (types : TypeTable) :
    Hushes false (Option.map (Prod.map id (Declaration.view .undocumented))) m n
      (Reader.declaration? types) (Reader.declaration? types) := by
  refine bind next fun keyword => ite (fun _ => pure rfl) fun _ => ?_
  exact bind_pure (declaration types keyword) fun _ => rfl

end Hushes

theorem declaration?_quiet (types : TypeTable) (c : Cursor) :
    declaration? types c.quiet = (declaration? types c).map
      (Prod.map (Option.map (Prod.map id (Declaration.view .undocumented))) TokenStream.quiet) := by
  have hwithin : Within (c.tokens.length + 1) (c.quiet.tokens.length + 1) c :=
    ⟨Nat.lt_succ_self _, Nat.lt_succ_self _⟩
  cases hrun : declaration? types c with
  | error e => exact (Hushes.declaration? types).of_error hwithin hrun
  | ok result =>
    obtain ⟨-, hquiet | ⟨hlate, -⟩⟩ := (Hushes.declaration? types).of_ok hwithin hrun
    · exact hquiet
    · cases hlate

end Reader

end BinarySchema
