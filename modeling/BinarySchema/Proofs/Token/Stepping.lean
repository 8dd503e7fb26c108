import BinarySchema.Token.Cursor

/-!
# Steps of a cursor

A cursor over tokens with an end answers every step with a token. The steps that take their token take the
tokens in order and may pass over comments on the way, never over anything else, and from the end on they
take the end token again and again (`Picks`). A step that only looks finds what a step that takes would
find.

The same answers come from a reader that draws the tokens one at a time, keeps at most one of them ahead,
and remembers the end token once it was drawn. Where it can stand when the cursor has some tokens left is
told by `Stands`.
-/

namespace BinarySchema.Cursor

/-- A step of a cursor. It takes the token that it finds, or only looks at it; and it passes over the
comments in front, unless it is raw. -/
structure Step where
  takes : Bool
  raw : Bool
  deriving DecidableEq, Repr

def Step.make : Step → Cursor → Except CursorError Token × Cursor
  | ⟨true, false⟩ => next
  | ⟨true, true⟩ => nextRaw
  | ⟨false, false⟩ => peek
  | ⟨false, true⟩ => peekRaw

def after : List Step → Cursor → Cursor
  | [], cursor => cursor
  | step :: rest, cursor => after rest (step.make cursor).2

def answers : List Step → Cursor → List (Except CursorError Token)
  | [], _ => []
  | step :: rest, cursor => (step.make cursor).1 :: answers rest (step.make cursor).2

def taken : List Step → Cursor → List Token
  | [], _ => []
  | step :: rest, cursor =>
    let found := if step.takes then (step.make cursor).1.toOption.toList else []
    found ++ taken rest (step.make cursor).2

/-! ### One step -/

/-- The tokens that a step has in front of it. -/
def ahead (raw : Bool) (tokens : List Token) : List Token :=
  if raw then tokens else tokens.dropWhile (·.kind = .comment)

/-- The tokens that a step leaves. -/
def behind (step : Step) (tokens : List Token) : List Token :=
  if step.takes then (ahead step.raw tokens).tail else ahead step.raw tokens

variable {tokens rest : List Token} {token last : Token} {pos : Position}

theorem ahead_suffix (raw : Bool) (tokens : List Token) : ahead raw tokens <:+ tokens := by
  unfold ahead
  split
  · exact List.suffix_rfl
  · exact List.dropWhile_suffix _

theorem behind_suffix (step : Step) (tokens : List Token) : behind step tokens <:+ tokens := by
  have hahead := ahead_suffix step.raw tokens
  unfold behind
  split
  · exact (List.tail_suffix _).trans hahead
  · exact hahead

/-- A step in front of an end answers with the first token that it has in front of it, if there is none
with the end. -/
theorem make_finished (step : Step) (tokens : List Token) (pos : Position) :
    step.make ⟨tokens, .finished pos⟩
      = (.ok ((ahead step.raw tokens).headD (TokenStream.endToken pos)),
          ⟨behind step tokens, .finished pos⟩) := by
  have hraw (takes : Bool) (tokens : List Token) : Step.make ⟨takes, true⟩ ⟨tokens, .finished pos⟩
      = (.ok (tokens.headD (TokenStream.endToken pos)),
          ⟨if takes then tokens.tail else tokens, .finished pos⟩) := by
    cases takes <;> cases tokens <;> rfl
  obtain ⟨takes, raw⟩ := step
  cases raw with
  | true => exact hraw takes tokens
  | false =>
    have hplain : Step.make ⟨takes, false⟩ ⟨tokens, .finished pos⟩
        = Step.make ⟨takes, true⟩ ⟨tokens.dropWhile (·.kind = .comment), .finished pos⟩ := by
      cases takes <;> rfl
    rw [hplain, hraw]
    rfl

theorem answers_append_singleton (front : List Step) (step : Step) (cursor : Cursor) :
    answers (front ++ [step]) cursor
      = answers front cursor ++ [(step.make (after front cursor)).1] := by
  induction front generalizing cursor with
  | nil => rfl
  | cons first rest ih => exact congrArg (List.cons _) (ih (first.make cursor).2)

theorem after_finished (steps : List Step) (tokens : List Token) (pos : Position) :
    ∃ left, after steps ⟨tokens, .finished pos⟩ = ⟨left, .finished pos⟩ := by
  induction steps generalizing tokens with
  | nil => exact ⟨tokens, rfl⟩
  | cons step rest ih =>
    unfold after
    rw [make_finished]
    exact ih (behind step tokens)

/-! ### The tokens that are taken -/

/-- That tokens are taken from others in order, some comments left out, and then the last one again and
again. -/
inductive Picks (last : Token) : List Token → List Token → Prop
  | stop (tokens : List Token) : Picks last tokens []
  | take {token : Token} {tokens picked : List Token} (rest : Picks last tokens picked) :
      Picks last (token :: tokens) (token :: picked)
  | pass {token : Token} {tokens picked : List Token} (comment : token.kind = .comment)
      (rest : Picks last tokens picked) : Picks last (token :: tokens) picked
  | again {picked : List Token} (rest : Picks last [] picked) : Picks last [] (last :: picked)

namespace Picks

variable {picked : List Token}

theorem behind_comments (h : Picks last (tokens.dropWhile (·.kind = .comment)) picked) :
    Picks last tokens picked := by
  induction tokens with
  | nil => exact h
  | cons token rest ih =>
    by_cases hkind : token.kind = .comment
    · rw [List.dropWhile_cons_of_pos (by simpa using hkind)] at h
      exact .pass hkind (ih h)
    · rwa [List.dropWhile_cons_of_neg (by simpa using hkind)] at h

theorem of_ahead (raw : Bool) (h : Picks last (ahead raw tokens) picked) :
    Picks last tokens picked := by
  cases raw with
  | true => exact h
  | false => exact h.behind_comments

theorem head_tail (h : Picks last tokens.tail picked) :
    Picks last tokens (tokens.headD last :: picked) := by
  cases tokens with
  | nil => exact .again h
  | cons token rest => exact .take h

theorem eq_replicate (h : Picks last [] picked) : picked = List.replicate picked.length last := by
  generalize hnil : ([] : List Token) = tokens at h
  induction h with
  | stop _ => rfl
  | take _ _ => cases hnil
  | pass _ _ _ => cases hnil
  | again _ ih => rw [List.length_cons, List.replicate_succ, ← ih hnil]

/-- What is picked are the tokens up to some place, without some of the comments, and the last one again
and again only if they have all been read. -/
theorem exists_read (h : Picks last tokens picked) : ∃ read kept ends,
    picked = kept ++ List.replicate ends last ∧ read <+: tokens ++ [last] ∧ kept.Sublist read ∧
      kept.filter (·.kind ≠ .comment) = read.filter (·.kind ≠ .comment) ∧
      (0 < ends → read = tokens ++ [last]) := by
  induction h with
  | stop tokens => exact ⟨[], [], 0, rfl, List.nil_prefix, List.Sublist.slnil, rfl, nofun⟩
  | @take token tokens picked _ ih =>
    obtain ⟨read, kept, ends, rfl, hread, hkept, hfilter, hends⟩ := ih
    refine ⟨token :: read, token :: kept, ends, rfl, ?_, hkept.cons_cons token, ?_, ?_⟩
    · exact List.cons_prefix_cons.2 ⟨rfl, hread⟩
    · rw [List.filter_cons, List.filter_cons, hfilter]
    · exact fun hpositive => congrArg (List.cons token) (hends hpositive)
  | @pass token tokens picked comment _ ih =>
    obtain ⟨read, kept, ends, rfl, hread, hkept, hfilter, hends⟩ := ih
    refine ⟨token :: read, kept, ends, rfl, ?_, hkept.cons token, ?_, ?_⟩
    · exact List.cons_prefix_cons.2 ⟨rfl, hread⟩
    · rw [hfilter, List.filter_cons_of_neg (by simpa using comment)]
    · exact fun hpositive => congrArg (List.cons token) (hends hpositive)
  | @again picked rest _ =>
    refine ⟨[last], [last], picked.length, ?_, List.prefix_rfl, List.Sublist.refl _, rfl, fun _ => rfl⟩
    exact congrArg (List.cons last) rest.eq_replicate

end Picks

theorem picks_taken (steps : List Step) (tokens : List Token) (pos : Position) :
    Picks (TokenStream.endToken pos) tokens (taken steps ⟨tokens, .finished pos⟩) := by
  induction steps generalizing tokens with
  | nil => exact .stop tokens
  | cons step rest ih =>
    unfold taken
    rw [make_finished]
    have hrest := ih (behind step tokens)
    unfold behind at hrest ⊢
    apply Picks.of_ahead step.raw
    cases htakes : step.takes with
    | true =>
      rw [htakes] at hrest
      exact hrest.head_tail
    | false =>
      rw [htakes] at hrest
      exact hrest

theorem length_taken (steps : List Step) (tokens : List Token) (pos : Position) :
    (taken steps ⟨tokens, .finished pos⟩).length = steps.countP (·.takes) := by
  induction steps generalizing tokens with
  | nil => rfl
  | cons step rest ih =>
    unfold taken
    rw [make_finished, List.length_append, ih, List.countP_cons]
    cases step.takes with
    | true => exact Nat.add_comm _ _
    | false => exact Nat.zero_add _

/-! ### Drawing tokens ahead -/

/-- A reader that draws tokens one at a time: those that are still to come, those drawn ahead, and the end
token once it was drawn. -/
structure Lookahead where
  coming : List Token
  buffer : List Token := []
  last : Option Token := none

namespace Lookahead

/-- The token that a step finds, with the reader that has it in its buffer. There is none if the tokens ran
out before an end. -/
def find (raw : Bool) (reader : Lookahead) : Option (Token × Lookahead) :=
  match reader with
  | ⟨coming, token :: buffer, last⟩ =>
    if raw || token.kind ≠ .comment then some (token, ⟨coming, token :: buffer, last⟩)
    else find raw ⟨coming, buffer, last⟩
  | ⟨coming, [], some last⟩ => some (last, ⟨coming, [last], some last⟩)
  | ⟨token :: coming, [], none⟩ =>
    find raw ⟨coming, [token], if token.kind = .endOfInput then some token else none⟩
  | ⟨[], [], none⟩ => none
termination_by 2 * reader.coming.length + reader.buffer.length

/-- Makes a step. -/
def make (step : Step) (reader : Lookahead) : Option (Token × Lookahead) :=
  (reader.find step.raw).map fun (token, found) =>
    (token, if step.takes then { found with buffer := found.buffer.tail } else found)

/-- The answers to steps that are made one after another. -/
def answers : List Step → Lookahead → List (Option Token)
  | [], _ => []
  | step :: rest, reader =>
    match reader.make step with
    | some (token, next) => some token :: answers rest next
    | none => none :: answers rest reader

/-- The reader that has drawn the first of some tokens before an end. -/
def showing (last : Token) : List Token → Lookahead
  | [] => ⟨[], [last], some last⟩
  | token :: rest => ⟨rest ++ [last], [token], none⟩

/-- That a reader stands where some tokens are left before an end. -/
inductive Stands (last : Token) : List Token → Lookahead → Prop
  | shown (tokens : List Token) : Stands last tokens (showing last tokens)
  | drawn (tokens : List Token) : Stands last tokens ⟨tokens ++ [last], [], none⟩
  | ended : Stands last [] ⟨[], [], some last⟩

variable {reader : Lookahead}

theorem Stands.tail (last : Token) (tokens : List Token) : Stands last tokens.tail
    { showing last tokens with buffer := (showing last tokens).buffer.tail } := by
  cases tokens with
  | nil => exact .ended
  | cons token rest => exact .drawn rest

section

variable (hlast : last.kind = .endOfInput)

include hlast

theorem find_end (raw : Bool) :
    find raw ⟨[], [last], some last⟩ = some (last, ⟨[], [last], some last⟩) := by
  rw [find, if_pos (by simp [hlast])]

variable (hends : ∀ token ∈ tokens, token.kind ≠ .endOfInput)

include hends

theorem Stands.find_eq (h : Stands last tokens reader) (raw : Bool) :
    find raw reader = find raw (showing last tokens) := by
  cases h with
  | shown tokens => rfl
  | drawn tokens =>
    cases tokens with
    | nil =>
      rw [List.nil_append, find, if_pos hlast]
      rfl
    | cons token rest =>
      rw [List.cons_append, find, if_neg (hends token List.mem_cons_self)]
      rfl
  | ended =>
    rw [find]
    exact (find_end hlast raw).symm

theorem find_showing (raw : Bool) : find raw (showing last tokens)
    = some ((ahead raw tokens).headD last, showing last (ahead raw tokens)) := by
  induction tokens with
  | nil => cases raw <;> exact find_end hlast _
  | cons token rest ih =>
    have hrest : ∀ token ∈ rest, token.kind ≠ .endOfInput :=
      fun other hother => hends other (List.mem_cons_of_mem _ hother)
    change find raw ⟨rest ++ [last], [token], none⟩ = _
    rw [find]
    cases raw with
    | true => rfl
    | false =>
      by_cases hkind : token.kind = .comment
      · have hahead : ahead false (token :: rest) = ahead false rest := by simp [ahead, hkind]
        rw [if_neg (by simp [hkind]), (Stands.drawn rest).find_eq hlast hrest, ih hrest, hahead]
      · have hahead : ahead false (token :: rest) = token :: rest := by simp [ahead, hkind]
        rw [if_pos (by simp [hkind]), hahead]
        rfl

/-- A reader makes the step that the cursor makes, and stands where the cursor stands. -/
theorem Stands.make (h : Stands last tokens reader) (step : Step) :
    ∃ next, reader.make step = some ((ahead step.raw tokens).headD last, next) ∧
      Stands last (behind step tokens) next := by
  have hfind := (h.find_eq hlast hends step.raw).trans (find_showing hlast hends step.raw)
  unfold Lookahead.make behind
  rw [hfind]
  cases step.takes with
  | true => exact ⟨_, rfl, .tail last _⟩
  | false => exact ⟨_, rfl, .shown _⟩

end

theorem Stands.answers_eq (h : Stands (TokenStream.endToken pos) tokens reader)
    (hends : ∀ token ∈ tokens, token.kind ≠ .endOfInput) (steps : List Step) :
    reader.answers steps = (Cursor.answers steps ⟨tokens, .finished pos⟩).map Except.toOption := by
  induction steps generalizing tokens reader with
  | nil => rfl
  | cons step rest ih =>
    obtain ⟨next, hmake, hnext⟩ := h.make rfl hends step
    unfold Lookahead.answers Cursor.answers
    rw [hmake, make_finished, List.map_cons]
    have hleft : ∀ token ∈ behind step tokens, token.kind ≠ .endOfInput :=
      fun token htoken => hends token ((behind_suffix step tokens).mem htoken)
    exact congrArg (List.cons _) (ih hnext hleft)

end Lookahead

/-! ### Runs -/

theorem answers_look (front : List Step) (raw : Bool) (tokens : List Token) (pos : Position) :
    answers (front ++ [⟨false, raw⟩]) ⟨tokens, .finished pos⟩
      = answers (front ++ [⟨true, raw⟩]) ⟨tokens, .finished pos⟩ := by
  obtain ⟨left, hafter⟩ := after_finished front tokens pos
  rw [answers_append_singleton, answers_append_singleton, hafter, make_finished, make_finished]

theorem answers_ok (steps : List Step) (tokens : List Token) (pos : Position) :
    ∀ answer ∈ answers steps ⟨tokens, .finished pos⟩,
      ∃ token ∈ tokens ++ [TokenStream.endToken pos], answer = .ok token := by
  induction steps generalizing tokens with
  | nil => exact nofun
  | cons step rest ih =>
    have hahead := ahead_suffix step.raw tokens
    have hbehind := behind_suffix step tokens
    unfold answers
    rw [make_finished]
    refine List.forall_mem_cons.2 ⟨⟨_, ?_, rfl⟩, fun answer hanswer => ?_⟩
    · rw [List.mem_append]
      generalize ahead step.raw tokens = left at hahead ⊢
      cases left with
      | nil => exact .inr List.mem_cons_self
      | cons token more => exact .inl (hahead.mem List.mem_cons_self)
    · obtain ⟨token, htoken, hok⟩ := ih _ answer hanswer
      refine ⟨token, ?_, hok⟩
      rw [List.mem_append] at htoken ⊢
      exact htoken.imp_left hbehind.mem

/-- That steps of a cursor over some tokens with an end lose nothing but comments. -/
structure KeepsTokens (tokens : List Token) (pos : Position) (steps : List Step) : Prop where
  /-- Every step finds a token. -/
  answered : ∀ answer ∈ answers steps ⟨tokens, .finished pos⟩,
    ∃ token ∈ tokens ++ [TokenStream.endToken pos], answer = .ok token
  counted : (taken steps ⟨tokens, .finished pos⟩).length = steps.countP (·.takes)
  /-- What is taken are the tokens up to some place, in order, without some of the comments and with
  everything else; and behind the end the end token again. -/
  ordered : ∃ read kept ends,
    taken steps ⟨tokens, .finished pos⟩ = kept ++ List.replicate ends (TokenStream.endToken pos) ∧
      read <+: tokens ++ [TokenStream.endToken pos] ∧ kept.Sublist read ∧
      kept.filter (·.kind ≠ .comment) = read.filter (·.kind ≠ .comment) ∧
      (0 < ends → read = tokens ++ [TokenStream.endToken pos])
  /-- A step that only looks is answered as one of the same mode that takes in its place. -/
  looks : ∀ raw, answers (steps ++ [⟨false, raw⟩]) ⟨tokens, .finished pos⟩
    = answers (steps ++ [⟨true, raw⟩]) ⟨tokens, .finished pos⟩
  /-- A reader that draws the tokens one at a time gives the same answers. -/
  drawn : Lookahead.answers steps ⟨tokens ++ [TokenStream.endToken pos], [], none⟩
    = (answers steps ⟨tokens, .finished pos⟩).map Except.toOption

/-- A cursor over tokens with one end token behind them loses nothing but comments, whatever steps are
made. -/
theorem steps_keep_tokens {tokens : List Token} (hends : ∀ token ∈ tokens, token.kind ≠ .endOfInput)
    (pos : Position) (steps : List Step) : KeepsTokens tokens pos steps where
  answered := answers_ok steps tokens pos
  counted := length_taken steps tokens pos
  ordered := (picks_taken steps tokens pos).exists_read
  looks raw := answers_look steps raw tokens pos
  drawn := (Lookahead.Stands.drawn tokens).answers_eq hends steps

/-- A word, two comments and another word. -/
def remarked : List Token :=
  [⟨.word, "a", ⟨1, 1⟩⟩, ⟨.comment, "//b", ⟨1, 3⟩⟩, ⟨.comment, "//c", ⟨2, 1⟩⟩, ⟨.word, "d", ⟨3, 1⟩⟩]

/-- The first comment is looked at and taken, the second one is passed over by looking, and the end token
is taken twice. -/
theorem steps_keep_tokens_remarked :
    let steps : List Step := [⟨true, false⟩, ⟨false, true⟩, ⟨true, true⟩, ⟨false, false⟩, ⟨true, true⟩,
      ⟨true, true⟩, ⟨false, false⟩, ⟨true, false⟩]
    (∀ token ∈ remarked, token.kind ≠ .endOfInput) ∧ KeepsTokens remarked ⟨3, 2⟩ steps ∧
      (taken steps ⟨remarked, .finished ⟨3, 2⟩⟩).map (·.text) = ["a", "//b", "d", "", ""] := by
  intro steps
  have hends : ∀ token ∈ remarked, token.kind ≠ .endOfInput := by decide
  exact ⟨hends, steps_keep_tokens hends ⟨3, 2⟩ steps, by decide⟩

end BinarySchema.Cursor
