import BinarySchema.Schema.Reader

/-!
# Cursors and comments

A cursor has comments in front, and behind them either a token that is none or the end of its tokens.
The plain steps go by that: they take or show the token, or what the end has for them, wherever the
cursor stands and however many comments there are.
-/

namespace BinarySchema

/-- That all tokens are comments. -/
def Remarks (tokens : List Token) : Prop :=
  ∀ token ∈ tokens, token.kind = .comment

def Ending.outcome : Ending → Except CompileError Position
  | .finished pos => .ok pos
  | .fault error => .error (.lexical error)
  | .spent => .error .spent

namespace Cursor

/-- The comments in front of a cursor, and what stands behind them. -/
theorem exists_remarks (tokens : List Token) : ∃ comments, Remarks comments ∧
    (tokens = comments ∨
      ∃ token rest, token.kind ≠ .comment ∧ tokens = comments ++ token :: rest) := by
  induction tokens with
  | nil => exact ⟨[], nofun, .inl rfl⟩
  | cons token rest ih =>
    by_cases hkind : token.kind = .comment
    · obtain ⟨comments, hcomments, hrest⟩ := ih
      refine ⟨token :: comments, List.forall_mem_cons.2 ⟨hkind, hcomments⟩, ?_⟩
      rcases hrest with rfl | ⟨head, tail, hhead, rfl⟩
      · exact .inl rfl
      · exact .inr ⟨head, tail, hhead, rfl⟩
    · exact ⟨[], nofun, .inr ⟨token, rest, hkind, rfl⟩⟩

variable {comments rest : List Token} {token : Token} {ending : Ending}

theorem skipComments_remarks (h : Remarks comments) :
    skipComments ⟨comments, ending⟩ = ⟨[], ending⟩ := by
  unfold skipComments
  have hdrop : (comments ++ [] : List Token).dropWhile (·.kind = .comment) = [] :=
    List.dropWhile_append_of_pos fun token hmem => by simp [h token hmem]
  rw [List.append_nil] at hdrop
  simp only [hdrop]

theorem skipComments_token (h : Remarks comments) (htoken : token.kind ≠ .comment) :
    skipComments ⟨comments ++ token :: rest, ending⟩ = ⟨token :: rest, ending⟩ := by
  unfold skipComments
  have hdrop : (comments ++ token :: rest).dropWhile (·.kind = .comment) = token :: rest := by
    rw [List.dropWhile_append_of_pos fun token hmem => by simp [h token hmem],
      List.dropWhile_cons_of_neg (by simpa using htoken)]
  simp only [hdrop]

end Cursor

namespace Reader

variable {comments rest : List Token} {token : Token} {ending : Ending}

theorem peekRaw_end (ending : Ending) :
    peekRaw ⟨[], ending⟩ = ending.outcome.map fun pos => (TokenStream.endToken pos, ⟨[], ending⟩) := by
  cases ending <;> rfl

theorem next_end (h : Remarks comments) : next ⟨comments, ending⟩
    = ending.outcome.map fun pos => (TokenStream.endToken pos, ⟨[], ending⟩) := by
  unfold next ofStep Cursor.next
  rw [Cursor.skipComments_remarks h]
  exact peekRaw_end ending

theorem peek_end (h : Remarks comments) : peek ⟨comments, ending⟩
    = ending.outcome.map fun pos => (TokenStream.endToken pos, ⟨[], ending⟩) := by
  unfold peek ofStep Cursor.peek
  rw [Cursor.skipComments_remarks h]
  exact peekRaw_end ending

theorem next_token (h : Remarks comments) (htoken : token.kind ≠ .comment) :
    next ⟨comments ++ token :: rest, ending⟩ = .ok (token, ⟨rest, ending⟩) := by
  unfold next ofStep Cursor.next
  rw [Cursor.skipComments_token h htoken]
  rfl

theorem next_cons (htoken : token.kind ≠ .comment) :
    next ⟨token :: rest, ending⟩ = .ok (token, ⟨rest, ending⟩) :=
  next_token (List.forall_mem_nil _) htoken

theorem peek_token (h : Remarks comments) (htoken : token.kind ≠ .comment) :
    peek ⟨comments ++ token :: rest, ending⟩ = .ok (token, ⟨token :: rest, ending⟩) := by
  unfold peek ofStep Cursor.peek
  rw [Cursor.skipComments_token h htoken]
  rfl

theorem documentation_nil (ending : Ending) : documentation ⟨[], ending⟩
    = ending.outcome.map fun _ => (none, ⟨[], ending⟩) := by
  cases ending <;> rfl

theorem documentation_token (htoken : token.kind ≠ .comment) :
    documentation ⟨token :: rest, ending⟩ = .ok (none, ⟨token :: rest, ending⟩) := by
  change (if token.kind = .comment then _ else _ : Reader _) ⟨token :: rest, ending⟩ = _
  rw [if_neg htoken]
  rfl

theorem documentation_comment (htoken : token.kind = .comment) :
    documentation ⟨token :: rest, ending⟩ = .ok (some token.commentText, ⟨rest, ending⟩) := by
  change (if token.kind = .comment then _ else _ : Reader _) ⟨token :: rest, ending⟩ = _
  rw [if_pos htoken]
  rfl

end Reader

end BinarySchema
