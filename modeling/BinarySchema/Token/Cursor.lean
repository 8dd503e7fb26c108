import BinarySchema.Token.Scan

/-!
# Token cursors

Reading tokens one at a time with one token of lookahead. The plain steps pass over comments, the
raw ones do not. The end token can be read any number of times; a lexical error is met once, and
then nothing is left.
-/

namespace BinarySchema

/-- Why a cursor has no next token. -/
inductive CursorError where
  | lexical (error : LexicalError)
  | spent
  deriving DecidableEq, Repr

/-- The tokens still to be read. -/
abbrev Cursor := TokenStream

namespace Cursor

/-- The token that a raw step would read. -/
def peekRaw (cursor : Cursor) : Except CursorError Token × Cursor :=
  match cursor.tokens with
  | token :: _ => (.ok token, cursor)
  | [] =>
    match cursor.ending with
    | .finished pos => (.ok (TokenStream.endToken pos), cursor)
    | .fault error => (.error (.lexical error), ⟨[], .spent⟩)
    | .spent => (.error .spent, cursor)

def nextRaw (cursor : Cursor) : Except CursorError Token × Cursor :=
  match cursor.tokens with
  | token :: rest => (.ok token, ⟨rest, cursor.ending⟩)
  | [] => peekRaw cursor

/-- The cursor without the comments at its head. -/
def skipComments (cursor : Cursor) : Cursor :=
  { cursor with tokens := cursor.tokens.dropWhile (·.kind = .comment) }

/-- The token that a step would read; the comments before it are passed over for good. -/
def peek (cursor : Cursor) : Except CursorError Token × Cursor :=
  peekRaw cursor.skipComments

def next (cursor : Cursor) : Except CursorError Token × Cursor :=
  nextRaw cursor.skipComments

end Cursor

end BinarySchema
