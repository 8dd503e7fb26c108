/-!
# Splitting text

Text between separators. A text with `n` separators has `n + 1` pieces.
-/

namespace BinarySchema.Text

/-- The pieces of a text between the separators. -/
def splitOn (separator : Char) : List Char → List (List Char)
  | [] => [[]]
  | c :: rest =>
    if c = separator then [] :: splitOn separator rest
    else match splitOn separator rest with
      | piece :: more => (c :: piece) :: more
      | [] => [[c]]

theorem splitOn_ne_nil (separator : Char) (chars : List Char) : splitOn separator chars ≠ [] := by
  cases chars with
  | nil => simp [splitOn]
  | cons c rest =>
    unfold splitOn
    split
    · simp
    · split <;> simp

def pieces (separator : Char) (text : String) : List String :=
  (splitOn separator text.toList).map String.ofList

end BinarySchema.Text
