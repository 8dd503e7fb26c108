import BinarySchema.Command
import BinarySchema.Token.Scan

/-!
# The tokens command

Prints the tokens of a source, one on each line and the end of the source among them. A fault in the
source ends the list.
-/

namespace BinarySchema.Command

def printTokens (text : String) : Output :=
  let (tokens, error?) := (TokenStream.scan text).complete
  let stdout := String.join (tokens.map fun token => token.print ++ "\n")
  match error? with
  | none => { stdout }
  | some error => .broken (.lexical error) stdout

/-- Prints the tokens of the file that the first argument names, or else of the standard input. -/
def tokens (fs : FileSystem) (standardInput : String) (arguments : List String) : Output :=
  match arguments with
  | [] => printTokens standardInput
  | name :: _ =>
    match fs.readText name with
    | .ok text => printTokens text
    | .error error => .broken (.file error)

end BinarySchema.Command
