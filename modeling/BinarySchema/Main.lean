import BinarySchema.Command.Decode
import BinarySchema.Command.Demo
import BinarySchema.Command.Tokens
import BinarySchema.Command.Validate
import BinarySchema.Datum.Yaml.Library

/-!
# The program

Runs a command on the files of the machine. The files that a command may read are gathered first:
those its arguments name, and those that their texts include. A directory that none of them lies in
counts as missing.
-/

namespace BinarySchema.Program

def includedNames : List Token → List String
  | keyword :: name :: rest =>
    let more := includedNames (name :: rest)
    if keyword.isWord "include" then
      match name.kind with
      | .string => String.ofList (name.text.toList.drop 1).dropLast :: more
      | .word => name.text :: more
      | _ => more
    else more
  | _ => []

/-- The paths that the text of a file includes. -/
def includes (path : Path) (content : List UInt8) : List Path :=
  match textOfContent content with
  | .ok text => (includedNames (TokenStream.scan text).tokens).map (Path.resolve path.parent)
  | .error _ => []

def content? (path : Path) : IO (Option (List UInt8)) := do
  try return some (← IO.FS.readBinFile path.text).toList
  catch _ => return none

/-- The files at some paths, and all that they include. -/
partial def gather (known : List (Path × List UInt8)) : List Path → IO (List (Path × List UInt8))
  | [] => return known
  | path :: rest => do
    if known.any (·.1 = path) then gather known rest
    else match ← content? path with
      | none => gather known rest
      | some content => gather ((path, content) :: known) (includes path content ++ rest)

/-- The names of files that arguments may hold: the arguments, and the values attached to flags. -/
def fileNames (arguments : List String) : List String :=
  arguments.flatMap fun argument => argument :: (Command.splitAttached argument.toList).2.toList

def fileSystem (arguments : List String) : IO FileSystem := do
  let workingDirectory := Path.resolve [] (← IO.currentDir).toString
  let files ← gather [] ((fileNames arguments).map (Path.resolve workingDirectory))
  return { files, workingDirectory }

partial def readAll (stream : IO.FS.Stream) (text : String) : IO String := do
  let line ← stream.getLine
  if line.isEmpty then return text else readAll stream (text ++ line)

def run (arguments : List String) : IO Output := do
  match arguments with
  | "decode" :: rest => return Command.decode (.ofFiles (← fileSystem rest)) rest
  | "validate" :: rest => return Command.validate (.ofFiles (← fileSystem rest)) rest
  | "tokens" :: [] => return Command.tokens {} (← readAll (← IO.getStdin) "") []
  | "tokens" :: rest => return Command.tokens (← fileSystem rest) "" rest
  | ["demo"] => return Command.demo
  | _ => return .ofRefusal "decode|validate|tokens|demo ..." .usage

end BinarySchema.Program

open BinarySchema in
def main (arguments : List String) : IO UInt32 := do
  let output ← Program.run arguments
  (← IO.getStdout).putStr output.stdout
  let stderr ← IO.getStderr
  stderr.putStr output.stderr
  if let some fault := output.breakdown then stderr.putStrLn fault.message
  return output.status.toUInt32
