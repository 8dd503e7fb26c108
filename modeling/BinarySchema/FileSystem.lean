import BinarySchema.Text.Encoding
import BinarySchema.Text.Quoted
import BinarySchema.Text.Split

/-!
# File systems

A finite set of files on a machine. Directories are the places on the way to a file or to the working
directory. A name is followed step by step when a file is read, so what it passes through must exist;
it can also be brought to an absolute path by its text alone.
-/

namespace BinarySchema

/-- An absolute path, the outermost name first. -/
abbrev Path := List String

namespace Path

def text (path : Path) : String :=
  "/" ++ "/".intercalate path

/-- The directory that holds a path; the root holds itself. -/
def parent (path : Path) : Path :=
  path.dropLast

/-- One step of a name: empty and single-point parts stay, a double point goes up. -/
def step (path : Path) (part : String) : Path :=
  if part = "" ∨ part = "." then path
  else if part = ".." then path.parent
  else path ++ [part]

/-- The absolute path of a name, by its text alone. A name that begins at the root forgets the
directory. -/
def resolve (directory : Path) (name : String) : Path :=
  ((if name.startsWith "/" then [] else directory) ++ Text.pieces '/' name).foldl step []

end Path

structure FileSystem where
  files : List (Path × List UInt8) := []
  workingDirectory : Path := []
  deriving Repr

inductive FileFault where
  | notFound
  | isDirectory
  | notDirectory
  | nameTooLong
  | nulInName
  deriving DecidableEq, Repr

/-- Why the file of a name cannot be read. -/
structure FileError where
  fault : FileFault
  name : String
  deriving DecidableEq, Repr

def FileError.message (error : FileError) : String :=
  match error.fault with
  | .notFound => s!"[Errno 2] No such file or directory: {Text.quoted error.name}"
  | .isDirectory => s!"[Errno 21] Is a directory: {Text.quoted error.name}"
  | .notDirectory => s!"[Errno 20] Not a directory: {Text.quoted error.name}"
  | .nameTooLong => s!"[Errno 36] File name too long: {Text.quoted error.name}"
  | .nulInName => "embedded null byte"

def FileError.isAboutFile (error : FileError) : Bool :=
  error.fault ≠ .nulInName

/-- A name in its shortest spelling: without empty and single-point parts, though two slashes at
the front are kept as they are. The empty name is the single point. -/
def shortName (name : String) : String :=
  let parts := (Text.pieces '/' name).filter fun part => part ≠ "" && part ≠ "."
  let root :=
    if name.startsWith "//" && !name.startsWith "///" then "//"
    else if name.startsWith "/" then "/" else ""
  let short := root ++ "/".intercalate parts
  if short = "" then "." else short

namespace FileSystem

def file? (fs : FileSystem) (path : Path) : Option (List UInt8) :=
  (fs.files.find? (·.1 = path)).map Prod.snd

def isDirectory (fs : FileSystem) (path : Path) : Bool :=
  path.isPrefixOf fs.workingDirectory ||
    fs.files.any fun file => path.isPrefixOf file.1 && path ≠ file.1

/-- The most bytes that one part of a name may have. -/
def longestPart : Nat := 255

/-- The most bytes that a name may have. -/
def longestName : Nat := 4095

/-- Follows the parts of a name from a place that exists. -/
def walk (fs : FileSystem) : Path → List String → Except FileFault (List UInt8)
  | place, [] =>
    if fs.isDirectory place then .error .isDirectory
    else match fs.file? place with
      | some content => .ok content
      | none => .error .notFound
  | place, part :: parts =>
    if !fs.isDirectory place then .error .notDirectory
    else if longestPart < part.utf8ByteSize then .error .nameTooLong
    else
      let next := place.step part
      if fs.isDirectory next || (fs.file? next).isSome then fs.walk next parts
      else .error .notFound

/-- The content of the file with a name relative to the working directory. -/
def read (fs : FileSystem) (name : String) : Except FileError (List UInt8) :=
  if name.toList.contains '\x00' then .error ⟨.nulInName, name⟩
  else if name = "" then .error ⟨.notFound, name⟩
  else if longestName < name.utf8ByteSize then .error ⟨.nameTooLong, name⟩
  else
    let start := if name.startsWith "/" then [] else fs.workingDirectory
    match fs.walk start (Text.pieces '/' name) with
    | .ok content => .ok content
    | .error fault => .error ⟨fault, name⟩

/-- The content of the file at a path; none if there is no file. -/
def contentAt (fs : FileSystem) (path : Path) : Except FileError (Option (List UInt8)) :=
  let tooLong : FileError := ⟨.nameTooLong, path.text⟩
  if longestName < path.text.utf8ByteSize then .error tooLong
  else match fs.walk [] path with
    | .ok content => .ok (some content)
    | .error .nameTooLong => .error tooLong
    | .error _ => .ok none

end FileSystem

/-- Writes every line end as one line feed. -/
def universalNewlines : List Char → List Char
  | [] => []
  | '\r' :: '\n' :: rest => '\n' :: universalNewlines rest
  | '\r' :: rest => '\n' :: universalNewlines rest
  | c :: rest => c :: universalNewlines rest

def textOfContent (content : List UInt8) (byParts : Bool := false) : Except String String :=
  (Text.Utf8.read content byParts).map fun chars => String.ofList (universalNewlines chars)

inductive TextFileError where
  | file (error : FileError)
  | encoding (reason : String)
  deriving DecidableEq, Repr

def TextFileError.message : TextFileError → String
  | .file error => error.message
  | .encoding reason => reason

def FileSystem.readText (fs : FileSystem) (name : String) (byParts : Bool := false) :
    Except TextFileError String := do
  let content ← (fs.read name).mapError .file
  (textOfContent content byParts).mapError .encoding

end BinarySchema
