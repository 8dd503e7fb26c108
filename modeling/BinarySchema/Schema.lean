import BinarySchema.Schema.Declaration

/-!
# Schemas

A schema is compiled from its source and the sources that it includes. The definitions of all of
them go into one type table; the schema block of the outermost source is the root that decoding
starts from, and those of included sources are checked and dropped. A source is included once:
later mentions of it add nothing, and one inside the source itself is an error.

Names of included sources are relative to the directory of the source that mentions them.
-/

namespace BinarySchema

structure Schema where
  types : TypeTable
  root : Option (List Node) := none
  source : Option String := none
  deriving Repr

/-- A schema while it is being read, with the paths of all sources met so far. -/
structure Draft where
  types : TypeTable := {}
  root : Option (List Node) := none
  included : List Path := []
  deriving Repr

/-- Where a source stands: the directory that its includes are relative to, the paths of the
sources being read, and whether it is the outermost one. -/
structure Standing where
  directory : Path
  active : List Path
  outermost : Bool
  deriving Repr

namespace Draft

/-- An include directive: the token that names the source, and the name. -/
def includeDirective : Reader (Token × String) := do
  let token ← Reader.next
  let name ←
    match token.kind with
    | .string => pure (String.ofList (token.text.toList.drop 1).dropLast)
    | .word => pure token.text
    | _ => Reader.unexpected "include path" token
  let _ ← Reader.expectPunctuation ";"
  return (token, name)

/-- What an include directive asks for: nothing new, or the text of a file. -/
def includeTarget (fs : FileSystem) (standing : Standing) (draft : Draft) (token : Token)
    (name : String) : Except CompileError (Option (Path × String)) := do
  let path := Path.resolve standing.directory name
  let shown := path.text
  if name.toList.contains '\x00' || path.text.toList.contains '\x00' then throw .nulInPath
  if standing.active.contains path then throw (.circularInclude name shown token.pos)
  if draft.included.contains path then return none
  match ← (fs.contentAt path).mapError .inaccessible with
  | none => throw (.missingInclude shown token.pos)
  | some content =>
    match textOfContent content with
    | .ok text => return some (path, text)
    | .error reason => throw (.unreadableInclude shown reason token.pos)

/-- The declarations of one source, up to its end. `enter` reads an included source. -/
def declarations (fs : FileSystem)
    (enter : Standing → Cursor → Draft → Except CompileError Draft) (standing : Standing) :
    (steps : Nat) → Draft → StateT Cursor (Except CompileError) Draft
  | 0, draft => return draft
  | steps + 1, draft => do
    let keyword ← Reader.next
    if keyword.kind = .endOfInput then return draft
    let after ←
      if keyword.isWord "include" then do
        let (token, name) ← includeDirective
        match ← includeTarget fs standing draft token name with
        | none => pure draft
        | some (path, text) =>
          let inner : Standing := ⟨path.parent, path :: standing.active, false⟩
          enter inner (.scan text) { draft with included := path :: draft.included }
      else if keyword.isWord "struct" then
        pure { draft with types := ← Reader.structDeclaration draft.types }
      else if keyword.isWord "enum" then
        pure { draft with types := ← Reader.enumDeclaration draft.types }
      else if keyword.isWord "bitfield" then
        pure { draft with types := ← Reader.bitfieldDeclaration draft.types }
      else if keyword.isWord "schema" then do
        let root ← Reader.body draft.types
        if !standing.outermost then pure draft
        else if draft.root.isSome then throw (.secondRoot keyword)
        else pure { draft with root := some root }
      else Reader.unexpected "[include, struct, enum, bitfield, schema]" keyword
    declarations fs enter standing steps after

/-- Reads a source and everything that it includes. Each level of inclusion has a path of its own,
so the number of files bounds the levels. -/
def read (fs : FileSystem) :
    (levels : Nat) → Standing → Cursor → Draft → Except CompileError Draft
  | 0, _, _, draft => .ok draft
  | levels + 1, standing, cursor, draft =>
    (declarations fs (read fs levels) standing (cursor.tokens.length + 1) draft cursor).map Prod.fst

/-- The schema of a source that is wholly read. -/
def finish (draft : Draft) (source : Option String) : Schema :=
  ⟨draft.types.freeze, draft.root, source⟩

end Draft

inductive SchemaFileError where
  | file (error : TextFileError)
  | compile (error : CompileError)
  deriving DecidableEq, Repr

namespace Schema

/-- Compiles a source text. Its includes are relative to `directory`, or else to the working
directory. -/
def compile (fs : FileSystem) (text : String) (directory : Option String := none) :
    Except CompileError Schema := do
  let base := match directory with
    | some name => Path.resolve fs.workingDirectory name
    | none => fs.workingDirectory
  let draft ← Draft.read fs (fs.files.length + 1) ⟨base, [], true⟩ (.scan text) {}
  return draft.finish none

/-- Compiles the source in a file; its includes are relative to the file's directory. -/
def compileFile (fs : FileSystem) (name : String) : Except SchemaFileError Schema := do
  let name := shortName name
  let text ← (fs.readText name).mapError .file
  let path := Path.resolve fs.workingDirectory name
  let standing : Standing := ⟨path.parent, [path], true⟩
  let draft ← (Draft.read fs (fs.files.length + 1) standing (.scan text)
    { included := [path] }).mapError .compile
  return draft.finish (some name)

/-- The printed form: the declared names, the number of nodes of the root, and the source. -/
def print (schema : Schema) : String :=
  let names := ", ".intercalate (schema.types.names.map Text.quoted)
  let source := match schema.source with
    | some name => Text.quoted name
    | none => "None"
  s!"Schema(types=[{names}], fields={(schema.root.getD []).length}, source={source})"

end Schema

namespace SchemaFileError

/-- Whether the error is a finding about a file or a source. -/
def isFinding : SchemaFileError → Bool
  | .file (.file error) => error.isAboutFile
  | .file (.encoding _) => false
  | .compile error => error.isAboutSource

def message : SchemaFileError → String
  | .file error => error.message
  | .compile error => error.message

end SchemaFileError

end BinarySchema
