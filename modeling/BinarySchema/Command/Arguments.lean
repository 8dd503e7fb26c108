import BinarySchema.Text.DecimalDigit
import BinarySchema.Text.Split

/-!
# Command line arguments

Arguments are flags, the values of flags, and values that stand by themselves. A long flag may be
cut short as long as it stays the only one, a value may be attached to it with an equals sign, and
short flags without values may share one hyphen. Negative numbers are values, and so is everything
behind a double hyphen. Values fill the places of the command in order, as many at a time as stand
between two flags. A double hyphen that is itself given as a value is taken for one that separates,
and gives no value.
-/

namespace BinarySchema.Command

/-- A flag under its names, the main one last. Without `accepts` it takes no value. -/
structure Flag where
  names : List String
  accepts : Option (String → Bool) := none

namespace Flag

def name (flag : Flag) : String :=
  flag.names.getLastD ""

def help : Flag := ⟨["-h", "--help"], none⟩

/-- A flag with one of some values. -/
def choice (name : String) (choices : List String) : Flag :=
  ⟨[name], some choices.contains⟩

/-- A flag with any value. -/
def free (name : String) : Flag :=
  ⟨[name], some fun _ => true⟩

end Flag

/-- An argument, or a part of one, by what it is meant as. -/
inductive Word where
  | value (text : String)
  | separator
  | flag (flag : Flag) (attached : Option String)
  | unknown
  | misused

/-! ### Reading single arguments -/

def isNegativeNumber (chars : List Char) : Bool :=
  let isDigit (c : Char) : Bool := (Text.decimalDigit? c).isSome
  let chars := if chars.getLast? = some '\n' then chars.dropLast else chars
  match chars with
  | '-' :: number =>
    match number.dropWhile isDigit with
    | [] => !number.isEmpty
    | '.' :: fraction => !fraction.isEmpty && fraction.all isDigit
    | _ => false
  | _ => false

/-- The flag with exactly this name. -/
def find? (flags : List Flag) (name : String) : Option Flag :=
  flags.find? (·.names.contains name)

/-- Short flags that share a hyphen, the first of which is known. None if they cannot. -/
def cluster (flags : List Flag) (flag : Flag) : List Char → Option (List Word)
  | [] => some [.flag flag none]
  | c :: rest =>
    if flag.accepts.isSome then some [.flag flag (some (String.ofList (c :: rest)))]
    else (find? flags (String.ofList ['-', c])).bind fun next =>
      (cluster flags next rest).map (.flag flag none :: ·)

/-- A flag with what is attached to its name. A short flag without a value takes it for further short
flags. -/
def attach (flags : List Flag) (flag : Flag) (name : String) (value : Option String) : List Word :=
  match flag.accepts, value with
  | none, some value =>
    if name.startsWith "--" ∨ value = "" then [.misused]
    else (cluster flags flag value.toList).getD [.misused]
  | _, _ => [.flag flag value]

/-- Splits an argument at its first equals sign. -/
def splitAttached (chars : List Char) : String × Option String :=
  let head := String.ofList (chars.takeWhile (· != '='))
  match chars.dropWhile (· != '=') with
  | [] => (head, none)
  | _ :: value => (head, some (String.ofList value))

/-- The flags that a long name may be short for, each once for every name. -/
def abbreviated (flags : List Flag) (start : String) : List Flag :=
  flags.flatMap fun flag =>
    (flag.names.filter fun name => start.toList.isPrefixOf name.toList).map fun _ => flag

/-- An argument that is no flag's name. -/
def unnamed (text : String) : Word :=
  if isNegativeNumber text.toList || text.toList.contains ' ' then .value text else .unknown

/-- What one argument is meant as; none if it is short for several flags. -/
def words? (flags : List Flag) (text : String) : Option (List Word) :=
  match text.toList, find? flags text, splitAttached text.toList with
  | _, some flag, _ => some [.flag flag none]
  | '-' :: second :: rest, none, (name, value) =>
    match (if value.isSome then find? flags name else none) with
    | some flag => some (attach flags flag name value)
    | none =>
      if second = '-' then
        match abbreviated flags name with
        | [] => some [unnamed text]
        | [flag] => some (attach flags flag name value)
        | _ => none
      else
        match find? flags (String.ofList ['-', second]) with
        | some flag => some ((cluster flags flag rest).getD [.misused])
        | none => some [unnamed text]
  | _, none, _ => some [.value text]

/-- What the arguments are meant as. -/
def allWords? (flags : List Flag) : List String → Option (List Word)
  | [] => some []
  | "--" :: rest => some (.separator :: rest.map .value)
  | text :: rest => do
    let words ← words? flags text
    return words ++ (← allWords? flags rest)

/-! ### Putting them together -/

/-- Arguments as they are meant: flags with their values, and the values of the places, if they have
any. -/
structure Parsed where
  flags : List (String × Option String) := []
  values : List (Option String) := []
  deriving Repr

namespace Parsed

def has (parsed : Parsed) (flag : String) : Bool :=
  parsed.flags.any (·.1 = flag)

/-- The last value of a flag. -/
def get? (parsed : Parsed) (flag : String) : Option String :=
  (parsed.flags.reverse.find? (·.1 = flag)).bind Prod.snd

def value? (parsed : Parsed) (place : Nat) : Option String :=
  (parsed.values[place]?).join

end Parsed

/-- Why arguments are not taken: they ask for help, or they are wrong. -/
inductive Refusal where
  | help
  | usage
  deriving DecidableEq, Repr

inductive Place where
  | required
  | optional
  deriving DecidableEq, Repr

def dropSeparator : List Word → Bool × List Word
  | .separator :: rest => (true, rest)
  | words => (false, words)

/-- The value that an argument gives, unless it is taken for the separator. -/
def given? (separated : Bool) (text : String) : Option String :=
  if text = "--" && !separated then none else some text

/-- Fills places with the values that come next: the places' values, the places left, and what
follows. -/
def fill : List Place → List Word → List (Option String) × List Place × List Word
  | [], words => ([], [], words)
  | place :: more, words =>
    let (separated, behind) := dropSeparator words
    match behind, place with
    | .value text :: rest, _ =>
      let (values, left, rest) := fill more (dropSeparator rest).2
      (given? separated text :: values, left, rest)
    | _, .required => ([], place :: more, words)
    | rest, .optional =>
      let (values, left, rest) := fill more rest
      (none :: values, left, rest)

/-- Takes words in order. Words that find no place make the arguments wrong in the end, after a
request for help has had its chance. -/
def take (places : List Place) (words : List Word) (parsed : Parsed) (surplus : Bool) :
    Except Refusal Parsed :=
  match words with
  | [] => if surplus || places.contains .required then .error .usage else .ok parsed
  | .unknown :: rest => take places rest parsed true
  | .misused :: _ => .error .usage
  | .flag flag attached :: rest =>
    let record (value : Option String) : Parsed :=
      { parsed with flags := parsed.flags ++ [(flag.name, value)] }
    match flag.accepts, attached with
    | none, _ =>
      if flag.name = Flag.help.name then .error .help else take places rest (record none) surplus
    | some accepts, some value =>
      let value := given? false value
      if value.all accepts then take places rest (record value) surplus else .error .usage
    | some accepts, none =>
      match rest with
      | .value value :: rest =>
        if accepts value then take places rest (record value) surplus else .error .usage
      | _ => .error .usage
  | word :: rest =>
    let (values, left, after) := fill places (word :: rest)
    let parsed := { parsed with values := parsed.values ++ values }
    if _shorter : after.length ≤ rest.length then take left after parsed surplus
    else take left rest parsed true
termination_by words.length

/-- Reads arguments for a command with some flags and places. -/
def parse (flags : List Flag) (places : List Place) (arguments : List String) :
    Except Refusal Parsed :=
  match allWords? flags arguments with
  | none => .error .usage
  | some words => take places words {} false

end BinarySchema.Command
