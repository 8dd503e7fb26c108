import BinarySchema.Token

/-!
# Scanning

A source text falls into lexemes: blank space, tokens, and the two faults that end a scan, an
unclosed comment and a character that begins nothing. The lexeme at the head of a text is found
without looking at what stood before it, and its place is the place after everything before it, so
tokens and blank space tile the source.

A scan keeps its fault beside the tokens in front of it: whoever reads the tokens in order meets
the fault only after them.
-/

namespace BinarySchema

/-- Why no token begins at a place. -/
inductive LexicalFault where
  | unexpected (c : Char)
  | unclosedComment
  deriving DecidableEq, Repr

structure LexicalError where
  fault : LexicalFault
  pos : Position
  deriving DecidableEq, Repr

/-- What the head of a text is. -/
inductive LexemeKind where
  | blank
  | token (kind : TokenKind)
  | fault (fault : LexicalFault)
  deriving DecidableEq, Repr

/-- The head of a text, split from what follows it. -/
structure Lexeme where
  kind : LexemeKind
  text : List Char
  rest : List Char
  deriving DecidableEq, Repr

namespace Lexeme

def isSourceBlank (c : Char) : Bool :=
  c = ' ' || c = '\t' || c = '\r' || c = '\n' || c = '\x0b' || c = '\x0c'

def isIdentifierStart (c : Char) : Bool :=
  c.isAlpha || c = '_'

def isIdentifierChar (c : Char) : Bool :=
  c.isAlphanum || c = '_'

/-- Whether a word is a plain identifier, without a leading `@` and without points. -/
def isIdentifier (chars : List Char) : Bool :=
  match chars with
  | [] => false
  | c :: rest => isIdentifierStart c && rest.all isIdentifierChar

/-- The rest of a word whose first letter is read: identifier characters, and points that begin
another identifier. -/
def splitWord : List Char → List Char × List Char
  | [] => ([], [])
  | [c] => if isIdentifierChar c then ([c], []) else ([], [c])
  | c :: d :: rest =>
    if isIdentifierChar c || (c = '.' && isIdentifierStart d) then
      let (word, left) := splitWord (d :: rest)
      (c :: word, left)
    else ([], c :: d :: rest)

/-- The rest of a block comment through its closing mark. -/
def splitComment : List Char → Option (List Char × List Char)
  | [] => none
  | '*' :: '/' :: rest => some (['*', '/'], rest)
  | c :: rest => (splitComment rest).map fun (body, left) => (c :: body, left)

/-- The rest of a quoted string through its closing quote on the same line. -/
def splitString : List Char → Option (List Char × List Char)
  | [] => none
  | c :: rest =>
    if c = '"' then some (['"'], rest)
    else if c = '\n' then none
    else (splitString rest).map fun (body, left) => (c :: body, left)

/-- A lexeme whose tail is the longest run of characters of a class. -/
def run (kind : LexemeKind) (lead : List Char) (member : Char → Bool) (rest : List Char) : Lexeme :=
  ⟨kind, lead ++ rest.takeWhile member, rest.dropWhile member⟩

def numberFrom (c : Char) (rest : List Char) : Lexeme :=
  let decimal := run (.token .number) [c] Char.isDigit rest
  match rest with
  | x :: h :: more =>
    if c = '0' && (x = 'x' || x = 'X') && Text.isHexDigit h then
      run (.token .number) [c, x, h] Text.isHexDigit more
    else decimal
  | _ => decimal

def slashFrom (rest : List Char) : Lexeme :=
  match rest with
  | '*' :: more =>
    match splitComment more with
    | some (body, left) => ⟨.token .comment, '/' :: '*' :: body, left⟩
    | none => ⟨.fault .unclosedComment, ['/', '*'], more⟩
  | '/' :: more => run (.token .comment) ['/', '/'] (· != '\n') more
  | _ => ⟨.token .operator, ['/'], rest⟩

/-- An operator that an equals sign extends. -/
def comparisonFrom (c : Char) (rest : List Char) : Lexeme :=
  match rest with
  | '=' :: more => ⟨.token .operator, [c, '='], more⟩
  | _ => ⟨.token .operator, [c], rest⟩

/-- The lexeme at the head of the text `c :: rest`. -/
def ofHead (c : Char) (rest : List Char) : Lexeme :=
  let unexpected : Lexeme := ⟨.fault (.unexpected c), [c], rest⟩
  if isSourceBlank c then run .blank [c] isSourceBlank rest
  else if c.isDigit then numberFrom c rest
  else if isIdentifierStart c then
    let (word, left) := splitWord rest
    ⟨.token .word, c :: word, left⟩
  else match c with
    | '/' => slashFrom rest
    | '@' =>
      match rest with
      | d :: more =>
        if isIdentifierStart d then
          let (word, left) := splitWord more
          ⟨.token .word, '@' :: d :: word, left⟩
        else unexpected
      | [] => unexpected
    | '"' =>
      match splitString rest with
      | some (body, left) => ⟨.token .string, '"' :: body, left⟩
      | none => unexpected
    | '!' | '<' | '>' => comparisonFrom c rest
    | '=' | '+' | '-' | '*' => ⟨.token .operator, [c], rest⟩
    | '{' | '}' | '(' | ')' | '[' | ']' | ',' | ';' | ':' => ⟨.token .punctuation, [c], rest⟩
    | _ => unexpected

end Lexeme

/-- How a scan ends: at the end of its text, or at a fault. A stream of tokens that was read beyond
its fault is spent. -/
inductive Ending where
  | finished (pos : Position)
  | fault (error : LexicalError)
  | spent
  deriving DecidableEq, Repr

/-- The tokens of a text before its end or fault. -/
structure TokenStream where
  tokens : List Token
  ending : Ending
  deriving DecidableEq, Repr

namespace TokenStream

def endToken (pos : Position) : Token := ⟨.endOfInput, "", pos⟩

def cons (token : Token) (stream : TokenStream) : TokenStream :=
  { stream with tokens := token :: stream.tokens }

/-- Scans a text whose first character stands at `pos`. Each step takes at least one character, so
the number of characters bounds the steps. -/
def scanFrom : (steps : Nat) → Position → List Char → TokenStream
  | _, pos, [] => ⟨[], .finished pos⟩
  | 0, pos, _ :: _ => ⟨[], .finished pos⟩
  | steps + 1, pos, c :: rest =>
    let lexeme := Lexeme.ofHead c rest
    let next := scanFrom steps (pos.after lexeme.text) lexeme.rest
    match lexeme.kind with
    | .blank => next
    | .token kind => next.cons ⟨kind, String.ofList lexeme.text, pos⟩
    | .fault fault => ⟨[], .fault ⟨fault, pos⟩⟩

def scan (text : String) : TokenStream :=
  scanFrom text.length .first text.toList

/-- The tokens with the end token, or with the error that cuts them short. -/
def complete (stream : TokenStream) : List Token × Option LexicalError :=
  match stream.ending with
  | .finished pos => (stream.tokens ++ [endToken pos], none)
  | .fault error => (stream.tokens, some error)
  | .spent => (stream.tokens, none)

end TokenStream

namespace LexicalError

/-- The text that the error is about. -/
def character (error : LexicalError) : String :=
  match error.fault with
  | .unexpected c => String.singleton c
  | .unclosedComment => "/*"

def message (error : LexicalError) : String :=
  match error.fault with
  | .unexpected c =>
    s!"({error.pos.line}:{error.pos.column}) unexpected character {Text.quoted (String.singleton c)}"
  | .unclosedComment => s!"({error.pos.line}:{error.pos.column}) unterminated block comment"

end LexicalError

end BinarySchema
