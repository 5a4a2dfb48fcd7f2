/-!
# Errors of the JSON reader

An error says what is wrong, where in the text, and at which place of the document. Lines count from one; a column is the number
of bytes of the line that have been consumed, the offending one included where the reader has looked at it.
-/

namespace Conform.Json

/-- What is wrong with a text. -/
inductive Fault where
  | eofValue | eofString | eofList | eofObject
  | expectedColon | expectedListEnd | expectedObjectEnd | expectedIdent | expectedValue
  | invalidEscape | invalidNumber | numberOutOfRange | controlCharacter | keyNotString
  | loneSurrogate | endOfHexEscape | trailingComma | trailingCharacters | recursionLimit
  deriving DecidableEq, Repr

/-- The text of a fault. -/
def Fault.message : Fault → String
  | .eofValue => "EOF while parsing a value"
  | .eofString => "EOF while parsing a string"
  | .eofList => "EOF while parsing a list"
  | .eofObject => "EOF while parsing an object"
  | .expectedColon => "expected `:`"
  | .expectedListEnd => "expected `,` or `]`"
  | .expectedObjectEnd => "expected `,` or `\x7d`"
  | .expectedIdent => "expected ident"
  | .expectedValue => "expected value"
  | .invalidEscape => "invalid escape"
  | .invalidNumber => "invalid number"
  | .numberOutOfRange => "number out of range"
  | .controlCharacter => "control character (\\u0000-\\u001F) found while parsing a string"
  | .keyNotString => "key must be a string"
  | .loneSurrogate => "lone leading surrogate in hex escape"
  | .endOfHexEscape => "unexpected end of hex escape"
  | .trailingComma => "trailing comma"
  | .trailingCharacters => "trailing characters"
  | .recursionLimit => "recursion limit exceeded"

/-- A place in a text: the line, from one on, and the bytes consumed of it. -/
structure Position where
  line : Nat
  column : Nat
  deriving DecidableEq, Repr

/-- The place after one more character. -/
def Position.next (p : Position) (c : Char) : Position :=
  if c = '\n' then ⟨p.line + 1, 0⟩ else ⟨p.line, p.column + c.utf8Size⟩

/-- The place after a number of bytes, which may end inside a character. -/
def Position.skip (p : Position) : Nat → List Char → Position
  | _, [] => p
  | bytes, c :: cs => if c.utf8Size ≤ bytes then (p.next c).skip (bytes - c.utf8Size) cs else ⟨p.line, p.column + bytes⟩

/-- A step from a list to an element, from an object to a field, or to a field that could not be read. -/
inductive Step where
  | index (i : Nat)
  | key (name : String)
  | unknown
  deriving DecidableEq, Repr

/-- The text of a row of steps: names divided by points, positions in brackets, and a point for the root. -/
def Step.path (steps : List Step) : String :=
  let part (first : Bool) : Step → String
    | .index i => s!"[{i}]"
    | .key name => (if first then "" else ".") ++ name
    | .unknown => (if first then "" else ".") ++ "?"
  match steps with
  | [] => "."
  | step :: rest => part true step ++ String.join (rest.map (part false))

/-- A failure to read a text: the fault, what is left of the text, how many bytes of that have been looked at, and the steps
from the root of the document. -/
structure Failure where
  fault : Fault
  rest : List Char
  ahead : Nat
  path : List Step
  deriving DecidableEq, Repr

/-- The failure of a part, seen from the whole. -/
def Failure.within (step : Step) (e : Failure) : Failure := { e with path := step :: e.path }

/-- The place of a failure in the text. -/
def Failure.position (text : List Char) (e : Failure) : Position :=
  ((text.take (text.length - e.rest.length)).foldl Position.next ⟨1, 0⟩).skip e.ahead e.rest

/-- An error of the reader: the fault, its place in the text and its place in the document. -/
structure ReadError where
  fault : Fault
  position : Position
  path : List Step
  deriving DecidableEq, Repr

/-- The error that a failure in a text is. -/
def Failure.error (text : List Char) (e : Failure) : ReadError := ⟨e.fault, e.position text, e.path⟩

/-- The text of an error. -/
def ReadError.message (e : ReadError) : String :=
  s!"{e.fault.message} at line {e.position.line} column {e.position.column}"

end Conform.Json
