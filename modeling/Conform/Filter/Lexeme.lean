import Conform.Json.Reader
import Conform.Text.Blank

/-!
# Lexemes of filter expressions

The text of an expression is cut into words, variables, numbers, strings, names of fields, brackets and symbols. Characters of
operators that stand side by side are one symbol, whether there is such an operator or not. Blanks and comments, which run from
`#` to the end of the line, only divide.
-/

namespace Conform.Filter

/-- A piece of the text of an expression. -/
inductive Lexeme where
  | word (name : String)
  | variable (name : String)
  | number (spelling : String)
  | string (text : String)
  | field (name : String)
  | dot
  | bracket (c : Char)
  | symbol (text : String)
  deriving DecidableEq, Repr

namespace Lexeme

/-- Whether a name may begin with a character. -/
def isNameStart (c : Char) : Bool := c.isAlpha || c == '_'

/-- Whether a character may stand in a name. -/
def isNameChar (c : Char) : Bool := c.isAlphanum || c == '_'

/-- Whether operators are made of a character. -/
def isOperatorChar (c : Char) : Bool := "|=!<>+-*/%".toList.contains c

/-- Whether a character opens or closes a group. -/
def isBracket (c : Char) : Bool := "()[]\x7b\x7d".toList.contains c

/-- Whether a character is a symbol by itself. -/
def isMark (c : Char) : Bool := ":;,?".toList.contains c

/-- The text from the next lexeme on, given whether it begins inside a comment. -/
def skip (comment : Bool) : List Char → List Char
  | [] => []
  | c :: cs =>
    if comment then skip (c ≠ '\n') cs
    else if c = '#' then skip true cs
    else if Blank.isBlankChar c then skip false cs
    else c :: cs

/-- The lexeme made of the characters of one kind that a text starts with, and what follows them. -/
def span (kind : Char → Bool) (make : String → Lexeme) (cs : List Char) : Lexeme × List Char :=
  (make (String.ofList (cs.takeWhile kind)), cs.dropWhile kind)

/-- Digits, at least one. -/
def digits? (cs : List Char) : Option (List Char × List Char) :=
  if cs.takeWhile Char.isDigit = [] then none else some (cs.takeWhile Char.isDigit, cs.dropWhile Char.isDigit)

/-- The part of a number behind a point, with the point. There need not be one. -/
def fraction? : List Char → Option (List Char × List Char)
  | '.' :: cs => (digits? cs).map fun r => ('.' :: r.1, r.2)
  | cs => some ([], cs)

/-- The exponent of a number, with its letter and sign. There need not be one. -/
def exponent? : List Char → Option (List Char × List Char)
  | [] => some ([], [])
  | c :: cs =>
    if c = 'e' ∨ c = 'E' then
      let sign := (cs.take 1).filter fun s => s == '+' || s == '-'
      (digits? (cs.drop sign.length)).map fun r => (c :: sign ++ r.1, r.2)
    else some ([], c :: cs)

/-- A number. -/
def number? (cs : List Char) : Option (Lexeme × List Char) := do
  let (whole, rest) ← digits? cs
  let (fraction, rest) ← fraction? rest
  let (exponent, rest) ← exponent? rest
  some (.number (String.ofList (whole ++ fraction ++ exponent)), rest)

/-- The character of an escape, after its backslash. A code stands for one character by itself. -/
def escape? : List Char → Option (Char × List Char)
  | 'u' :: cs =>
    match Json.readHex cs with
    | .error _ => none
    | .ok (code, rest) => if code.isValidChar then some (Char.ofNat code, rest) else none
  | cs => (Json.readEscape cs).toOption

/-- The rest of a string after its opening quote, given the characters read so far, last one first. There are at most as many
characters to read as `fuel`. -/
def string? : Nat → List Char → List Char → Option (Lexeme × List Char)
  | 0, _, _ => none
  | _, _, [] => none
  | fuel + 1, done, c :: cs =>
    if c = '"' then some (.string (String.ofList done.reverse), cs)
    else if c = '\\' then (escape? cs).bind fun r => string? fuel (r.1 :: done) r.2
    else string? fuel (c :: done) cs

/-- The lexeme that a text starts with. -/
def next? (c : Char) (cs : List Char) : Option (Lexeme × List Char) :=
  if isNameStart c then some (span isNameChar .word (c :: cs))
  else if c.isDigit then number? (c :: cs)
  else if isOperatorChar c then some (span isOperatorChar .symbol (c :: cs))
  else if isBracket c then some (.bracket c, cs)
  else if isMark c then some (.symbol (String.singleton c), cs)
  else match c, cs with
    | '"', cs => string? (cs.length + 1) [] cs
    | '$', d :: cs => if isNameStart d then some (span isNameChar .variable (d :: cs)) else none
    | '.', d :: cs =>
      if d = '.' then none
      else if isNameStart d then some (span isNameChar .field (d :: cs))
      else some (.dot, d :: cs)
    | '.', [] => some (.dot, [])
    | _, _ => none

/-- The lexemes of a text of at most so many characters. -/
def all? : Nat → List Char → Option (List Lexeme)
  | 0, _ => none
  | fuel + 1, cs =>
    match skip false cs with
    | [] => some []
    | c :: cs => (next? c cs).bind fun r => (all? fuel r.2).map (r.1 :: ·)

/-- The lexemes of a text. None when it cannot be cut into lexemes. -/
def ofText? (text : String) : Option (List Lexeme) := all? (text.length + 1) text.toList

end Lexeme

end Conform.Filter
