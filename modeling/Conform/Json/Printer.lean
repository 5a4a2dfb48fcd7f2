import Conform.Decimal.Layout
import Conform.Json
import Conform.Text.Numeral

/-!
# The JSON printer

Writes a value on one line without blanks, or over several lines with two blanks for each level. In strings only quotes,
backslashes and control characters are escaped; an empty list or object is written without anything inside.
-/

namespace Conform.Json

/-- The characters that stand for one character of a string. -/
def escapeChar (c : Char) : List Char :=
  match c with
  | '"' => ['\\', '"']
  | '\\' => ['\\', '\\']
  | '\x08' => ['\\', 'b']
  | '\x0c' => ['\\', 'f']
  | '\n' => ['\\', 'n']
  | '\r' => ['\\', 'r']
  | '\t' => ['\\', 't']
  | c => if c.toNat < 0x20 then "\\u00".toList ++ (if c.toNat < 0x10 then ['0'] else []) ++ (Numeral.hex c.toNat).toList else [c]

/-- A string between quotes. -/
def quoteString (text : String) : String := String.ofList (['"'] ++ text.toList.flatMap escapeChar ++ ['"'])

/-- The text of a number. -/
def numberText : JsonNumber → String
  | .integer n _ => toString n
  | .float x _ => FloatLayout.document.write x

/-- Parts between an opening and a closing mark, each on a line of its own at the given level when they are not on one line. -/
def enclose (level : Option Nat) (opening closing : String) (parts : List String) : String :=
  match level, parts with
  | _, [] => opening ++ closing
  | none, parts => opening ++ ",".intercalate parts ++ closing
  | some n, parts =>
    let line (k : Nat) : String := "\n" ++ String.ofList (List.replicate (2 * k) ' ')
    opening ++ line (n + 1) ++ ("," ++ line (n + 1)).intercalate parts ++ line n ++ closing

mutual

/-- The text of a value, on one line or at a level of indentation. -/
def print (level : Option Nat) : Json → String
  | .null => "null"
  | .bool b => if b then "true" else "false"
  | .number n => numberText n
  | .string text => quoteString text
  | .array items => enclose level "[" "]" (printItems (level.map (· + 1)) items)
  | .object fields => enclose level "\x7b" "\x7d" (printFields (level.map (· + 1)) fields)

/-- The texts of a row of values. -/
def printItems (level : Option Nat) : List Json → List String
  | [] => []
  | item :: items => print level item :: printItems level items

/-- The texts of a row of fields. -/
def printFields (level : Option Nat) : List (String × Json) → List String
  | [] => []
  | (key, item) :: fields =>
    (quoteString key ++ (if level.isSome then ": " else ":") ++ print level item) :: printFields level fields

end

/-- The text of a value on one line. -/
def compact (j : Json) : String := print none j

/-- The text of a value over several lines. -/
def pretty (j : Json) : String := print (some 0) j

end Conform.Json
