import Conform.Text.Numeral
import Conform.Text.Printable

/-!
# Quoted text

A text between double quotes in which every character can be seen: a quote and a backslash follow a backslash, a line feed, a
carriage return, a tab and the null character are written as letters, and a character that is not shown as itself is written by
its code point.
-/

namespace Conform.Quoted

/-- The characters that stand for one character between quotes. -/
def escape (c : Char) : List Char :=
  match c with
  | '"' => ['\\', '"']
  | '\\' => ['\\', '\\']
  | '\n' => ['\\', 'n']
  | '\r' => ['\\', 'r']
  | '\t' => ['\\', 't']
  | '\x00' => ['\\', '0']
  | c => if Printable.isShown c then [c] else "\\u\x7b".toList ++ (Numeral.hex c.toNat).toList ++ ['}']

/-- The text between quotes. -/
def quote (text : String) : String := String.ofList (['"'] ++ text.toList.flatMap escape ++ ['"'])

end Conform.Quoted
