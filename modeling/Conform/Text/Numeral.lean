/-!
# Decimal numerals in text

Two readers of unsigned decimal numerals that fit a 64-bit word: `index?` takes only the canonical numeral of a number (no sign,
no leading zero), as the position of an array element is written; `natural?` also takes a plus sign and leading zeros, as a
number on the command line may be written. Only the ten ASCII digits are digits.
-/

namespace Conform.Numeral

/-- The largest number that fits a 64-bit word. -/
def wordMax : Nat := 0xffffffffffffffff

/-- The value of a decimal digit; of any other character, a meaningless number. -/
def digitValue (c : Char) : Nat := c.toNat - '0'.toNat

/-- The number that a row of decimal digits stands for. -/
def value (digits : List Char) : Nat := digits.foldl (fun n c => 10 * n + digitValue c) 0

/-- A row of decimal digits, at least one, read as a number that fits a word. -/
def digits? (cs : List Char) : Option Nat :=
  if cs ≠ [] ∧ cs.all Char.isDigit ∧ value cs ≤ wordMax then some (value cs) else none

/-- The number whose canonical numeral the text is: digits only, and no zero in front of another digit. -/
def index? (text : String) : Option Nat :=
  match text.toList with
  | '0' :: _ :: _ => none
  | cs => digits? cs

/-- The number a numeral stands for, which may have a plus sign and leading zeros. -/
def natural? (text : String) : Option Nat :=
  match text.toList with
  | '+' :: cs => digits? cs
  | cs => digits? cs

/-- The digits of a number in base sixteen, in lower case and without leading zeros. -/
def hex (n : Nat) : String := String.ofList (Nat.toDigits 16 n)

end Conform.Numeral
