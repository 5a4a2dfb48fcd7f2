import Conform.Text.Numeral

/-!
# Reading a double from text

A number text is an optional sign and then one of the words `inf`, `infinity` and `nan` in any case, or digits with an optional
point among them and an optional exponent. The double nearest to the decimal is read; beyond the largest double that is infinity.
-/

namespace Conform.Decimal

/-- The double nearest to `digits * 10 ^ exponent`; decimals far outside the range of doubles are settled by their length. -/
def nearest (digits : Nat) (exponent : Int) : Float :=
  let size := Int.ofNat (Nat.toDigits 10 digits).length + exponent
  if digits = 0 ∨ size < -400 then 0.0
  else if 400 < size then Float.ofBits 0x7ff0000000000000
  else Float.ofScientific digits (exponent < 0) exponent.natAbs

/-- The sign of a number, as a flag for minus, and what follows it. -/
def sign : List Char → Bool × List Char
  | '-' :: rest => (true, rest)
  | '+' :: rest => (false, rest)
  | rest => (false, rest)

/-- The exponent that a text ends in: none when the text is not an exponent. -/
def exponent? : List Char → Option Int
  | [] => some 0
  | c :: rest =>
    let (negative, digits) := sign rest
    if (c = 'e' ∨ c = 'E') ∧ digits ≠ [] ∧ digits.all Char.isDigit then
      some (if negative then -Int.ofNat (Numeral.value digits) else Int.ofNat (Numeral.value digits))
    else none

/-- A number without its sign. -/
def magnitude? (cs : List Char) : Option Float :=
  let whole := cs.takeWhile Char.isDigit
  let (fraction, rest) := match cs.dropWhile Char.isDigit with
    | '.' :: rest => (rest.takeWhile Char.isDigit, rest.dropWhile Char.isDigit)
    | rest => ([], rest)
  if whole = [] ∧ fraction = [] then none
  else (exponent? rest).map fun e => nearest (Numeral.value (whole ++ fraction)) (e - Int.ofNat fraction.length)

/-- The double that a number text stands for. -/
def read? (text : String) : Option Float :=
  let (negative, cs) := sign text.toList
  let word := String.ofList (cs.map Char.toLower)
  let found :=
    if word = "inf" ∨ word = "infinity" then some (Float.ofBits 0x7ff0000000000000)
    else if word = "nan" then some (Float.ofBits 0x7ff8000000000000)
    else magnitude? cs
  found.map fun x => if negative then -x else x

end Conform.Decimal
