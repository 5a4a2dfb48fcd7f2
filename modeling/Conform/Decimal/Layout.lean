import Conform.Decimal.Shortest

/-!
# How doubles are written

All texts of a double have the digits of its shortest decimal. They differ in where notation with an exponent begins and in how
whole numbers end, and a layout says both.
-/

namespace Conform

/-- How a double is written: whether a whole number ends in `.0`, for which numbers of digits in front of the point (a negative
number counts zeros behind it) there is no exponent, whether a positive exponent has a sign, and what stands for the doubles that
are no numbers. -/
structure FloatLayout where
  pointZero : Bool
  positional : Int → Bool
  plusSign : Bool
  nan : String
  infinity : Bool → String

namespace FloatLayout

/-- The layout of numbers in debug texts of values: never an exponent, and whole numbers without a point. -/
def plain : FloatLayout := ⟨false, fun _ => true, false, "NaN", fun negative => if negative then "-inf" else "inf"⟩

/-- The layout of numbers in documents: an exponent from `1e16` on and below `1e-5`. -/
def document : FloatLayout := { plain with pointZero := true, positional := fun k => -5 < k && k ≤ 16, plusSign := true }

/-- The layout of numbers that a filter computes: an exponent from `1e16` on and below `1e-4`, and null if not finite. -/
def computed : FloatLayout := ⟨true, fun k => -4 < k && k ≤ 16, false, "null", fun _ => "null"⟩

/-- Digits without an exponent, `k` of them in front of the point. -/
def pointed (layout : FloatLayout) (digits : List Char) (k : Int) : List Char :=
  if k ≤ 0 then "0.".toList ++ List.replicate (-k).toNat '0' ++ digits
  else if digits.length ≤ k.toNat then
    digits ++ List.replicate (k.toNat - digits.length) '0' ++ (if layout.pointZero then ".0".toList else [])
  else digits.take k.toNat ++ ['.'] ++ digits.drop k.toNat

/-- Digits with an exponent, one of them in front of the point. -/
def scientific (layout : FloatLayout) (digits : List Char) (k : Int) : List Char :=
  digits.take 1 ++ (if digits.length ≤ 1 then [] else ['.'] ++ digits.drop 1) ++ ['e'] ++
    (if layout.plusSign && 1 ≤ k then ['+'] else []) ++ (toString (k - 1)).toList

/-- The text of a decimal. -/
def decimal (layout : FloatLayout) (d : Decimal) : List Char :=
  let digits := Nat.toDigits 10 d.digits
  let k := Int.ofNat digits.length + d.exponent
  if layout.positional k then layout.pointed digits k else layout.scientific digits k

/-- The text of a double. -/
def write (layout : FloatLayout) (x : Float) : String :=
  let signed (negative : Bool) (text : List Char) : String := String.ofList ((if negative then ['-'] else []) ++ text)
  match Decimal.classify x with
  | .nan => layout.nan
  | .infinite negative => layout.infinity negative
  | .finite negative 0 _ => signed negative (if layout.pointZero then "0.0".toList else ['0'])
  | .finite negative m q => signed negative (layout.decimal (Decimal.shortest m q))

end FloatLayout

end Conform
