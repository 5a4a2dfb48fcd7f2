/-!
# JSON documents

The value of a JSON text. An integer that fits 64 bits, signed or unsigned, keeps its exact value; any other number is a finite
double. The fields of an object stand in the order of the text.
-/

namespace Conform

/-- A JSON number: an integer that fits a signed or an unsigned word, or a finite double. -/
inductive JsonNumber where
  | integer (n : Int) (fits : -0x8000000000000000 ≤ n ∧ n < 0x10000000000000000)
  | float (x : Float) (finite : x.isFinite = true)
  deriving DecidableEq

/-- The double nearest to a number. -/
def JsonNumber.toFloat : JsonNumber → Float
  | .integer n _ => Float.ofInt n
  | .float x _ => x

/-- The number as an unsigned word: only an integer that is not negative is one. -/
def JsonNumber.natural? : JsonNumber → Option Nat
  | .integer n _ => if 0 ≤ n then some n.toNat else none
  | .float _ _ => none

/-- A JSON value. -/
inductive Json where
  | null
  | bool (b : Bool)
  | number (n : JsonNumber)
  | string (text : String)
  | array (items : List Json)
  | object (fields : List (String × Json))

namespace Json

/-- The number of an unsigned integer. -/
def natural (n : Nat) (h : n < 0x10000000000000000) : Json := .number (.integer n ⟨by omega, by omega⟩)

/-- The fields of an object. -/
def fields? : Json → Option (List (String × Json))
  | .object fields => some fields
  | _ => none

end Json

end Conform
