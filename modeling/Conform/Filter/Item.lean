import Conform.Decimal.Layout
import Conform.Decimal.Reading
import Conform.Fields
import Conform.Json.Printer

/-!
# What filters work on

The items that a filter takes and gives are JSON values, but for their numbers: an integer that fits a signed word is exact, a
number that was never computed with keeps its text, and any other number is a double, which may be infinite or no number at all.
Items are ordered by kind first: null, booleans, numbers, strings, arrays, objects.
-/

namespace Conform.Filter

/-- A number of a filter. -/
inductive Number where
  | integer (n : Int)
  | text (spelling : String)
  | float (x : Float)

namespace Number

/-- Whether an integer fits a signed word. -/
def fits (n : Int) : Bool := -0x8000000000000000 ≤ n && n < 0x8000000000000000

/-- The number of a spelling: an integer if it is the numeral of one that fits, else the spelling itself. -/
def ofText (spelling : String) : Number :=
  let (negative, digits) := match spelling.toList with
    | '-' :: cs => (true, cs)
    | cs => (false, cs)
  let n := if negative then -Int.ofNat (Numeral.value digits) else Int.ofNat (Numeral.value digits)
  if digits ≠ [] ∧ digits.all Char.isDigit ∧ fits n then .integer n else .text spelling

/-- The double nearest to a number. -/
def toFloat : Number → Float
  | .integer n => Float.ofInt n
  | .text spelling => (Decimal.read? spelling).getD 0.0
  | .float x => x

/-- The text of a number. -/
def write : Number → String
  | .integer n => toString n
  | .text spelling => spelling
  | .float x => FloatLayout.computed.write x

/-- An operation on integers where the result fits, and on doubles elsewhere. -/
def compute (exact : Int → Int → Int) (rounded : Float → Float → Float) (a b : Number) : Number :=
  match a, b with
  | .integer m, .integer n => if fits (exact m n) then .integer (exact m n) else .float (rounded a.toFloat b.toFloat)
  | a, b => .float (rounded a.toFloat b.toFloat)

/-- The number with the other sign. -/
def negate : Number → Number
  | .integer n => if fits (-n) then .integer (-n) else .float (-Float.ofInt n)
  | a => .float (-a.toFloat)

/-- The number without its sign. -/
def abs : Number → Number
  | .integer n => if fits n.natAbs then .integer n.natAbs else .float (Float.ofInt n.natAbs)
  | a => .float a.toFloat.abs

/-- The order of doubles, in which the two zeros are equal; what is no number is below all others, also below itself. -/
def compareFloat (x y : Float) : Ordering :=
  if x == y then .eq else if x.isNaN then .lt else if y.isNaN then .gt else if x < y then .lt else .gt

/-- The order of numbers. Integers are compared exactly. -/
def compare (a b : Number) : Ordering :=
  match a, b with
  | .integer m, .integer n => Ord.compare m n
  | a, b => compareFloat a.toFloat b.toFloat

end Number

/-- What a filter takes and gives. -/
inductive Item where
  | null
  | bool (b : Bool)
  | number (n : Number)
  | string (text : String)
  | array (items : List Item)
  | object (fields : List (String × Item))

namespace Item

mutual

/-- The item of a JSON value. -/
def ofJson : Json → Item
  | .null => .null
  | .bool b => .bool b
  | .number n => .number (Number.ofText (Json.numberText n))
  | .string text => .string text
  | .array items => .array (ofJsonItems items)
  | .object fields => .object (ofJsonFields fields)

/-- The items of a row of JSON values. -/
def ofJsonItems : List Json → List Item
  | [] => []
  | j :: js => ofJson j :: ofJsonItems js

/-- The items of the fields of a JSON object. -/
def ofJsonFields : List (String × Json) → List (String × Item)
  | [] => []
  | (key, j) :: fields => (key, ofJson j) :: ofJsonFields fields

end

mutual

/-- The text of an item. It is a JSON text unless a number in it is spelled in another way. -/
def write : Item → String
  | .null => "null"
  | .bool b => if b then "true" else "false"
  | .number n => n.write
  | .string text => Json.quoteString text
  | .array items => Json.enclose none "[" "]" (writeItems items)
  | .object fields => Json.enclose none "\x7b" "\x7d" (writeFields fields)

/-- The texts of a row of items. -/
def writeItems : List Item → List String
  | [] => []
  | i :: is => write i :: writeItems is

/-- The texts of a row of fields. -/
def writeFields : List (String × Item) → List String
  | [] => []
  | (key, i) :: fields => (Json.quoteString key ++ ":" ++ write i) :: writeFields fields

end

/-- The name of the kind of an item. -/
def kindName : Item → String
  | .null => "null"
  | .bool _ => "boolean"
  | .number _ => "number"
  | .string _ => "string"
  | .array _ => "array"
  | .object _ => "object"

/-- The place of the kind of an item in the order of kinds. -/
def rank : Item → Nat
  | .null => 0
  | .bool _ => 1
  | .number _ => 2
  | .string _ => 3
  | .array _ => 4
  | .object _ => 5

/-- Whether an item counts as true: all do but null and false. -/
def isTrue : Item → Bool
  | .null => false
  | .bool b => b
  | _ => true

/-- The fields in the order of their names. -/
def sortFields (fields : List (String × Item)) : List (String × Item) := fields.mergeSort fun a b => a.1 ≤ b.1

/-- The order of two rows: the first difference decides, and without one the shorter row comes first. -/
def compareRows {α : Type} (compare : α → α → Ordering) : List α → List α → Ordering
  | [], [] => .eq
  | [], _ :: _ => .lt
  | _ :: _, [] => .gt
  | a :: as, b :: bs => (compare a b).then (compareRows compare as bs)

/-- How many lists and objects are nested in an item, at most. -/
def depth : Item → Nat
  | .array items => 1 + depthItems items
  | .object fields => 1 + depthFields fields
  | _ => 0
where
  depthItems : List Item → Nat
    | [] => 0
    | i :: is => max (depth i) (depthItems is)
  depthFields : List (String × Item) → Nat
    | [] => 0
    | (_, i) :: fields => max (depth i) (depthFields fields)

/-- The order of items that are nested so many levels deep at most. Objects are compared by their names first, in order, and then
by what stands under the names. -/
def compareTo : Nat → Item → Item → Ordering
  | _, .bool a, .bool b => Ord.compare a b
  | _, .number a, .number b => a.compare b
  | _, .string a, .string b => Ord.compare a b
  | levels + 1, .array as, .array bs => compareRows (compareTo levels) as bs
  | levels + 1, .object as, .object bs =>
    let as := sortFields as
    let bs := sortFields bs
    (compareRows Ord.compare (Fields.keys as) (Fields.keys bs)).then
      (compareRows (compareTo levels) (as.map Prod.snd) (bs.map Prod.snd))
  | _, a, b => Ord.compare a.rank b.rank

/-- The order of items. -/
def compare (a b : Item) : Ordering := compareTo (a.depth + 1) a b

end Item

end Conform.Filter
