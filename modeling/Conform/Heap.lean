import Conform.Value
import Conform.Fields
import Conform.Json
import Conform.Text.Numeral

/-!
# The heap of values

A heap holds what arrays and objects contain, one cell for each of them. A cell that was never allocated reads as empty, so that
every read is total. Writing changes one cell and leaves all others.
-/

namespace Conform

/-- The contents of arrays and of objects, by cell, and how many symbols there are. -/
structure Heap where
  arrays : Array (List Value)
  objects : Array (List (String × Value))
  symbols : Nat

namespace Heap

/-- The heap without any cell. -/
def empty : Heap := ⟨#[], #[], 0⟩

/-- The elements in a cell of the arrays. -/
def elements (h : Heap) (cell : Nat) : List Value := (h.arrays[cell]?).getD []

/-- The fields in a cell of the objects. -/
def fields (h : Heap) (cell : Nat) : List (String × Value) := (h.objects[cell]?).getD []

/-! ### Building -/

/-- A new array. -/
def newArray (h : Heap) (items : List Value) : Heap × Value :=
  ({ h with arrays := h.arrays.push items }, .array h.arrays.size)

/-- A new object of a class, its fields given one after the other. -/
def newObject (h : Heap) (cls : Class) (entries : List (String × Value)) : Heap × Value :=
  ({ h with objects := h.objects.push (Fields.ofList entries) }, .object cls h.objects.size)

/-- A new symbol, different from every other one. -/
def newSymbol (h : Heap) (description : String) : Heap × Value :=
  ({ h with symbols := h.symbols + 1 }, .symbol h.symbols description)

/-- Appends to an array in place. None when the target is no array. -/
def push? (h : Heap) (target item : Value) : Option Heap :=
  match target with
  | .array cell => some { h with arrays := h.arrays.setIfInBounds cell (h.elements cell ++ [item]) }
  | _ => none

/-- Sets a field of an object in place. None when the target is no object. -/
def setField? (h : Heap) (target : Value) (key : String) (item : Value) : Option Heap :=
  match target with
  | .object _ cell => some { h with objects := h.objects.setIfInBounds cell (Fields.insert (h.fields cell) key item) }
  | _ => none

mutual

/-- The value a JSON value stands for: new arrays, new objects of the root class, and doubles for all numbers. -/
def ofJson (h : Heap) : Json → Heap × Value
  | .null => (h, .null)
  | .bool b => (h, .bool b)
  | .number n => (h, .number n.toFloat)
  | .string s => (h, .string s)
  | .array items =>
    let (h, values) := ofJsonItems h items
    h.newArray values
  | .object entries =>
    let (h, values) := ofJsonFields h entries
    h.newObject .object values

/-- The values of a row of JSON values. -/
def ofJsonItems (h : Heap) : List Json → Heap × List Value
  | [] => (h, [])
  | item :: items =>
    let (h, v) := ofJson h item
    let (h, vs) := ofJsonItems h items
    (h, v :: vs)

/-- The named values of the fields of a JSON object. -/
def ofJsonFields (h : Heap) : List (String × Json) → Heap × List (String × Value)
  | [] => (h, [])
  | (key, item) :: entries =>
    let (h, v) := ofJson h item
    let (h, vs) := ofJsonFields h entries
    (h, (key, v) :: vs)

end

/-! ### Reading -/

/-- The elements of an array; other values have none. -/
def elements? (h : Heap) : Value → Option (List Value)
  | .array cell => some (h.elements cell)
  | _ => none

/-- The number of elements of an array. -/
def length? (h : Heap) (v : Value) : Option Nat := (h.elements? v).map List.length

/-- The element at a position; undefined past the end and for a value that is no array. -/
def index (h : Heap) (v : Value) (i : Nat) : Value :=
  match h.elements? v with
  | none => .undefined
  | some items => (items[i]?).getD .undefined

/-- A property of a value: a field of an object, or of an array its length or the element at a position. -/
def field (h : Heap) (v : Value) (key : String) : Value :=
  match v with
  | .object _ cell => (Fields.get? (h.fields cell) key).getD .undefined
  | .array cell =>
    if key = "length" then .number (Float.ofNat (h.elements cell).length)
    else match Numeral.index? key with
      | some i => h.index v i
      | none => .undefined
  | _ => .undefined

end Heap

end Conform
