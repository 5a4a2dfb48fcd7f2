/-!
# Nominal classes

A class has a serial number, a name for display and, the root class `Object` apart, a class it extends. Two classes are the same
class when their serial numbers are equal; names play no part. A registry gives out the serial numbers, so that a class is
always younger than the class it extends.
-/

namespace Conform

/-- A class: the root of all classes, or a class that extends another one. -/
inductive Class where
  | object
  | extending (serial : Nat) (name : String) (parent : Class)
  deriving DecidableEq, Repr

namespace Class

/-- The number that makes the class itself. -/
def serial : Class → Nat
  | .object => 0
  | .extending n _ _ => n

/-- The name for display. -/
def name : Class → String
  | .object => "Object"
  | .extending _ s _ => s

/-- The class of every array. -/
def array : Class := .extending 1 "Array" .object

/-- The class of errors. -/
def error : Class := .extending 2 "Error" .object

/-- The builtin class of that name. -/
def builtin? (name : String) : Option Class :=
  [object, array, error].find? (fun c => c.name == name)

/-- Whether two handles stand for the same class. -/
def same (c d : Class) : Bool := c.serial == d.serial

/-- The class, the class it extends, and so on up to the root. -/
def chain : Class → List Class
  | .object => [.object]
  | .extending n s parent => .extending n s parent :: parent.chain

/-- Whether a class is another one or extends it, directly or through others. -/
def isSubclassOf (c d : Class) : Bool := c.chain.any (fun a => a.same d)

/-- The debug text of a class. -/
def debug (c : Class) : String := s!"Class({c.name})"

end Class

/-- The classes created so far, newest first. -/
structure Registry where
  created : List Class

namespace Registry

/-- The registry that holds the builtin classes alone. -/
def builtin : Registry := ⟨[.error, .array, .object]⟩

/-- Creates a class under another one; its serial number is the number of classes before it. -/
def extend (r : Registry) (name : String) (parent : Class) : Registry × Class :=
  let c := .extending r.created.length name parent
  (⟨c :: r.created⟩, c)

end Registry

end Conform
