import Conform.Class

/-!
# Runtime values

The values a definition is held against. Arrays and objects are handles to cells of a heap, so that a value may be shared or
reach itself; a symbol is told apart by its number, and the class of an object belongs to its handle because it never changes.
-/

namespace Conform

/-- A runtime value. -/
inductive Value where
  | undefined
  | null
  | bool (b : Bool)
  | number (x : Float)
  | string (text : String)
  | symbol (id : Nat) (description : String)
  | function (name : String)
  | array (cell : Nat)
  | object (cls : Class) (cell : Nat)
  deriving DecidableEq, Inhabited

/-- The kinds a value can be of at run time. -/
inductive Kind where
  | string | number | boolean | object | function | undefined | symbol
  deriving DecidableEq, Repr

/-- The name of a kind, as a type token spells it. -/
def Kind.name : Kind → String
  | .string => "string"
  | .number => "number"
  | .boolean => "boolean"
  | .object => "object"
  | .function => "function"
  | .undefined => "undefined"
  | .symbol => "symbol"

namespace Value

/-- The kind of a value. Null is of the kind of objects. -/
def kind : Value → Kind
  | .undefined => .undefined
  | .null => .object
  | .bool _ => .boolean
  | .number _ => .number
  | .string _ => .string
  | .symbol _ _ => .symbol
  | .function _ => .function
  | .array _ => .object
  | .object _ _ => .object

/-- Whether the value is an array or an object. -/
def isNonPrimitive : Value → Bool
  | .array _ => true
  | .object _ _ => true
  | _ => false

/-- Whether the value is null. -/
def isNull : Value → Bool
  | .null => true
  | _ => false

/-- Whether the value is undefined. -/
def isUndefined : Value → Bool
  | .undefined => true
  | _ => false

/-- Whether the value is an array. -/
def isArray : Value → Bool
  | .array _ => true
  | _ => false

/-- The class of a value: arrays and objects have one. -/
def class? : Value → Option Class
  | .array _ => some Class.array
  | .object cls _ => some cls
  | _ => none

/-- Whether the value has a class and that class is the given one or extends it. -/
def instanceOf (v : Value) (cls : Class) : Bool :=
  match v.class? with
  | none => false
  | some own => own.isSubclassOf cls

/-- Whether two values are one and the same symbol. -/
def sameSymbol : Value → Value → Bool
  | .symbol i _, .symbol j _ => i == j
  | _, _ => false

/-- Whether two values are one and the same array. -/
def sameArray : Value → Value → Bool
  | .array i, .array j => i == j
  | _, _ => false

/-- A class taken as a value: the function that constructs its instances. -/
def ofClass (cls : Class) : Value := .function cls.name

end Value

end Conform
