import Conform.Filter.Operator

/-!
# Filter expressions

A filter takes one item and gives any number of items. Expressions are built of paths into the item, literals, constructed lists
and objects, operators, conditions and calls of named filters. `undefined` says which names of an expression stand for nothing.
-/

namespace Conform.Filter

/-- An operator between two filters, tightest last. -/
inductive Operator where
  | pipe | comma | alternative | or | and
  | compare (c : Comparison)
  | arithmetic (a : Arithmetic)
  deriving DecidableEq, Repr

/-- How tightly an operator binds. -/
def Operator.level : Operator → Nat
  | .pipe => 0
  | .comma => 1
  | .alternative => 2
  | .or => 3
  | .and => 4
  | .compare _ => 5
  | .arithmetic .multiply => 7
  | .arithmetic _ => 6

/-- How many levels of operators there are. -/
def Operator.levels : Nat := 8

/-- A step of a path: to all elements, to the one under an index, or to those between two bounds. -/
inductive Access (ι : Type) where
  | each
  | index (i : ι)
  | slice (start stop : Option ι)

mutual

/-- A filter expression. -/
inductive Expression where
  | identity
  | number (spelling : String)
  | string (text : String)
  | path (base : Expression) (steps : List PathStep)
  | binary (op : Operator) (left right : Expression)
  | negate (e : Expression)
  | collect (e : Expression)
  | emptyObject
  | entry (key value : Expression)
  | conditional (test yes no : Expression)
  | attempt (e : Expression)
  | call (name : String) (arguments : List Expression)
  | variable (name : String)

/-- A step of a path as written, and whether it leads nowhere, instead of failing, where it is not possible. -/
inductive PathStep where
  | each (lenient : Bool)
  | index (i : Expression) (lenient : Bool)
  | slice (start stop : Option Expression) (lenient : Bool)

end

/-- A step that is lenient. -/
def PathStep.asLenient : PathStep → PathStep
  | .each _ => .each true
  | .index i _ => .index i true
  | .slice start stop _ => .slice start stop true

/-- A filter that an expression may name. -/
inductive Named where
  | null | true | false | empty | not | length | keys | type | first | error | map | select | firstOf | raise
  deriving DecidableEq, Repr

/-- The filter with a name and so many arguments. -/
def Named.find? (name : String) (arity : Nat) : Option Named :=
  match name, arity with
  | "null", 0 => some .null
  | "true", 0 => some .true
  | "false", 0 => some .false
  | "empty", 0 => some .empty
  | "not", 0 => some .not
  | "length", 0 => some .length
  | "keys", 0 => some .keys
  | "type", 0 => some .type
  | "first", 0 => some .first
  | "error", 0 => some .error
  | "map", 1 => some .map
  | "select", 1 => some .select
  | "first", 1 => some .firstOf
  | "error", 1 => some .raise
  | _, _ => none

mutual

/-- The names of an expression that stand for nothing: no variable is ever bound, and only the named filters can be called. -/
def Expression.undefined : Expression → List String
  | .identity | .number _ | .string _ | .emptyObject => []
  | .path base steps => base.undefined ++ undefinedSteps steps
  | .binary _ left right => left.undefined ++ right.undefined
  | .negate e | .collect e | .attempt e => e.undefined
  | .entry key value => key.undefined ++ value.undefined
  | .conditional test yes no => test.undefined ++ yes.undefined ++ no.undefined
  | .call name arguments =>
    (if (Named.find? name arguments.length).isSome then [] else [name]) ++ undefinedArguments arguments
  | .variable name => [name]

/-- The names in a row of steps that stand for nothing. -/
def undefinedSteps : List PathStep → List String
  | [] => []
  | .each _ :: steps => undefinedSteps steps
  | .index i _ :: steps => i.undefined ++ undefinedSteps steps
  | .slice start stop _ :: steps => undefinedBound start ++ undefinedBound stop ++ undefinedSteps steps

/-- The names in a bound that stand for nothing. -/
def undefinedBound : Option Expression → List String
  | none => []
  | some e => e.undefined

/-- The names in a row of arguments that stand for nothing. -/
def undefinedArguments : List Expression → List String
  | [] => []
  | e :: es => e.undefined ++ undefinedArguments es

end

end Conform.Filter
