import Conform.Json.Pointer
import Conform.Json.Reader
import Conform.Tree

/-!
# Definitions written in JSON

A string is a token, a list a tuple, an object a shape, null the literal, and a number or a boolean a value that stands for
nothing. What JSON has no form for is written as a directive: an object whose keys are exactly those of one directive.

| keys | stands for |
| --- | --- |
| `$undefined` | the literal undefined |
| `$union` | a union of the listed definitions |
| `$optional` | a definition or a value for missing |
| `$arrayOf`, perhaps with `$min` and `$max` | an array with a range of lengths |
| `$instanceOf` | a builtin class, by name |

A directive whose values are of another form is malformed, and the error points to the first defect in the order of reading.
-/

namespace Conform

/-- Why a JSON value is not a definition. -/
inductive DefinitionFault where
  | undefinedFlag
  | unionList
  | bound
  | emptyRange (max min : Nat)
  | classText
  | unknownClass (name : String)
  | notJson (error : Json.ReadError)
  deriving DecidableEq, Repr

/-- The text of a fault. -/
def DefinitionFault.message : DefinitionFault → String
  | .undefinedFlag => "`$undefined` takes `true`"
  | .unionList => "`$union` takes an array of definitions"
  | .bound => "length bounds must be non-negative integers"
  | .emptyRange max min => s!"`$max` ({max}) is below `$min` ({min})"
  | .classText => "`$instanceOf` takes a class name"
  | .unknownClass name => s!"unknown class `{name}`"
  | .notJson error => error.message

/-- A malformed definition: the fault, and the names that lead to it from the root. -/
structure Malformed where
  path : List String
  fault : DefinitionFault
  deriving DecidableEq, Repr

namespace Malformed

/-- The malformed part of a value, seen from the value. -/
def within (name : String) (e : Malformed) : Malformed := { e with path := name :: e.path }

/-- The pointer to the fault. -/
def pointer (e : Malformed) : String := e.path.foldl Pointer.child ""

/-- The text of the error. -/
def message (e : Malformed) : String := s!"malformed definition at `{e.pointer}`: {e.fault.message}"

end Malformed

/-- What an object stands for. -/
inductive ObjectForm where
  | undefined | union | optional | arrayOf | instanceOf | shape
  deriving DecidableEq, Repr

/-- The form of an object with the given keys. -/
def ObjectForm.ofKeys (keys : List String) : ObjectForm :=
  let only (key : String) (others : List String) : Bool := keys.contains key && keys.all (key :: others).contains
  if only "$undefined" [] then .undefined
  else if only "$union" [] then .union
  else if only "$optional" [] then .optional
  else if only "$arrayOf" ["$min", "$max"] then .arrayOf
  else if only "$instanceOf" [] then .instanceOf
  else .shape

namespace Tree

/-- The bound under a key: absent or null is none. -/
def bound? (fields : List (String × Json)) (key : String) : Except Malformed (Option Nat) :=
  match Fields.get? fields key with
  | none => .ok none
  | some .null => .ok none
  | some (.number n) =>
    match n.natural? with
    | some m => .ok (some m)
    | none => .error ⟨[key], .bound⟩
  | some _ => .error ⟨[key], .bound⟩

/-- The literal undefined, whose flag has to be true. -/
def undefined? (fields : List (String × Json)) : Except Malformed Tree :=
  match Fields.get? fields "$undefined" with
  | some (.bool true) => .ok .undefined
  | _ => .error ⟨["$undefined"], .undefinedFlag⟩

/-- A builtin class by its name. -/
def instanceOf? (fields : List (String × Json)) : Except Malformed Tree :=
  match Fields.get? fields "$instanceOf" with
  | some (.string name) =>
    match Class.builtin? name with
    | some cls => .ok (.nominal cls)
    | none => .error ⟨["$instanceOf"], .unknownClass name⟩
  | _ => .error ⟨["$instanceOf"], .classText⟩

/-- The array of an element with the bounds that stand beside it. -/
def arrayOf? (fields : List (String × Json)) (element : Tree) : Except Malformed Tree := do
  let min := (← bound? fields "$min").getD 0
  let max ← bound? fields "$max"
  match max with
  | none => .ok (.node (.bounded element min none))
  | some m => if m < min then .error ⟨[], .emptyRange m min⟩ else .ok (.node (.bounded element min (some m)))

mutual

/-- The definition that a JSON value stands for. -/
def ofJson? : Json → Except Malformed Tree
  | .null => .ok .null
  | .bool b => .ok (.other (.bool b))
  | .number n => .ok (.other (.number n.toFloat))
  | .string text => .ok (.token text)
  | .array items => (ofItems? 0 items).map fun ts => .node (.tuple ts)
  | .object fields =>
    match ObjectForm.ofKeys (Fields.keys fields) with
    | .undefined => undefined? fields
    | .union => (ofAlternatives? fields).map fun ts => .node (.union ts)
    | .optional => (ofField? "$optional" fields).map Tree.optional
    | .arrayOf => (ofField? "$arrayOf" fields).bind (arrayOf? fields)
    | .instanceOf => instanceOf? fields
    | .shape => (ofFields? fields).map fun ts => .node (.shape ts)

/-- The definitions of the items of a list, the first one at the given position. -/
def ofItems? (i : Nat) : List Json → Except Malformed (List Tree)
  | [] => .ok []
  | j :: js => do
    let t ← (ofJson? j).mapError (Malformed.within (toString i))
    let ts ← ofItems? (i + 1) js
    .ok (t :: ts)

/-- The definition under a key. -/
def ofField? (key : String) : List (String × Json) → Except Malformed Tree
  | [] => .ok .null
  | (k, j) :: fields => if k = key then (ofJson? j).mapError (Malformed.within key) else ofField? key fields

/-- The alternatives of a union directive. -/
def ofAlternatives? : List (String × Json) → Except Malformed (List Tree)
  | (_, .array items) :: _ => (ofItems? 0 items).mapError (Malformed.within "$union")
  | _ => .error ⟨["$union"], .unionList⟩

/-- The definitions of the fields of a shape. -/
def ofFields? : List (String × Json) → Except Malformed (List (String × Tree))
  | [] => .ok []
  | (key, j) :: fields => do
    let t ← (ofJson? j).mapError (Malformed.within key)
    let ts ← ofFields? fields
    .ok ((key, t) :: ts)

end

/-- The definition that a JSON text stands for. -/
def parse? (text : String) : Except Malformed Tree :=
  match Json.parse? text with
  | .error e => .error ⟨[], .notJson e⟩
  | .ok j => ofJson? j

end Tree

end Conform
