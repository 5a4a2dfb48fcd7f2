import Conform.Decimal.Layout
import Conform.Judgement
import Conform.Text.Quoted
import Conform.Tree.OfJson

/-!
# Schema documents

A schema document holds a definition and the options to judge by it. An object with a key `definition` and no keys but
`definition` and `options` is an envelope around both; every other value is a bare definition with the default options. An error
names the place in the document where it was met. What follows the first JSON value of a text is not looked at here; the readers
`Tree.parse?` and `Tree.decode?` refuse it.
-/

namespace Conform

/-- The options of a validator: the deepest level it may enter. -/
structure Options where
  maxDepth : Option Nat := none
  deriving DecidableEq, Repr

/-- Why a value is not the options of a document. -/
inductive OptionFault where
  | notOptions (found : Json)
  | notLimit (found : Json)
  | negativeLimit (n : Int)
  | unknownField (key : String)
  | tooManyItems (length : Nat)

/-- Why a text or a value is not a definition or a document. -/
inductive DocumentFault where
  | notJson (error : Json.ReadError)
  | malformed (error : Malformed)
  | option (fault : OptionFault)

/-- A fault and where in the document it was met. -/
structure PathError where
  path : List Json.Step
  fault : DocumentFault

/-- What kind of JSON value was found, with the value where it is a single one. -/
def Json.found : Json → String
  | .null => "null"
  | .bool b => s!"boolean `{b}`"
  | .number (.integer n _) => s!"integer `{n}`"
  | .number (.float x _) => s!"floating point `{FloatLayout.document.write x}`"
  | .string text => "string " ++ Quoted.quote text
  | .array _ => "sequence"
  | .object _ => "map"

/-- The text of a fault. -/
def OptionFault.message : OptionFault → String
  | .notOptions j => s!"invalid type: {j.found}, expected struct Options"
  | .notLimit j => s!"invalid type: {j.found}, expected usize"
  | .negativeLimit n => s!"invalid value: integer `{n}`, expected usize"
  | .unknownField key => s!"unknown field `{key}`, expected `max_depth`"
  | .tooManyItems n => s!"invalid length {n}, expected fewer elements in array"

/-- The text of a fault. -/
def DocumentFault.message : DocumentFault → String
  | .notJson e => e.message
  | .malformed e => e.message
  | .option fault => fault.message

namespace PathError

/-- The error of a part, seen from the whole. -/
def within (step : Json.Step) (e : PathError) : PathError := { e with path := step :: e.path }

/-- The text of the place. -/
def place (e : PathError) : String := Json.Step.path e.path

/-- The text of the error. -/
def message (e : PathError) : String := s!"at JSON path {e.place} → {e.fault.message}"

end PathError

namespace Tree

/-- The definition that a text stands for. A malformed definition is reported before what follows it. -/
def decode? (text : String) : Except DocumentFault Tree :=
  match Json.first? text with
  | .error e => .error (.notJson e)
  | .ok (j, following) =>
    match ofJson? j, following with
    | .error e, _ => .error (.malformed e)
    | .ok _, some e => .error (.notJson e)
    | .ok t, none => .ok t

/-- The definition that a value stands for, with the place of an error. -/
def located? (j : Json) : Except PathError Tree := (ofJson? j).mapError fun e => ⟨[], .malformed e⟩

/-- The definition at the start of a text, with the place of an error. -/
def locatedText? (text : String) : Except PathError Tree :=
  match Json.first? text with
  | .error e => .error ⟨e.path, .notJson e⟩
  | .ok (j, _) => located? j

end Tree

namespace Options

/-- The limit of depth that a value stands for: null is none. -/
def limit? : Json → Except PathError (Option Nat)
  | .null => .ok none
  | .number (.integer n _) =>
    if 0 ≤ n then .ok (some n.toNat) else .error ⟨[], .option (.negativeLimit n)⟩
  | j => .error ⟨[], .option (.notLimit j)⟩

/-- The options that the fields of an object give, on top of the options so far. -/
def ofFields? (options : Options) : List (String × Json) → Except PathError Options
  | [] => .ok options
  | (key, j) :: fields =>
    if key = "max_depth" then
      match (limit? j).mapError (PathError.within (.key key)) with
      | .error e => .error e
      | .ok limit => ofFields? { options with maxDepth := limit } fields
    else .error ⟨[.key key], .option (.unknownField key)⟩

/-- The options that a value stands for: an object by name, or a list by position. -/
def ofJson? : Json → Except PathError Options
  | .object fields => ofFields? {} fields
  | .array [] => .ok {}
  | .array (j :: js) =>
    match (limit? j).mapError (PathError.within (.index 0)) with
    | .error e => .error e
    | .ok limit => if js.isEmpty then .ok ⟨limit⟩ else .error ⟨[], .option (.tooManyItems (js.length + 1))⟩
  | j => .error ⟨[], .option (.notOptions j)⟩

end Options

/-- A definition and the options to judge by it. -/
structure SchemaDocument where
  definition : Tree
  options : Options

namespace SchemaDocument

/-- Whether the fields of an object are those of an envelope. -/
def isEnvelope (fields : List (String × Json)) : Bool :=
  let keys := Fields.keys fields
  keys.contains "definition" && keys.all fun k => k == "definition" || k == "options"

/-- Reads the fields of an envelope one after the other into the document so far. -/
def ofFields? (document : SchemaDocument) : List (String × Json) → Except PathError SchemaDocument
  | [] => .ok document
  | (key, j) :: fields =>
    if key = "definition" then
      match (Tree.located? j).mapError (PathError.within (.key key)) with
      | .error e => .error e
      | .ok t => ofFields? { document with definition := t } fields
    else
      match (Options.ofJson? j).mapError (PathError.within (.key key)) with
      | .error e => .error e
      | .ok options => ofFields? { document with options := options } fields

/-- The document of a bare definition. -/
def bare? (j : Json) : Except PathError SchemaDocument := (Tree.located? j).map fun t => ⟨t, {}⟩

/-- The document that a value stands for. -/
def ofJson? : Json → Except PathError SchemaDocument
  | .object fields => if isEnvelope fields then ofFields? ⟨.null, {}⟩ fields else bare? (.object fields)
  | j => bare? j

/-- The document at the start of a text. -/
def parse? (text : String) : Except PathError SchemaDocument :=
  match Json.first? text with
  | .error e => .error ⟨e.path, .notJson e⟩
  | .ok (j, _) => ofJson? j

/-- Judges a JSON value by the document, under its options. -/
def validate (document : SchemaDocument) (j : Json) : Outcome Bool :=
  let (heap, v) := Heap.empty.ofJson j
  let (store, d) := Store.empty.plant document.definition
  Validator.validate ⟨heap, store, document.options.maxDepth⟩ v d

end SchemaDocument

end Conform
