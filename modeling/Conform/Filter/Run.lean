import Conform.Json.Reader

/-!
# Running filters on JSON

What a filter means is for an engine to say. It refuses a text that is no filter, or gives the outputs of the filter for a document,
each of them the text of a result or a failure. The texts are read back as JSON, one after the other, and the first output that is a
failure or cannot be read back is the error of the whole run.
-/

namespace Conform.Filter

/-- Why an engine refuses a text: places where it cannot be read, or names in it that stand for nothing. Each has what the engine
says of it and the code where it stands. -/
inductive Refusal where
  | unreadable (errors : List (String × String))
  | undefined (names : List (String × String × String))

/-- The text of a refusal: a line for every place or name. -/
def Refusal.message : Refusal → String
  | .unreadable errors => "\n".intercalate (errors.map fun e => s!"parse error: {e.1} in `{e.2}`")
  | .undefined names => "\n".intercalate (names.map fun n => s!"undefined `{n.1}`: {n.2.1} in `{n.2.2}`")

/-- What evaluates filters: for the text of a filter and a document a refusal, or the outputs in order. An output is the text of a
result, or a failure with its description. -/
abbrev Engine : Type := String → Json → Except Refusal (List (Except String String))

/-- Why a filter gives no documents. -/
inductive RunError where
  | refused (refusal : Refusal)
  | failed (description : String)
  | notJson (index : Nat) (error : Json.ReadError)

/-- The text of an error. -/
def RunError.message : RunError → String
  | .refused refusal => refusal.message
  | .failed description => s!"jq filter failed: {description}"
  | .notJson index e => s!"jq output #{index} is not JSON: {e.message}"

/-- The document that an output is. -/
def document? (index : Nat) : Except String String → Except RunError Json
  | .error description => .error (.failed description)
  | .ok text => (Json.parse? text).mapError (.notJson index)

/-- The documents that outputs are, counted from an index on. -/
def documents? (index : Nat) : List (Except String String) → Except RunError (List Json)
  | [] => .ok []
  | output :: outputs =>
    match document? index output with
    | .error e => .error e
    | .ok j => (documents? (index + 1) outputs).map (j :: ·)

/-- The documents that a filter makes of a document. -/
def run? (engine : Engine) (filter : String) (input : Json) : Except RunError (List Json) :=
  match engine filter input with
  | .error refusal => .error (.refused refusal)
  | .ok outputs => documents? 0 outputs

end Conform.Filter
