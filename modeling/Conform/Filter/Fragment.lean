import Conform.Filter.Meaning
import Conform.Filter.Parser
import Conform.Filter.Run

/-!
# An engine for a fragment of the filter language

The engine that the program comes with. It reads the expressions of `Expression.parse?`, refuses those in which a name stands for
nothing, and gives the outputs that an expression means. What the language has beyond these expressions is refused as unreadable or
undefined.
-/

namespace Conform.Filter

/-- What is said of a failure. -/
def Failure.description : Failure → String
  | .raised _ => "an error was raised"
  | .undefined name => s!"`{name}` is not defined"
  | .noElements _ => "cannot iterate over a value"
  | .noIndex _ _ => "cannot index a value"
  | .noSlice _ => "cannot take a slice of a value"
  | .noResult _ _ _ => "cannot calculate with values"
  | .noNegative _ => "cannot negate a value"
  | .noLength _ => "a value has no length"
  | .noKeys _ => "a value has no keys"
  | .keyNotString _ => "an object key is no string"

/-- The expression of a text, in which every name stands for something. -/
def compile? (text : String) : Except Refusal Expression :=
  match Expression.parse? text with
  | none => .error (.unreadable [("unexpected token", text)])
  | some e =>
    if e.undefined = [] then .ok e else .error (.undefined (e.undefined.map fun name => (name, "Filter", text)))

/-- The engine of the fragment. -/
def fragment : Engine := fun text input =>
  (compile? text).map fun e =>
    (e.meaning (Item.ofJson input)).map fun output => (output.map Item.write).mapError Failure.description

end Conform.Filter
