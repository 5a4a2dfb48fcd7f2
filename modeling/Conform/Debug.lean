import Conform.Decimal.Layout
import Conform.Heap
import Conform.Store

/-!
# Debug texts

Short texts of values and definitions. They do not look into arrays and objects, which may reach themselves.
-/

namespace Conform

/-- The debug text of a value. -/
def Heap.debug (h : Heap) : Value → String
  | .undefined => "undefined"
  | .null => "null"
  | .bool b => if b then "true" else "false"
  | .number x => FloatLayout.plain.write x
  | .string text => Quoted.quote text
  | .symbol _ description => s!"Symbol({description})"
  | .function name => s!"[Function {name}]"
  | .array cell => s!"[Array; {(h.elements cell).length}]"
  | .object cls cell => s!"[{cls.name} with {(h.fields cell).length} fields]"

/-- The debug text of a definition. -/
def Store.debug (s : Store) (h : Heap) : Definition → String
  | .other v => s!"Other({h.debug v})"
  | d => s!"Definition({s.describe d})"

end Conform
