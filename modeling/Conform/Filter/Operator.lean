import Conform.Filter.Item

/-!
# Operators of filters

What the arithmetic and the comparing operators make of two items. Adding joins texts, lists and objects, and null adds nothing;
subtracting takes the elements of a list away; multiplying repeats a text and joins objects all the way down.
-/

namespace Conform.Filter

/-- An operator of arithmetic. -/
inductive Arithmetic where
  | add | subtract | multiply
  deriving DecidableEq, Repr

/-- An operator that compares. -/
inductive Comparison where
  | equal | different | less | atMost | greater | atLeast
  deriving DecidableEq, Repr

/-- Whether two items compare as the operator says. -/
def Comparison.holds (c : Comparison) (a b : Item) : Bool :=
  let o := a.compare b
  match c with
  | .equal => o.isEq
  | .different => o.isNe
  | .less => o.isLT
  | .atMost => o.isLE
  | .greater => o.isGT
  | .atLeast => o.isGE

namespace Item

/-- Fields on top of others: a name that is in both keeps its place and takes the new entry. -/
def mergeFields (fields more : List (String × Item)) : List (String × Item) :=
  more.foldl (fun merged entry => Fields.insert merged entry.1 entry.2) fields

/-- Fields on top of others, where two objects under one name are merged so many levels deep. -/
def mergeDeep : Nat → List (String × Item) → List (String × Item) → List (String × Item)
  | 0, fields, more => mergeFields fields more
  | levels + 1, fields, more =>
    more.foldl (fun merged entry =>
      match Fields.get? merged entry.1, entry.2 with
      | some (.object old), .object new => Fields.insert merged entry.1 (.object (mergeDeep levels old new))
      | _, item => Fields.insert merged entry.1 item) fields

/-- A text so many times in a row; null for none at all. -/
def repeated (text : String) : Number → Option Item
  | .integer n => some (if 0 < n then .string (String.join (List.replicate n.toNat text)) else .null)
  | _ => none

/-- What an operator of arithmetic makes of two items. None when it is not defined on them. -/
def arithmetic? (op : Arithmetic) (a b : Item) : Option Item :=
  match op, a, b with
  | .add, .null, b => some b
  | .add, a, .null => some a
  | .add, .number a, .number b => some (.number (Number.compute (· + ·) (· + ·) a b))
  | .add, .string a, .string b => some (.string (a ++ b))
  | .add, .array a, .array b => some (.array (a ++ b))
  | .add, .object a, .object b => some (.object (mergeFields a b))
  | .subtract, .number a, .number b => some (.number (Number.compute (· - ·) (· - ·) a b))
  | .subtract, .array a, .array b => some (.array (a.filter fun i => !b.any fun j => (i.compare j).isEq))
  | .multiply, .number a, .number b => some (.number (Number.compute (· * ·) (· * ·) a b))
  | .multiply, .string text, .number n => repeated text n
  | .multiply, .number n, .string text => repeated text n
  | .multiply, .object a, .object b => some (.object (mergeDeep (depth (.object b)) a b))
  | _, _, _ => none

end Item

end Conform.Filter
