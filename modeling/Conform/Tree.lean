import Conform.Store

/-!
# Definition trees

A definition that shares nothing and does not reach itself is a finite tree of leaves and nodes. Planting a tree in a store makes
a new node for every node of the tree, so that no handle stands at two places of it.
-/

namespace Conform

/-- A finite definition. -/
inductive Tree where
  | token (text : String)
  | null
  | undefined
  | nominal (cls : Class)
  | other (value : Value)
  | node (content : Node Tree)

/-- The tree of a definition or a value for missing. -/
def Tree.optional (t : Tree) : Tree := .node (.union [.null, .undefined, t])

namespace Store

mutual

/-- Makes the nodes of a tree. -/
def plant (s : Store) : Tree → Store × Definition
  | .token text => (s, .token text)
  | .null => (s, .null)
  | .undefined => (s, .undefined)
  | .nominal cls => (s, .nominal cls)
  | .other v => (s, .other v)
  | .node (.tuple items) =>
    let (s, ds) := plantItems s items
    s.tuple ds
  | .node (.union alternatives) =>
    let (s, ds) := plantItems s alternatives
    s.union ds
  | .node (.bounded element min max) =>
    let (s, d) := plant s element
    s.arrayOf d min max
  | .node (.shape fields) =>
    let (s, ds) := plantFields s fields
    s.shape ds

/-- Makes the nodes of a row of trees. -/
def plantItems (s : Store) : List Tree → Store × List Definition
  | [] => (s, [])
  | t :: ts =>
    let (s, d) := plant s t
    let (s, ds) := plantItems s ts
    (s, d :: ds)

/-- Makes the nodes of a row of named trees. -/
def plantFields (s : Store) : List (String × Tree) → Store × List (String × Definition)
  | [] => (s, [])
  | (key, t) :: ts =>
    let (s, d) := plant s t
    let (s, ds) := plantFields s ts
    (s, (key, d) :: ds)

end

end Store

end Conform
