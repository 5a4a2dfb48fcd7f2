import Conform.Definition
import Conform.Fields
import Conform.Text.Quoted

/-!
# The store of definitions

A store holds the bodies of composite definitions by address. An address that was never given out holds the empty row, so that
every read is total. New nodes take new addresses; a row or the fields of a shape can also grow in place, which every holder of the
address sees, whatever kind it holds the body as.
-/

namespace Conform

/-- The bodies of composite definitions, by address. -/
structure Store where
  bodies : Array (Body Definition)

/-- An operation that asks for another kind of definition than the one found. -/
structure NotComposite where
  expected : String
  found : String
  deriving DecidableEq, Repr

/-- The text of the error. -/
def NotComposite.message (e : NotComposite) : String := s!"expected a {e.expected} definition, found {e.found}"

namespace Store

/-- The store without any node. -/
def empty : Store := ⟨#[]⟩

/-- The number of bodies. -/
def size (s : Store) : Nat := s.bodies.size

/-- The body at an address. -/
def body (s : Store) (address : Nat) : Body Definition := (s.bodies[address]?).getD (.row [])

/-- The node of a handle. -/
def node (s : Store) (ref : Ref) : Node Definition := (s.body ref.address).read ref.kind

/-- A new composite with the given content. -/
def add (s : Store) (content : Node Definition) : Store × Definition :=
  (⟨s.bodies.push content.body⟩, .node ⟨content.kind, s.size⟩)

/-- The store with a body replaced. -/
def set (s : Store) (address : Nat) (b : Body Definition) : Store := ⟨s.bodies.setIfInBounds address b⟩

/-- Handles of one body hold the same. -/
theorem children_node (s : Store) (ref : Ref) : (s.node ref).children = (s.body ref.address).children := Body.children_read ..

/-- A body that holds anything has been given out. -/
theorem lt_size_of_mem_body {s : Store} {address : Nat} {d : Definition} (h : d ∈ (s.body address).children) :
    address < s.size := by
  by_cases haddress : address < s.bodies.size
  · exact haddress
  · simp [body, Array.getElem?_eq_none (Nat.le_of_not_lt haddress), Body.children] at h

/-- A node that holds anything has been given out. -/
theorem lt_size_of_mem_children {s : Store} {ref : Ref} {d : Definition} (h : d ∈ (s.node ref).children) :
    ref.address < s.size := lt_size_of_mem_body (s.children_node ref ▸ h)

/-- Adding a node leaves the bodies before it and gives the next address the body of the node. -/
theorem body_add (s : Store) (content : Node Definition) (address : Nat) :
    (s.add content).1.body address = if address = s.size then content.body else s.body address := by
  by_cases h : address = s.size
  · simp [add, body, h, size]
  · simp only [add, body, Array.getElem?_push, if_neg h, if_neg (show ¬address = s.bodies.size from h)]

/-- The node added reads as its content. -/
@[simp] theorem node_add_self (s : Store) (content : Node Definition) :
    (s.add content).1.node ⟨content.kind, s.size⟩ = content := by
  rw [node, body_add, if_pos rfl, Body.read_body]

@[simp] theorem size_add (s : Store) (content : Node Definition) : (s.add content).1.size = s.size + 1 := Array.size_push ..

@[simp] theorem size_set (s : Store) (address : Nat) (b : Body Definition) : (s.set address b).size = s.size :=
  Array.size_setIfInBounds ..

/-- Writing gives an address of the store a body and leaves all others. -/
theorem body_set (s : Store) (address other : Nat) (b : Body Definition) :
    (s.set address b).body other = if other = address ∧ address < s.size then b else s.body other := by
  simp only [set, body, Array.getElem?_setIfInBounds, size]
  by_cases h : address = other
  · subst h
    by_cases hlt : address < s.bodies.size <;> simp [hlt]
  · simp [h, Ne.symm h]

/-- An address of the store holds what was written to it. -/
theorem body_set_self {s : Store} {address : Nat} (h : address < s.size) (b : Body Definition) :
    (s.set address b).body address = b := by
  rw [body_set, if_pos ⟨rfl, h⟩]

/-- Writing a body leaves all others. -/
theorem body_set_of_ne (s : Store) {address other : Nat} (h : other ≠ address) (b : Body Definition) :
    (s.set address b).body other = s.body other := by
  rw [body_set, if_neg fun heq => h heq.1]

/-! ### Labels -/

/-- The name of the kind of a definition. -/
def kindName (s : Store) : Definition → String
  | .token _ => "token"
  | .null => "null"
  | .undefined => "undefined"
  | .nominal _ => "nominal"
  | .other _ => "other"
  | .node ref => (s.node ref).kindName

/-- A short label for messages. -/
def describe (s : Store) : Definition → String
  | .token text => "token " ++ Quoted.quote text
  | .nominal cls => "nominal " ++ cls.name
  | .node ref => (s.node ref).describe
  | d => s.kindName d

/-! ### Growing in place -/

/-- Appends to a tuple or a union: to its row. -/
def pushElement (s : Store) (target item : Definition) : Except NotComposite Store :=
  let refused : Except NotComposite Store := .error ⟨"tuple or union", s.kindName target⟩
  match target with
  | .node ref =>
    match s.body ref.address with
    | .row items => .ok (s.set ref.address (.row (items ++ [item])))
    | _ => refused
  | _ => refused

/-- Declares a field of a shape, or replaces it where it stands. -/
def insertField (s : Store) (target : Definition) (key : String) (item : Definition) : Except NotComposite Store :=
  let refused : Except NotComposite Store := .error ⟨"shape", s.kindName target⟩
  match target with
  | .node ref =>
    match s.body ref.address with
    | .shape fields => .ok (s.set ref.address (.shape (Fields.insert fields key item)))
    | _ => refused
  | _ => refused

/-! ### Building -/

/-- A tuple of definitions by position. -/
def tuple (s : Store) (items : List Definition) : Store × Definition := s.add (.tuple items)

/-- A union of alternatives. -/
def union (s : Store) (alternatives : List Definition) : Store × Definition := s.add (.union alternatives)

/-- A definition or a value for missing. -/
def optional (s : Store) (d : Definition) : Store × Definition := s.add (.optional d)

/-- An array with a range of lengths. -/
def arrayOf (s : Store) (element : Definition) (min : Nat) (max : Option Nat) : Store × Definition :=
  s.add (.bounded element min max)

/-- An open shape, its fields declared one after the other. -/
def shape (s : Store) (entries : List (String × Definition)) : Store × Definition := s.add (.shape (Fields.ofList entries))

end Store

end Conform
