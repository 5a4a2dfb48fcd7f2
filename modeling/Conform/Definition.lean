import Conform.Value
import Conform.Token

/-!
# Definitions

What a value is held against. A leaf stands for itself: a type token, one of the literals null and undefined, a class, or any
other value, which accepts nothing. A composite (a tuple, a union, a bounded array or a shape) is a handle to a body in a store,
so that it may be shared and may reach itself. The kind of a composite belongs to the handle: a row of definitions may be held as
a tuple in one place and as a union in another. A body read as a kind is a node. Nodes and bodies are generic in what they hold:
those of a store hold definitions, those of a finite tree hold trees.
-/

namespace Conform

/-- The kinds of composites. -/
inductive NodeKind where
  | tuple
  | union
  | bounded
  | shape
  deriving DecidableEq, Repr

/-- The handle of a composite: the kind it is held as, and the address of its body. -/
structure Ref where
  kind : NodeKind
  address : Nat
  deriving DecidableEq, Repr

/-- A definition: a leaf, or the handle of a node. -/
inductive Definition where
  | token (text : String)
  | null
  | undefined
  | nominal (cls : Class)
  | other (value : Value)
  | node (ref : Ref)
  deriving DecidableEq

/-- The content of a composite, over the type of what it holds. -/
inductive Node (δ : Type) where
  | tuple (items : List δ)
  | union (alternatives : List δ)
  | bounded (element : δ) (min : Nat) (max : Option Nat)
  | shape (fields : List (String × δ))
  deriving DecidableEq

/-- What stands at an address. A row is the body of tuples and of unions alike. -/
inductive Body (δ : Type) where
  | row (items : List δ)
  | bounded (element : δ) (min : Nat) (max : Option Nat)
  | shape (fields : List (String × δ))
  deriving DecidableEq

namespace Node

variable {δ ε : Type}

/-- What a node holds directly, in order. -/
def children : Node δ → List δ
  | .tuple items => items
  | .union alternatives => alternatives
  | .bounded element _ _ => [element]
  | .shape fields => fields.map Prod.snd

/-- The node with everything it holds replaced. -/
def map (f : δ → ε) : Node δ → Node ε
  | .tuple items => .tuple (items.map f)
  | .union alternatives => .union (alternatives.map f)
  | .bounded element min max => .bounded (f element) min max
  | .shape fields => .shape (fields.map fun e => (e.1, f e.2))

/-- The node with everything it holds paired with the fact that it is held. -/
def attach : (n : Node δ) → Node { d // d ∈ n.children }
  | .tuple items => .tuple items.attach
  | .union alternatives => .union alternatives.attach
  | .bounded element min max => .bounded ⟨element, List.mem_singleton_self element⟩ min max
  | .shape fields => .shape (fields.attach.map fun e => (e.1.1, ⟨e.1.2, List.mem_map_of_mem e.2⟩))

/-- Attaching and forgetting the facts again changes nothing. -/
theorem map_val_attach (n : Node δ) : n.attach.map Subtype.val = n := by
  cases n with
  | tuple items => exact congrArg Node.tuple (List.attach_map_subtype_val items)
  | union alternatives => exact congrArg Node.union (List.attach_map_subtype_val alternatives)
  | bounded element min max => rfl
  | shape fields =>
    simp only [attach, map, List.map_map, Node.shape.injEq]
    exact List.attach_map_subtype_val fields

/-- The name of a kind of node. -/
def kindName : Node δ → String
  | .tuple _ => "tuple"
  | .union _ => "union"
  | .bounded _ _ _ => "bounded array"
  | .shape _ => "shape"

/-- A short label: the kind and the number of parts, or the names of the fields. -/
def describe : Node δ → String
  | .tuple items => s!"tuple of {items.length}"
  | .union alternatives => s!"union of {alternatives.length}"
  | .bounded _ _ _ => "bounded array"
  | .shape fields => "shape \x7b" ++ ", ".intercalate (fields.map Prod.fst) ++ "\x7d"

/-- The kind of a node. -/
def kind : Node δ → NodeKind
  | .tuple _ => .tuple
  | .union _ => .union
  | .bounded _ _ _ => .bounded
  | .shape _ => .shape

/-- The body of a node. -/
def body : Node δ → Body δ
  | .tuple items => .row items
  | .union alternatives => .row alternatives
  | .bounded element min max => .bounded element min max
  | .shape fields => .shape fields

/-- The union that takes a value for missing: null, undefined, or what the definition accepts. -/
def optional (d : Definition) : Node Definition := .union [.null, .undefined, d]

/-- The arrays of any length whose elements the definition accepts. -/
def arrayOf (d : Definition) : Node Definition := .bounded d 0 none

end Node

namespace Body

variable {δ : Type}

/-- A body read as a kind. The kind decides for a row alone: other bodies are of one kind. -/
def read (kind : NodeKind) : Body δ → Node δ
  | .row items =>
    match kind with
    | .union => .union items
    | _ => .tuple items
  | .bounded element min max => .bounded element min max
  | .shape fields => .shape fields

/-- What a body holds directly, in order. -/
def children : Body δ → List δ
  | .row items => items
  | .bounded element _ _ => [element]
  | .shape fields => fields.map Prod.snd

/-- A body holds the same whatever it is read as. -/
@[simp] theorem children_read (b : Body δ) (kind : NodeKind) : (b.read kind).children = b.children := by
  cases b <;> cases kind <;> rfl

@[simp] theorem body_read (b : Body δ) (kind : NodeKind) : (b.read kind).body = b := by
  cases b <;> cases kind <;> rfl

/-- A node is its body read as its kind. -/
@[simp] theorem read_body (n : Node δ) : n.body.read n.kind = n := by
  cases n <;> rfl

@[simp] theorem children_body (n : Node δ) : n.body.children = n.children := by
  cases n <;> rfl

/-- A union is a row that is held as a union. -/
theorem read_eq_union_iff {b : Body δ} {kind : NodeKind} {alternatives : List δ} :
    b.read kind = .union alternatives ↔ b = .row alternatives ∧ kind = .union := by
  cases b <;> cases kind <;> simp [read]

/-- A shape is the body of a shape, whatever it is held as. -/
theorem read_eq_shape_iff {b : Body δ} {kind : NodeKind} {fields : List (String × δ)} :
    b.read kind = .shape fields ↔ b = .shape fields := by
  cases b <;> cases kind <;> simp [read]

end Body

/-- Whether a length lies between two bounds; without an upper bound every length that is not below the lower one does. -/
def admitsLength (min : Nat) (max : Option Nat) (length : Nat) : Bool :=
  min ≤ length && max.all (fun m => length ≤ m)

/-- What makes two handles the same definition: the text of a token, the class, the literal, the address of a node. -/
inductive Identity where
  | token (text : String)
  | null
  | undefined
  | cls (serial : Nat)
  | node (address : Nat)
  deriving DecidableEq, Repr

/-- The identity of a definition. A value that stands for nothing has none. Handles of one body are the same, whatever kind it is
held as. -/
def Definition.identity : Definition → Option Identity
  | .token text => some (.token text)
  | .null => some .null
  | .undefined => some .undefined
  | .nominal cls => some (.cls cls.serial)
  | .other _ => none
  | .node ref => some (.node ref.address)

/-- Whether two handles stand for the same definition. -/
def Definition.same (d e : Definition) : Bool :=
  match d.identity, e.identity with
  | some a, some b => a == b
  | _, _ => false

/-- A value taken as a definition: null and undefined are the literals, a string is a token, any other value accepts nothing. -/
def Definition.ofValue : Value → Definition
  | .null => .null
  | .undefined => .undefined
  | .string text => .token text
  | v => .other v

/-- What a type token with a suffix abbreviates: a union for `?`, else an array for `[]`. A word abbreviates nothing. -/
def TypeToken.expansion? (t : TypeToken) : Option (Node Definition) :=
  if t.optional then some (.optional (.token t.withoutOptional.text))
  else if t.array then some (.arrayOf (.token t.element.text))
  else none

end Conform
