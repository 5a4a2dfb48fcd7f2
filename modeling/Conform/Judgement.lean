import Conform.Heap
import Conform.Outcome
import Conform.Store

/-!
# Judging values

`Validator.judge` holds a value against a definition. It descends the definition, never the value: every definition entered
stands one level below the one it is entered from, and the path down to it is at hand. A definition that is its own ancestor, or
that lies below the limit of depth, is a defect and ends the run; the first is looked for before the second, and both before the
value is looked at. Otherwise a token with a suffix is judged as the node it abbreviates, a node by its parts, a leaf by itself.

The descent ends on every store, because a path holds each address of the store at most once and a token abbreviates a node over
shorter tokens. `Validator.judge_eq` states what one level does.
-/

namespace Conform

/-- The definitions being judged, innermost first. The node that a token abbreviates has no identity. -/
abbrev Path := List (Option Identity)

/-- Values, definitions and the deepest level that may be entered (the root is on level 0; without a limit every level may). -/
structure Validator where
  heap : Heap
  store : Store
  limit : Option Nat

/-- Whether the parts of a tuple accept the elements at their positions; a missing element is undefined. -/
def everyPosition {δ : Type} (accepts : Value → δ → Outcome Bool) : List Value → List δ → Outcome Bool
  | _, [] => Outcome.answer true
  | [], d :: ds => do if ← accepts .undefined d then everyPosition accepts [] ds else Outcome.answer false
  | v :: vs, d :: ds => do if ← accepts v d then everyPosition accepts vs ds else Outcome.answer false

/-- Judges a value by the parts of a node, given how a part judges a value and the labels of the parts. -/
def Node.judge {δ : Type} (heap : Heap) (accepts : Value → δ → Outcome Bool) (label : δ → String) (v : Value) :
    Node δ → Outcome Bool
  | .tuple items =>
    match heap.elements? v with
    | none => Outcome.answer false
    | some elements =>
      if items.length < elements.length then Outcome.answer false else everyPosition accepts elements items
  | .bounded element min max =>
    match heap.elements? v with
    | none => Outcome.answer false
    | some elements =>
      if admitsLength min max elements.length then Outcome.every (fun e => accepts e element) elements
      else Outcome.answer false
  | .union alternatives => Outcome.firstOf (accepts v) label 0 alternatives
  | .shape fields =>
    if v.isNonPrimitive then Outcome.every (fun f => accepts (heap.field v f.1) f.2) fields else Outcome.answer false

/-- The kind of a value as a word of a token: the wildcard stands for every kind. -/
def TypeToken.admits (t : TypeToken) (v : Value) : Bool := t.isWildcard || v.kind.name == t.base

/-- The defect that keeps a definition from being entered below a path, if there is one. -/
def defect? (limit : Option Nat) (path : Path) (identity : Option Identity) (label : Unit → String) : Option Defect :=
  if identity.isSome ∧ identity ∈ path then some (.circular (label ()) path.length)
  else match limit with
    | some n => if n < path.length then some (.tooDeep n) else none
    | none => none

/-- The number of addresses of a store that are not on a path. -/
def Store.vacant (s : Store) (path : Path) : Nat := (List.range s.size).countP fun address => some (.node address) ∉ path

/-- How much text a definition has left to abbreviate with. -/
def Definition.rank : Definition → Nat
  | .token text => text.length
  | _ => 0

/-! ### Why the descent ends -/

/-- A definition without an obstacle is not on the path. -/
theorem not_mem_of_defect?_eq_none {limit : Option Nat} {path : Path} {a : Identity} {label : Unit → String}
    (h : defect? limit path (some a) label = none) : some a ∉ path := by
  intro hm
  simp [defect?, hm] at h

/-- A count grows when what it counts grows by a member of the list. -/
theorem countP_lt_countP {α : Type} {p q : α → Bool} {a : α} {l : List α} (ha : a ∈ l)
    (hpq : ∀ x, p x = true → q x = true)
    (hp : p a = false) (hq : q a = true) : l.countP p < l.countP q := by
  induction l with
  | nil => exact absurd ha List.not_mem_nil
  | cons x xs ih =>
    have hle : xs.countP p ≤ xs.countP q := List.countP_mono_left fun y _ hy => hpq y hy
    rcases List.mem_cons.1 ha with rfl | ha
    · rw [List.countP_cons_of_neg (by simp [hp]), List.countP_cons_of_pos hq]
      omega
    · have := ih ha
      by_cases hx : p x = true
      · rw [List.countP_cons_of_pos hx, List.countP_cons_of_pos (hpq x hx)]
        omega
      · rw [List.countP_cons_of_neg hx]
        rw [List.countP_cons]
        omega

/-- Entering a node leaves fewer addresses that are not on the path. -/
theorem Store.vacant_node_lt {s : Store} {path : Path} {address : Nat} (hs : address < s.size)
    (hp : some (.node address) ∉ path) : s.vacant (some (.node address) :: path) < s.vacant path := by
  refine countP_lt_countP (List.mem_range.2 hs) (fun i hi => ?_) (by simp) (by simpa using hp)
  simp only [List.mem_cons, not_or, decide_eq_true_eq] at hi ⊢
  exact hi.2

/-- Entering a token and the node it abbreviates leaves all addresses as they were. -/
theorem Store.vacant_token (s : Store) (path : Path) (text : String) :
    s.vacant (none :: some (.token text) :: path) = s.vacant path := by
  simp [Store.vacant]

/-- What a token abbreviates is over definitions with less text. -/
theorem rank_lt_of_mem_expansion {text : String} {t : TypeToken} {n : Node Definition} {d : Definition}
    (ht : TypeToken.parse? text = some t) (hn : t.expansion? = some n) (hd : d ∈ n.children) :
    d.rank < (Definition.token text).rank := by
  simp only [TypeToken.expansion?] at hn
  split at hn
  · rename_i ho
    have hlt := TypeToken.length_withoutOptional_lt ht ho
    simp only [Option.some.injEq] at hn
    subst hn
    simp only [Node.optional, Node.children, List.mem_cons, List.not_mem_nil, or_false] at hd
    rcases hd with rfl | rfl | rfl
    · exact Nat.lt_of_le_of_lt (Nat.zero_le _) hlt
    · exact Nat.lt_of_le_of_lt (Nat.zero_le _) hlt
    · exact hlt
  · split at hn
    · rename_i ha
      simp only [Option.some.injEq] at hn
      subst hn
      simp only [Node.arrayOf, Node.children, List.mem_singleton] at hd
      exact hd ▸ TypeToken.length_element_lt ht ha
    · simp at hn

/-! ### The judge -/

namespace Validator

/-- The label of a definition in events and defects. -/
def label (vd : Validator) (d : Definition) : String := vd.store.describe d

/-- Judges a value by a definition that is entered below a path. -/
def judge (vd : Validator) (path : Path) (v : Value) (d : Definition) : Outcome Bool :=
  match _hdef : defect? vd.limit path d.identity (fun _ => vd.label d) with
  | some defect => Outcome.stop path.length defect
  | none =>
    match d with
    | .null => Outcome.answer v.isNull
    | .undefined => Outcome.answer v.isUndefined
    | .nominal cls => Outcome.answer (v.isNonPrimitive && v.instanceOf cls)
    | .other _ => Outcome.answer false
    | .node ref =>
      (vd.store.node ref).attach.judge vd.heap (fun w e => vd.judge (some (.node ref.address) :: path) w e.1)
        (fun e => vd.label e.1) v
    | .token text =>
      match _ht : TypeToken.parse? text with
      | none => Outcome.answer false
      | some t =>
        match _hn : t.expansion? with
        | none => Outcome.answer (t.admits v)
        | some n =>
          match defect? vd.limit (some (.token text) :: path) none (fun _ => n.describe) with
          | some defect => Outcome.stop (path.length + 1) defect
          | none =>
            n.attach.judge vd.heap (fun w e => vd.judge (none :: some (.token text) :: path) w e.1) (fun e => vd.label e.1) v
termination_by (vd.store.vacant path, d.rank)
decreasing_by
  · exact Prod.Lex.left _ _ (Store.vacant_node_lt (Store.lt_size_of_mem_children e.2) (not_mem_of_defect?_eq_none _hdef))
  · rw [Store.vacant_token]
    exact Prod.Lex.right _ (rank_lt_of_mem_expansion _ht _hn e.2)

/-- Judging by a node with its parts replaced is judging by the replaced parts. -/
theorem judge_node_map {δ ε : Type} (f : δ → ε) (heap : Heap) (accepts : Value → ε → Outcome Bool) (label : ε → String)
    (v : Value) (n : Node δ) :
    (n.map f).judge heap accepts label v = n.judge heap (fun w d => accepts w (f d)) (fun d => label (f d)) v := by
  have hpos : ∀ (ds : List δ) (vs : List Value),
      everyPosition accepts vs (ds.map f) = everyPosition (fun w d => accepts w (f d)) vs ds := by
    intro ds
    induction ds with
    | nil => intro vs; cases vs <;> rfl
    | cons d ds ih => intro vs; cases vs <;> simp only [List.map_cons, everyPosition, ih]
  have hfirst : ∀ (ds : List δ) (i : Nat),
      Outcome.firstOf (accepts v) label i (ds.map f) = Outcome.firstOf (fun d => accepts v (f d)) (fun d => label (f d)) i ds := by
    intro ds
    induction ds with
    | nil => intro i; rfl
    | cons d ds ih => intro i; simp only [List.map_cons, Outcome.firstOf, ih]
  have hevery : ∀ fields : List (String × δ),
      Outcome.every (fun e : String × ε => accepts (heap.field v e.1) e.2) (fields.map fun e => (e.1, f e.2)) =
        Outcome.every (fun e : String × δ => accepts (heap.field v e.1) (f e.2)) fields := by
    intro fields
    induction fields with
    | nil => rfl
    | cons e fields ih => simp only [List.map_cons, Outcome.every, ih]
  cases n with
  | tuple items => simp only [Node.map, Node.judge, List.length_map, hpos]
  | bounded element min max => rfl
  | union alternatives => simp only [Node.map, Node.judge, hfirst]
  | shape fields => simp only [Node.map, Node.judge, hevery]

/-- Judging by an attached node is judging by the node. -/
theorem judge_node_attach {δ : Type} (heap : Heap) (accepts : Value → δ → Outcome Bool) (label : δ → String) (v : Value)
    (n : Node δ) : n.attach.judge heap (fun w e => accepts w e.1) (fun e => label e.1) v = n.judge heap accepts label v := by
  rw [← judge_node_map, Node.map_val_attach]

/-- What one level of the judge does. -/
theorem judge_eq (vd : Validator) (path : Path) (v : Value) (d : Definition) :
    vd.judge path v d =
      match defect? vd.limit path d.identity (fun _ => vd.label d) with
      | some defect => Outcome.stop path.length defect
      | none =>
        match d with
        | .null => Outcome.answer v.isNull
        | .undefined => Outcome.answer v.isUndefined
        | .nominal cls => Outcome.answer (v.isNonPrimitive && v.instanceOf cls)
        | .other _ => Outcome.answer false
        | .node ref => (vd.store.node ref).judge vd.heap (vd.judge (some (.node ref.address) :: path)) vd.label v
        | .token text =>
          match TypeToken.parse? text with
          | none => Outcome.answer false
          | some t =>
            match t.expansion? with
            | none => Outcome.answer (t.admits v)
            | some n =>
              match defect? vd.limit (some (.token text) :: path) none (fun _ => n.describe) with
              | some defect => Outcome.stop (path.length + 1) defect
              | none => n.judge vd.heap (vd.judge (none :: some (.token text) :: path)) vd.label v := by
  rw [judge]
  split
  · rename_i h
    rw [h]
  · rename_i h
    simp only [h]
    cases d with
    | token text =>
      simp only
      split
      · rename_i ht
        simp only [ht]
      · rename_i t ht
        simp only [ht]
        split
        · rename_i hn
          simp only [hn]
        · rename_i n hn
          simp only [hn]
          split
          · rfl
          · rw [judge_node_attach]
    | node ref => simp only [judge_node_attach]
    | _ => rfl

/-- Judges a value by a definition. -/
def validate (vd : Validator) (v : Value) (d : Definition) : Outcome Bool := vd.judge [] v d

end Validator

end Conform
