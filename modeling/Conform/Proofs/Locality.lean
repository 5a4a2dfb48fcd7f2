import Conform.Proofs.DistinctKeys
import Conform.Proofs.Likeness

/-!
# What a run reads

Values and definitions at hand (`Handle`) lead to contents: the elements of an array, the fields of an object, the body of a
composite definition. Contents hold further handles, and both graphs may come back to themselves. A run reads only what its value
and its definition reach in this way (`Memory.Reaches`): two memories with the same contents there give the same outcome, event by
event (`Memory.validate_eq_of_sameFrom`).
-/

namespace Conform

/-- Where contents stand: a cell of the arrays, a cell of the objects, or an address of the store. -/
inductive Cell where
  | array (cell : Nat)
  | object (cell : Nat)
  | node (address : Nat)
  deriving DecidableEq

/-- What is at hand: a value or a definition. -/
inductive Handle where
  | value (v : Value)
  | definition (d : Definition)

/-- The cell that a handle stands for. Scalars and leaves stand for none, and the kind that a body is held as plays no part. -/
def Handle.cell? : Handle → Option Cell
  | .value (.array cell) => some (.array cell)
  | .value (.object _ cell) => some (.object cell)
  | .definition (.node ref) => some (.node ref.address)
  | _ => none

/-- What a cell contains. -/
inductive Contents where
  | elements (items : List Value)
  | fields (entries : List (String × Value))
  | parts (body : Body Definition)

/-- The handles that contents hold. -/
def Contents.handles : Contents → List Handle
  | .elements items => items.map .value
  | .fields entries => entries.map fun f => .value f.2
  | .parts body => body.children.map .definition

/-- All that handles lead to: the values and the definitions. -/
structure Memory where
  heap : Heap
  store : Store

namespace Memory

/-- The contents of a cell. -/
def contents (m : Memory) : Cell → Contents
  | .array cell => .elements (m.heap.elements cell)
  | .object cell => .fields (m.heap.fields cell)
  | .node address => .parts (m.store.body address)

/-- Whether a handle leads to a cell: it stands for the cell, or the contents of the cell it stands for lead there. -/
inductive Reaches (m : Memory) : Handle → Cell → Prop where
  | here {a : Handle} {cell : Cell} (h : a.cell? = some cell) : Reaches m a cell
  | through {a b : Handle} {held cell : Cell} (h : a.cell? = some held) (hb : b ∈ (m.contents held).handles)
      (hrest : Reaches m b cell) : Reaches m a cell

/-- A handle that stands for no cell leads to none. -/
theorem Reaches.cell?_ne_none {m : Memory} {a : Handle} {cell : Cell} (h : m.Reaches a cell) : a.cell? ≠ none := by
  cases h with
  | here h => simp [h]
  | through h => simp [h]

/-- Whether all that a handle leads to has the same contents in another memory. -/
def SameFrom (m m' : Memory) (a : Handle) : Prop := ∀ cell, m.Reaches a cell → m'.contents cell = m.contents cell

variable {m m' : Memory}

theorem sameFrom_of_cell?_eq_none {a : Handle} (h : a.cell? = none) : m.SameFrom m' a :=
  fun _ hreaches => absurd h hreaches.cell?_ne_none

theorem SameFrom.contents_eq {a : Handle} {cell : Cell} (h : m.SameFrom m' a) (ha : a.cell? = some cell) :
    m'.contents cell = m.contents cell := h cell (.here ha)

/-- What contents hold leads to the same contents when what stands for the contents does. -/
theorem SameFrom.held {a b : Handle} {cell : Cell} (h : m.SameFrom m' a) (ha : a.cell? = some cell)
    (hb : b ∈ (m.contents cell).handles) : m.SameFrom m' b := fun other hreaches => h other (.through ha hb hreaches)

theorem SameFrom.elements_eq {cell : Nat} (h : m.SameFrom m' (.value (.array cell))) :
    m'.heap.elements cell = m.heap.elements cell := Contents.elements.inj (h.contents_eq rfl)

theorem SameFrom.fields_eq {cls : Class} {cell : Nat} (h : m.SameFrom m' (.value (.object cls cell))) :
    m'.heap.fields cell = m.heap.fields cell := Contents.fields.inj (h.contents_eq rfl)

theorem SameFrom.node_eq {ref : Ref} (h : m.SameFrom m' (.definition (.node ref))) : m'.store.node ref = m.store.node ref :=
  congrArg (Body.read ref.kind) (Contents.parts.inj (h.contents_eq rfl))

/-- A property of an object leads to the same contents when the object does. -/
theorem SameFrom.field {cls : Class} {cell : Nat} (h : m.SameFrom m' (.value (.object cls cell))) (key : String) :
    m.SameFrom m' (.value (m.heap.field (.object cls cell) key)) := by
  simp only [Heap.field]
  cases hget : Fields.get? (m.heap.fields cell) key with
  | none => exact sameFrom_of_cell?_eq_none rfl
  | some w => exact h.held rfl (List.mem_map_of_mem (Fields.mem_of_get? hget))

/-- A value that leads to the same contents in two memories is like itself. -/
theorem SameFrom.alike {v : Value} (h : m.SameFrom m' (.value v)) (keys : Set String) : Alike keys m.heap m'.heap v v := by
  refine ⟨fun a b => a = b ∧ m.SameFrom m' (.value a), ?_, rfl, h⟩
  rintro a _ ⟨rfl, ha⟩
  cases a with
  | array cell =>
    refine .array ?_
    rw [ha.elements_eq]
    exact List.forall₂_same.2 fun w hw => ⟨rfl, ha.held rfl (List.mem_map_of_mem hw)⟩
  | object cls cell =>
    refine .object fun key _ => ⟨?_, ha.field key⟩
    simp only [Heap.field, ha.fields_eq]
  | _ => constructor

end Memory

/-! ### Subjects with the same parts -/

/-- Whether all that a subject leads to has the same contents in another memory. -/
def Subject.SameFrom (m m' : Memory) : Subject → Prop
  | .definition d => m.SameFrom m' (.definition d)
  | .expansion n => ∀ d ∈ n.children, m.SameFrom m' (.definition d)

namespace Subject.SameFrom

variable {m m' : Memory} {a b : Subject}

theorem label_eq (h : a.SameFrom m m') : a.label m.store = a.label m'.store := by
  cases a with
  | expansion n => rfl
  | definition d =>
    cases d with
    | node ref => simp only [Subject.label, Store.describe, Memory.SameFrom.node_eq h]
    | _ => rfl

theorem inquiry_eq (h : a.SameFrom m m') (heap : Heap) (v : Value) : a.inquiry heap m.store v = a.inquiry heap m'.store v := by
  cases a with
  | expansion n => rfl
  | definition d =>
    cases d with
    | node ref => simp only [Subject.inquiry, Memory.SameFrom.node_eq h]
    | _ => rfl

/-- The parts of a subject lead to the same contents when the subject does. What a token abbreviates leads to none. -/
theorem part (h : a.SameFrom m m') (hpart : a.Part m.store b) : b.SameFrom m m' := by
  cases hpart with
  | held hmem => exact Memory.SameFrom.held h rfl (List.mem_map_of_mem (m.store.children_node _ ▸ hmem))
  | abbreviated ht hn =>
    intro d hd
    refine Memory.sameFrom_of_cell?_eq_none ?_
    cases d with
    | node ref => exact absurd hd (node_notMem_expansion hn ref)
    | _ => rfl
  | unfolded hmem => exact h _ hmem

end Subject.SameFrom

/-- Calls that are the same, about values in one heap, have the same outcome on two stores when their subject leads to the same
contents. -/
theorem Validator.answer_eq_of_sameFrom {m m' : Memory} (heap : Heap) (limit : Option Nat) (c : Call)
    (hc : c.subject.SameFrom m m') :
    (Validator.mk heap m.store limit).answer c = (Validator.mk heap m'.store limit).answer c := by
  induction c using (Validator.mk heap m.store limit).call_induction with
  | step c ih =>
    have hsame : (Validator.mk heap m.store limit).obstacle? c = (Validator.mk heap m'.store limit).obstacle? c := by
      simp only [obstacle?, hc.label_eq]
    have hinquiry : (Validator.mk heap m.store limit).inquiry c = (Validator.mk heap m'.store limit).inquiry c :=
      hc.inquiry_eq heap c.value
    cases hobstacle : (Validator.mk heap m.store limit).obstacle? c with
    | some defect =>
      rw [answer_of_obstacle?_eq_some hobstacle, answer_of_obstacle?_eq_some (hsame ▸ hobstacle)]
    | none =>
      rw [answer_of_obstacle?_eq_none hobstacle, answer_of_obstacle?_eq_none (hsame ▸ hobstacle), ← hinquiry]
      refine Inquiry.run_eq_of_matches (Inquiry.matches_self _) ?_
      rintro q hq _ ⟨_, rfl⟩
      have hopen : (Validator.mk heap m.store limit).CanOpen c (c.below q) := ⟨hobstacle, q, hq, rfl⟩
      have hpart : q.2.SameFrom m m' := hc.part hopen.part.2
      exact ⟨ih (c.below q) hopen hpart, hpart.label_eq⟩

/-- A run reads only what its value and its definition lead to: in a memory with the same contents there the outcome is the same,
with every limit. -/
theorem Memory.validate_eq_of_sameFrom {m m' : Memory} {v : Value} {d : Definition} (hv : m.SameFrom m' (.value v))
    (hd : m.SameFrom m' (.definition d)) (limit : Option Nat) :
    Validator.validate ⟨m'.heap, m'.store, limit⟩ v d = Validator.validate ⟨m.heap, m.store, limit⟩ v d := by
  have hwithin : (Subject.definition d).Within m.store d := by
    rintro ref rfl
    exact Relation.ReflTransGen.refl
  have hvalues : (Validator.mk m.heap m.store limit).answer (.root v d) =
      ((Validator.mk m.heap m.store limit).withHeap m'.heap).answer (.root v d) :=
    Validator.answer_eq_of_alike (.root v d) hwithin (hv.alike _)
  have hdefinitions := Validator.answer_eq_of_sameFrom m'.heap limit (.root v d) hd
  exact hdefinitions.symm.trans hvalues.symm

end Conform
