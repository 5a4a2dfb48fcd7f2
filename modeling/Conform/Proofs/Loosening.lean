import Conform.Proofs.Building
import Conform.Proofs.Conformance

/-!
# Loosening a definition

A union is loosened by more alternatives, and a shape by fewer fields. All parts of a node count in the same direction: a part that
accepts more makes no node accept less. So what conforms to a definition conforms to it when the nodes that it reaches are
loosened, however deep they stand and at however many places (`Conforms.loosened`). This is said of conformance and not of runs,
because a run after the change may ask quite different parts: an alternative further out may be the first one to accept now.

A definition that grows in place is loosened or tightened. A union that takes one more alternative accepts what it accepted, and a
shape that declares one more field accepts nothing new (`acceptance_under_growth`). This does not extend to a union whose row the
definition holds as a tuple too: the tuple grows with the union and may ask for a part that nobody has (`acceptance_lost_with_tuple`).
-/

namespace Conform

namespace Node

variable {δ : Type}

/-- A node asks for no more than another one: its alternatives are among those of the other one, or its fields include them. -/
inductive Loosened : Node δ → Node δ → Prop where
  | tuple (items : List δ) : Loosened (.tuple items) (.tuple items)
  | bounded (element : δ) (min : Nat) (max : Option Nat) : Loosened (.bounded element min max) (.bounded element min max)
  | union {alternatives alternatives' : List δ} (h : alternatives ⊆ alternatives') :
      Loosened (.union alternatives) (.union alternatives')
  | shape {fields fields' : List (String × δ)} (h : fields' ⊆ fields) : Loosened (.shape fields) (.shape fields')

theorem Loosened.refl (n : Node δ) : n.Loosened n := by
  cases n with
  | tuple items => exact .tuple items
  | bounded element min max => exact .bounded element min max
  | union alternatives => exact .union (List.Subset.refl alternatives)
  | shape fields => exact .shape (List.Subset.refl fields)

end Node

/-- Every node that a definition reaches is loosened to the node of the same handle in another store. -/
def Store.Loosened (s s' : Store) (d : Definition) : Prop :=
  ∀ ref, s.Reaches d (.node ref) → (s.node ref).Loosened (s'.node ref)

/-- What a node holds is loosened with the node. -/
theorem Store.Loosened.part {s s' : Store} {ref : Ref} {e : Definition} (h : s.Loosened s' (.node ref))
    (he : e ∈ (s.node ref).children) : s.Loosened s' e :=
  fun ref' hreaches => h ref' (Relation.ReflTransGen.head (.part he) hreaches)

/-- What conforms to a definition conforms to it after any loosening. The induction is on why the value conforms: the parts it
conforms to are still there, or no longer asked for. -/
theorem Conforms.loosened {heap : Heap} {s s' : Store} {v : Value} {d : Definition} (hs : s.Loosened s' d)
    (h : Conforms heap s v d) : Conforms heap s' v d := by
  induction h with
  | token h => exact .token h
  | null => exact .null
  | undefined => exact .undefined
  | nominal hv h => exact .nominal hv h
  | @tuple v ref items elements hn hv hlen _ ih =>
    have hnode := hn ▸ hs ref Relation.ReflTransGen.refl
    generalize hn' : s'.node ref = n' at hnode
    cases hnode with
    | tuple =>
      refine .tuple hn' hv hlen fun i hi => ih i hi (hs.part ?_)
      rw [hn]
      exact List.getElem_mem hi
  | @bounded v ref min max element elements hn hv hmin hmax _ ih =>
    have hnode := hn ▸ hs ref Relation.ReflTransGen.refl
    generalize hn' : s'.node ref = n' at hnode
    cases hnode with
    | bounded =>
      refine .bounded hn' hv hmin hmax fun e he => ih e he (hs.part ?_)
      rw [hn]
      exact List.mem_singleton_self element
  | @union v ref alternatives d hn hd _ ih =>
    have hnode := hn ▸ hs ref Relation.ReflTransGen.refl
    generalize hn' : s'.node ref = n' at hnode
    cases hnode with
    | union hmore =>
      refine .union hn' (hmore hd) (ih (hs.part ?_))
      rw [hn]
      exact hd
  | @shape v ref fields hn hv _ ih =>
    have hnode := hn ▸ hs ref Relation.ReflTransGen.refl
    generalize hn' : s'.node ref = n' at hnode
    cases hnode with
    | shape hfewer =>
      refine .shape hn' hv fun f hf => ih f (hfewer hf) (hs.part ?_)
      rw [hn]
      exact List.mem_map_of_mem (hfewer hf)

/-- Acyclic definitions without a limit are answered before and after a loosening, and what was accepted still is. -/
theorem accepted_of_loosened {s s' : Store} {d : Definition} (hs : s.Loosened s' d) (hacyclic : s.AcyclicFrom d)
    (hacyclic' : s'.AcyclicFrom d) (heap : Heap) (v : Value) :
    ∃ b b', (Validator.validate ⟨heap, s, none⟩ v d).result = .ok b ∧ (Validator.validate ⟨heap, s', none⟩ v d).result = .ok b' ∧
      (b = true → b' = true) := by
  obtain ⟨b, hb⟩ := Validator.exists_ok_of_acyclicFrom ⟨heap, s, none⟩ v rfl hacyclic
  obtain ⟨b', hb'⟩ := Validator.exists_ok_of_acyclicFrom ⟨heap, s', none⟩ v rfl hacyclic'
  refine ⟨b, b', hb, hb', ?_⟩
  intro htrue
  have hconforms : Conforms heap s v d := (Validator.ok_iff_conforms ⟨heap, s, none⟩ (.root v d) hb).1 htrue
  exact (Validator.ok_iff_conforms ⟨heap, s', none⟩ (.root v d) hb').2 (hconforms.loosened hs)

/-! ### Growing in place -/

namespace Store

variable {s : Store} {ref : Ref}

/-- Whether a definition reaches an address as a tuple. -/
def ReachesTuple (s : Store) (d : Definition) (address : Nat) : Prop :=
  ∃ ref : Ref, ref.address = address ∧ s.Reaches d (.node ref) ∧ ∃ items, s.node ref = .tuple items

/-- The node of a handle after its body, or another one, is written: what the new body reads as, or what was there. -/
theorem node_set_cases (s : Store) (address : Nat) (b : Body Definition) (ref : Ref) :
    (s.set address b).node ref = s.node ref ∨ ref.address = address ∧ (s.set address b).node ref = b.read ref.kind := by
  rw [node, node, body_set]
  split
  · rename_i h
    exact Or.inr ⟨h.1, rfl⟩
  · exact Or.inl rfl

/-- A union takes one more alternative, which loosens every definition that does not hold the row of the union as a tuple. -/
theorem exists_loosened_of_union {alternatives : List Definition} (hn : s.node ref = .union alternatives) {d : Definition}
    (hrow : ¬s.ReachesTuple d ref.address) (item : Definition) :
    ∃ s', s.pushElement (.node ref) item = .ok s' ∧ s.Loosened s' d := by
  have hbody : s.body ref.address = .row alternatives := (Body.read_eq_union_iff.1 hn).1
  refine ⟨s.set ref.address (.row (alternatives ++ [item])), ?_, fun ref' hreaches => ?_⟩
  · exact pushElement_eq_ok_iff.2 ⟨ref, _, rfl, by rw [hbody, Body.push?], rfl⟩
  rcases s.node_set_cases ref.address (.row (alternatives ++ [item])) ref' with hsame | ⟨haddress, hread⟩
  · rw [hsame]
    exact .refl _
  · have hold : s.node ref' = (Body.row alternatives).read ref'.kind := by rw [node, haddress, hbody]
    cases hkind : ref'.kind with
    | union =>
      rw [hread, hold, hkind]
      exact .union (List.subset_append_left alternatives [item])
    | _ =>
      rw [hkind] at hold
      exact absurd ⟨ref', haddress, hreaches, alternatives, hold⟩ hrow

/-- A shape declares one more field, which tightens every definition. -/
theorem exists_loosened_of_shape {fields : List (String × Definition)} {key : String} (hn : s.node ref = .shape fields)
    (hkey : key ∉ Fields.keys fields) (item d : Definition) :
    ∃ s', s.insertField (.node ref) key item = .ok s' ∧ s'.Loosened s d := by
  have hbody : s.body ref.address = .shape fields := Body.read_eq_shape_iff.1 hn
  refine ⟨s.set ref.address (.shape (Fields.insert fields key item)), ?_, fun ref' _ => ?_⟩
  · exact insertField_eq_ok_iff.2 ⟨ref, _, rfl, by rw [hbody, Body.insert?], rfl⟩
  rcases s.node_set_cases ref.address (.shape (Fields.insert fields key item)) ref' with hsame | ⟨haddress, hread⟩
  · rw [hsame]
    exact .refl _
  · have hold : s.node ref' = .shape fields := by rw [node, haddress, hbody, Body.read]
    rw [hread, hold, Body.read, Fields.insert_eq_append hkey]
    exact .shape (List.subset_append_left fields [(key, item)])

end Store

/-- What a definition accepts when a node grows in place, in two parts. The node may be any one, and may stand at any number of
places of the definition; runs have no limit, and the definition is acyclic before and after.
1. A union, whose row the definition does not reach as a tuple, takes any item for one more alternative. Then every value is
   answered before and after, and what was accepted still is.
2. A shape takes a field under any name that is not declared. Then every value is answered before and after, and what is accepted
   already was. -/
theorem acceptance_under_growth (s : Store) (d : Definition) (hacyclic : s.AcyclicFrom d) (ref : Ref) (item : Definition) :
    (∀ alternatives, s.node ref = .union alternatives → ¬s.ReachesTuple d ref.address →
      ∃ s', s.pushElement (.node ref) item = .ok s' ∧
        (s'.AcyclicFrom d → ∀ heap v, ∃ before after, (Validator.validate ⟨heap, s, none⟩ v d).result = .ok before ∧
          (Validator.validate ⟨heap, s', none⟩ v d).result = .ok after ∧ (before = true → after = true))) ∧
    ∀ fields key, s.node ref = .shape fields → key ∉ Fields.keys fields → ∃ s', s.insertField (.node ref) key item = .ok s' ∧
      (s'.AcyclicFrom d → ∀ heap v, ∃ before after, (Validator.validate ⟨heap, s, none⟩ v d).result = .ok before ∧
        (Validator.validate ⟨heap, s', none⟩ v d).result = .ok after ∧ (after = true → before = true)) := by
  constructor
  · intro alternatives hn hrow
    obtain ⟨s', hs', hloosened⟩ := Store.exists_loosened_of_union hn hrow item
    exact ⟨s', hs', fun hacyclic' heap v => accepted_of_loosened hloosened hacyclic hacyclic' heap v⟩
  · intro fields key hn hkey
    obtain ⟨s', hs', hloosened⟩ := Store.exists_loosened_of_shape hn hkey item d
    refine ⟨s', hs', fun hacyclic' heap v => ?_⟩
    obtain ⟨after, before, hafter, hbefore, hkept⟩ := accepted_of_loosened hloosened hacyclic' hacyclic heap v
    exact ⟨before, after, hbefore, hafter, hkept⟩

/-! ### A household -/

namespace Household

/-- The persons of a household. -/
def person : Ref := ⟨.union, 1⟩

/-- The home of a household. -/
def home : Ref := ⟨.shape, 2⟩

/-- A household with a head and an heir, both persons, and a home of which nothing is asked. -/
def store : Store :=
  ⟨#[.shape [("head", .node person), ("heir", .node person), ("home", .node home)], .row [.nominal .object], .shape []]⟩

/-- The household. -/
def household : Definition := .node ⟨.shape, 0⟩

/-- Persons may be missing. -/
def lenient : Store := store.set 1 (.row [.nominal .object, .null])

/-- A home has a door. -/
def strict : Store := store.set 2 (.shape [("door", .nominal .object)])

/-- A household without an heir. -/
def heap : Heap := ⟨#[], #[[("head", .object .object 1), ("heir", .null), ("home", .object .object 2)], [], []], 0⟩

theorem acyclicFrom : store.AcyclicFrom household := Store.acyclicFrom_of_lt (by decide) _

theorem acyclicFrom_lenient : lenient.AcyclicFrom household := Store.acyclicFrom_of_lt (by decide) _

theorem acyclicFrom_strict : strict.AcyclicFrom household := Store.acyclicFrom_of_lt (by decide) _

/-- A household holds no tuple. -/
theorem not_reachesTuple (address : Nat) : ¬store.ReachesTuple household address := by
  have hreaches : ∀ d, store.Reaches household d → d ∈ [household, .node person, .node home, .nominal .object] := by
    intro d hd
    induction hd with
    | refl => exact List.mem_cons_self
    | @tail d e _ hpart ih =>
      simp only [List.mem_cons, List.not_mem_nil, or_false] at ih
      rcases ih with rfl | rfl | rfl | rfl
      · have hmem : e ∈ [Definition.node person, .node person, .node home] := hpart.mem_children
        simp only [List.mem_cons, List.not_mem_nil, or_false] at hmem ⊢
        tauto
      · have hmem : e ∈ [Definition.nominal .object] := hpart.mem_children
        simp only [List.mem_cons, List.not_mem_nil, or_false] at hmem ⊢
        tauto
      · have hmem : e ∈ ([] : List Definition) := hpart.mem_children
        cases hmem
      · cases hpart
  rintro ⟨ref, _, href, items, hn⟩
  have hmem := hreaches _ href
  simp only [household, List.mem_cons, Definition.node.injEq, reduceCtorEq, List.not_mem_nil, or_false] at hmem
  rcases hmem with rfl | rfl | rfl <;> cases hn

end Household

/-- Persons stand at two places of a household, and the home below it. Whatever is accepted stays accepted when persons may be
missing, and was accepted before a home has a door; a household without an heir is accepted only once persons may be missing. -/
theorem acceptance_under_growth_household :
    Household.store.AcyclicFrom Household.household ∧
      (∀ heap v, ∃ before after,
        (Validator.validate ⟨heap, Household.store, none⟩ v Household.household).result = .ok before ∧
        (Validator.validate ⟨heap, Household.lenient, none⟩ v Household.household).result = .ok after ∧
        (before = true → after = true)) ∧
      (∀ heap v, ∃ before after,
        (Validator.validate ⟨heap, Household.store, none⟩ v Household.household).result = .ok before ∧
        (Validator.validate ⟨heap, Household.strict, none⟩ v Household.household).result = .ok after ∧
        (after = true → before = true)) ∧
      (Validator.validate ⟨Household.heap, Household.store, none⟩ (.object .object 0) Household.household).result = .ok false ∧
      (Validator.validate ⟨Household.heap, Household.lenient, none⟩ (.object .object 0) Household.household).result = .ok true := by
  obtain ⟨hunion, _⟩ :=
    acceptance_under_growth Household.store Household.household Household.acyclicFrom Household.person .null
  obtain ⟨_, hshape⟩ :=
    acceptance_under_growth Household.store Household.household Household.acyclicFrom Household.home (.nominal .object)
  obtain ⟨s', hs', hlenient⟩ := hunion _ rfl (Household.not_reachesTuple _)
  obtain ⟨s'', hs'', hstrict⟩ := hshape _ "door" rfl (by decide)
  have hpush : Household.store.pushElement (.node Household.person) .null = .ok Household.lenient := rfl
  have hinsert : Household.store.insertField (.node Household.home) "door" (.nominal .object) = .ok Household.strict := rfl
  obtain rfl : Household.lenient = s' := Except.ok.inj (hpush.symm.trans hs')
  obtain rfl : Household.strict = s'' := Except.ok.inj (hinsert.symm.trans hs'')
  refine ⟨Household.acyclicFrom, hlenient Household.acyclicFrom_lenient, hstrict Household.acyclicFrom_strict, ?_, ?_⟩
  · cbv
  · cbv

/-! ### A row held twice -/

namespace Twofold

/-- A row held as a tuple. -/
def record : Definition := .node ⟨.tuple, 1⟩

/-- The same row held as a union. -/
def choice : Definition := .node ⟨.union, 1⟩

/-- A row of one class, and the pair of the tuple and the union that it is held as. -/
def store : Store := ⟨#[.row [record, choice], .row [.nominal .object]]⟩

/-- The row has taken null. -/
def grown : Store := store.set 1 (.row [.nominal .object, .null])

/-- The pair of the tuple and the union. -/
def pair : Definition := .node ⟨.tuple, 0⟩

/-- A list of two parts: a list of one object, and the object. -/
def heap : Heap := ⟨#[[.array 1, .object .object 0], [.object .object 0]], #[[]], 0⟩

end Twofold

/-- A union that takes one more alternative may lose what was accepted when its row is held as a tuple too. The union is reached
from the pair, and the pair is acyclic before and after; but the tuple grows with the union, and asks the list of one object for
null as its second element, which is undefined. -/
theorem acceptance_lost_with_tuple :
    Twofold.store.AcyclicFrom Twofold.pair ∧ Twofold.store.Reaches Twofold.pair Twofold.choice ∧
      Twofold.store.kindName Twofold.choice = "union" ∧
      Twofold.store.pushElement Twofold.choice .null = .ok Twofold.grown ∧
      Twofold.grown.AcyclicFrom Twofold.pair ∧
      (Validator.validate ⟨Twofold.heap, Twofold.store, none⟩ (.array 0) Twofold.pair).result = .ok true ∧
      (Validator.validate ⟨Twofold.heap, Twofold.grown, none⟩ (.array 0) Twofold.pair).result = .ok false := by
  refine ⟨Store.acyclicFrom_of_lt (by decide) _, ?_, rfl, rfl, Store.acyclicFrom_of_lt (by decide) _, ?_, ?_⟩
  · exact Relation.ReflTransGen.single (.part (List.mem_cons_of_mem Twofold.record List.mem_cons_self))
  · cbv
  · cbv

end Conform
