import Mathlib
import Conform.Store

/-!
# The graph of definitions

A node of a store holds its parts; definitions reach others by holding them, directly or through nodes between. What a node holds
depends on its address and not on the kind it is held as, so nodes are told apart by their addresses. `AcyclicFrom` says of a
definition that no address it reaches comes back to itself, under whatever kinds. A `Descent` goes down from a root through nodes
that are all different, so it is no longer than the number of nodes the root reaches (`Descent.length_le`), it is a chain of
parts (`Descent.isChain`), and to come back to a node on it is a cycle (`Descent.not_acyclicFrom`).
-/

namespace Conform

namespace Store

/-- Whether a definition is a node that holds another definition directly. -/
inductive Holds (s : Store) : Definition → Definition → Prop where
  | part {ref : Ref} {e : Definition} (h : e ∈ (s.node ref).children) : Holds s (.node ref) e

/-- Whether a definition is reached from another one, which reaches itself. -/
def Reaches (s : Store) : Definition → Definition → Prop := Relation.ReflTransGen s.Holds

/-- The nodes that a definition reaches, by address: every tuple, union, bounded array and shape of its graph. -/
def reachable (s : Store) (d : Definition) : Set Nat := {address | ∃ ref : Ref, ref.address = address ∧ s.Reaches d (.node ref)}

/-- Whether the node at an address comes back to the address. -/
def Returns (s : Store) (address : Nat) : Prop :=
  ∃ ref ref' : Ref, ref.address = address ∧ ref'.address = address ∧ Relation.TransGen s.Holds (.node ref) (.node ref')

/-- Whether no node that a definition reaches comes back to itself. -/
def AcyclicFrom (s : Store) (d : Definition) : Prop := ∀ address ∈ s.reachable d, ¬s.Returns address

/-- Only a node holds anything. -/
theorem Holds.mem_children {s : Store} {ref : Ref} {e : Definition} (h : s.Holds (.node ref) e) : e ∈ (s.node ref).children := by
  cases h with
  | part h => exact h

/-- What a node holds stands in the body at its address. -/
theorem holds_node_iff {s : Store} {ref : Ref} {e : Definition} :
    s.Holds (.node ref) e ↔ e ∈ (s.body ref.address).children := by
  rw [← children_node]
  exact ⟨Holds.mem_children, .part⟩

/-- Handles of one body hold the same. -/
theorem Holds.of_address_eq {s : Store} {ref ref' : Ref} {e : Definition} (h : s.Holds (.node ref) e)
    (hsame : ref'.address = ref.address) : s.Holds (.node ref') e := by
  rw [holds_node_iff] at h ⊢
  rwa [hsame]

/-- Handles of one body lead to the same. -/
theorem transGen_of_address_eq {s : Store} {ref ref' : Ref} {e : Definition} (h : Relation.TransGen s.Holds (.node ref) e)
    (hsame : ref'.address = ref.address) : Relation.TransGen s.Holds (.node ref') e := by
  obtain ⟨d, hpart, hrest⟩ := Relation.TransGen.head'_iff.1 h
  exact Relation.TransGen.head' (hpart.of_address_eq hsame) hrest

/-- A node that is reached is one of the nodes reached. -/
theorem mem_reachable_of_reaches {s : Store} {d : Definition} {ref : Ref} (h : s.Reaches d (.node ref)) :
    ref.address ∈ s.reachable d := ⟨ref, rfl, h⟩

/-- What a part reaches, the node that holds it reaches. -/
theorem reachable_subset_of_holds {s : Store} {d e : Definition} (h : s.Holds d e) : s.reachable e ⊆ s.reachable d := by
  rintro address ⟨ref, hsame, hreaches⟩
  exact ⟨ref, hsame, Relation.ReflTransGen.head h hreaches⟩

/-- A node that comes to a node of its own address is on a cycle. -/
theorem returns_of_transGen {s : Store} {ref ref' : Ref} (h : Relation.TransGen s.Holds (.node ref) (.node ref'))
    (hsame : ref'.address = ref.address) : s.Returns ref.address := ⟨ref, ref', rfl, hsame, h⟩

/-- What comes back to its address under another kind goes round from there again, so some handle of the address comes back to
itself. -/
theorem returns_iff {s : Store} {address : Nat} :
    s.Returns address ↔ ∃ ref : Ref, ref.address = address ∧ Relation.TransGen s.Holds (.node ref) (.node ref) := by
  constructor
  · rintro ⟨ref, ref', rfl, hsame, hway⟩
    exact ⟨ref', hsame, transGen_of_address_eq hway hsame⟩
  · rintro ⟨ref, haddress, hcycle⟩
    exact ⟨ref, ref, haddress, haddress, hcycle⟩

/-- A definition is acyclic when no handle that it reaches comes back to itself. -/
theorem acyclicFrom_iff {s : Store} {d : Definition} :
    s.AcyclicFrom d ↔ ∀ ref, s.Reaches d (.node ref) → ¬Relation.TransGen s.Holds (.node ref) (.node ref) := by
  constructor
  · intro hacyclic ref hreaches hcycle
    exact hacyclic ref.address (mem_reachable_of_reaches hreaches) (returns_of_transGen hcycle rfl)
  · rintro h address ⟨start, hstart, hreaches⟩ hreturns
    obtain ⟨ref, href, hcycle⟩ := returns_iff.1 hreturns
    have hfirst : Relation.TransGen s.Holds (.node start) (.node ref) :=
      transGen_of_address_eq hcycle (hstart.trans href.symm)
    exact h ref (hreaches.trans hfirst.to_reflTransGen) hcycle

/-- A definition reaches finitely many nodes: itself, and nodes that are parts of nodes of the store. -/
theorem finite_reachable (s : Store) (d : Definition) : (s.reachable d).Finite := by
  have hparts : {ref | ∃ i < s.size, Definition.node ref ∈ (s.body i).children}.Finite := by
    have hset : {ref | ∃ i < s.size, Definition.node ref ∈ (s.body i).children} =
        ⋃ i ∈ (Finset.range s.size : Set Nat), Set.preimage Definition.node {e | e ∈ (s.body i).children} := by
      ext ref
      simp
    rw [hset]
    refine Set.Finite.biUnion (Finset.finite_toSet _) fun i _ => ?_
    exact (List.finite_toSet _).preimage fun a _ b _ hab => Definition.node.inj hab
  have hrefs := (Set.Finite.preimage (fun a _ b _ hab => Definition.node.inj hab) (Set.finite_singleton d)).union hparts
  refine (hrefs.image Ref.address).subset ?_
  rintro _ ⟨ref, rfl, hreaches⟩
  refine ⟨ref, ?_, rfl⟩
  rcases Relation.ReflTransGen.cases_tail hreaches with hd | ⟨e, _, he⟩
  · exact Or.inl hd
  · cases he with
    | @part owner _ hmem => exact Or.inr ⟨owner.address, lt_size_of_mem_children hmem, s.children_node owner ▸ hmem⟩

/-- A graph whose parts all have a smaller rank than their node has no cycle. -/
theorem acyclicFrom_of_rank {s : Store} (rank : Nat → Nat)
    (h : ∀ i (ref : Ref), Definition.node ref ∈ (s.body i).children → rank ref.address < rank i) (d : Definition) :
    s.AcyclicFrom d := by
  have hstep : ∀ (ref : Ref) e, Relation.TransGen s.Holds (.node ref) e →
      ∀ ref' : Ref, e = .node ref' → rank ref'.address < rank ref.address := by
    intro ref e hpath
    induction hpath with
    | single hpart =>
      rintro ref' rfl
      exact h _ _ (holds_node_iff.1 hpart)
    | tail _ hpart ih =>
      rintro ref' rfl
      cases hpart with
      | part hmem => exact (h _ _ (s.children_node _ ▸ hmem)).trans (ih _ rfl)
  rintro address _ ⟨ref, ref', rfl, hsame, hcycle⟩
  have hless := hstep ref _ hcycle ref' rfl
  rw [hsame] at hless
  exact Nat.lt_irrefl _ hless

/-- A graph has no cycle when every node holds nodes with larger addresses only. -/
theorem acyclicFrom_of_lt {s : Store}
    (h : ∀ i < s.size, ∀ j < s.size, (∃ e ∈ (s.body i).children, e.identity = some (.node j)) → i < j) (d : Definition) :
    s.AcyclicFrom d := by
  refine acyclicFrom_of_rank (fun address => s.size - address) (fun i ref hmem => ?_) d
  have hi := lt_size_of_mem_body hmem
  by_cases hj : ref.address < s.size
  · have := h i hi ref.address hj ⟨_, hmem, rfl⟩
    omega
  · omega

/-! ### Descents -/

/-- A way down from a root to a definition through nodes at different addresses, the innermost first. -/
inductive Descent (s : Store) (root : Definition) : List Ref → Definition → Prop where
  | root : Descent s root [] root
  | part {refs : List Ref} {ref : Ref} {e : Definition} :
      Descent s root refs (.node ref) → ref.address ∉ refs.map Ref.address → s.Holds (.node ref) e →
        Descent s root (ref :: refs) e

namespace Descent

variable {s : Store} {root d : Definition} {refs : List Ref}

/-- The nodes of a descent are different. -/
theorem nodup (h : s.Descent root refs d) : (refs.map Ref.address).Nodup := by
  induction h with
  | root => exact List.nodup_nil
  | part _ hnew _ ih => exact List.nodup_cons.2 ⟨hnew, ih⟩

/-- A descent comes to what its root reaches. -/
theorem reaches (h : s.Descent root refs d) : s.Reaches root d := by
  induction h with
  | root => exact Relation.ReflTransGen.refl
  | part _ _ hpart ih => exact Relation.ReflTransGen.tail ih hpart

/-- The nodes of a descent are reached from its root. -/
theorem mem_reachable (h : s.Descent root refs d) : ∀ address ∈ refs.map Ref.address, address ∈ s.reachable root := by
  induction h with
  | root => simp
  | part hd _ _ ih =>
    intro address hmem
    rcases List.mem_cons.1 hmem with rfl | hmem
    · exact mem_reachable_of_reaches hd.reaches
    · exact ih address hmem

/-- Different nodes that a definition reaches are no more than all nodes it reaches. -/
theorem length_le_ncard_reachable {l : List Nat} (hl : l.Nodup) (h : ∀ address ∈ l, address ∈ s.reachable root) :
    l.length ≤ (s.reachable root).ncard := by
  rw [← List.toFinset_card_of_nodup hl, ← Set.ncard_coe_finset]
  refine Set.ncard_le_ncard (fun address hmem => h address ?_) (s.finite_reachable root)
  simpa using hmem

/-- A descent is no longer than the number of nodes its root reaches. -/
theorem length_le (h : s.Descent root refs d) : refs.length ≤ (s.reachable root).ncard := by
  rw [← List.length_map Ref.address]
  exact length_le_ncard_reachable h.nodup h.mem_reachable

/-- A node of a descent reaches what the descent comes to, by at least one step. -/
theorem transGen_of_mem (h : s.Descent root refs d) : ∀ ref ∈ refs, Relation.TransGen s.Holds (.node ref) d := by
  induction h with
  | root => simp
  | part _ _ hpart ih =>
    intro ref hmem
    rcases List.mem_cons.1 hmem with rfl | hmem
    · exact Relation.TransGen.single hpart
    · exact (ih ref hmem).tail hpart

/-- To come back to the address of a node of a descent is to return to it. -/
theorem returns {ref : Ref} (h : s.Descent root refs (.node ref)) (hback : ref.address ∈ refs.map Ref.address) :
    s.Returns ref.address := by
  obtain ⟨first, hmem, hsame⟩ := List.mem_map.1 hback
  exact ⟨first, ref, hsame, rfl, h.transGen_of_mem first hmem⟩

/-- Coming back to a node of a descent closes a cycle. -/
theorem not_acyclicFrom {ref : Ref} (h : s.Descent root refs (.node ref)) (hback : ref.address ∈ refs.map Ref.address) :
    ¬s.AcyclicFrom root :=
  fun hacyclic => hacyclic ref.address (mem_reachable_of_reaches h.reaches) (h.returns hback)

/-- The definitions on a descent, the root first. -/
def chain (refs : List Ref) : List Definition := refs.reverse.map .node

/-- A descent followed by what it comes to is a chain of parts. -/
theorem isChain (h : s.Descent root refs d) : (chain refs ++ [d]).IsChain s.Holds := by
  induction h with
  | root => simp [chain]
  | @part refs ref e _ _ hpart ih =>
    have hsplit : chain (ref :: refs) = chain refs ++ [.node ref] := by simp [chain]
    rw [hsplit]
    refine List.isChain_append.2 ⟨ih, List.isChain_singleton e, ?_⟩
    simp [hpart]

/-- A descent followed by what it comes to begins with the root. -/
theorem head?_chain (h : s.Descent root refs d) : (chain refs ++ [d]).head? = some root := by
  induction h with
  | root => rfl
  | @part refs ref e _ _ _ ih =>
    have hsplit : chain (ref :: refs) = chain refs ++ [.node ref] := by simp [chain]
    rw [hsplit, List.head?_append, ih]
    rfl

end Descent

end Store

end Conform
