import Conform.Proofs.Position

/-!
# Circular definitions

The error that a definition is its own ancestor is raised for what it says and for nothing else (`circular_sound`): the depth
it gives is the length of a way from the root to a node that already lies on the way (`Store.Lasso`). What is compared by its
content, a token, stands below tokens with longer texts only and is never taken for an ancestor of itself.
-/

namespace Conform

/-- A way from a root that comes back to itself: nodes, the root first, and the node they lead to, which is one of them. Nodes are
told apart by their addresses. -/
structure Store.Lasso (s : Store) (root : Definition) (refs : List Ref) (ref : Ref) : Prop where
  /-- The nodes on the way are all different. -/
  nodup : (refs.map Ref.address).Nodup
  /-- The node at the end is the same as exactly one of them. -/
  existsUnique : ∃! i : Fin refs.length, (Definition.node refs[i]).same (.node ref) = true
  /-- The way begins with the root. -/
  head : (refs.map Definition.node ++ [Definition.node ref]).head? = some root
  /-- Every definition on the way holds the next one. -/
  chain : (refs.map Definition.node ++ [Definition.node ref]).IsChain s.Holds
  /-- The node at the end is a node of the store. -/
  lt_size : ref.address < s.size

/-- Two handles are the same definition when they have the same address. -/
theorem same_node_iff {ref ref' : Ref} : (Definition.node ref).same (.node ref') = true ↔ ref.address = ref'.address := by
  simp [Definition.same, Definition.identity]

/-- Of handles with different addresses exactly one is the same definition as a handle with one of these addresses. -/
theorem existsUnique_same_of_mem {refs : List Ref} {ref : Ref} (hrefs : (refs.map Ref.address).Nodup)
    (href : ref.address ∈ refs.map Ref.address) :
    ∃! i : Fin refs.length, (Definition.node refs[i]).same (.node ref) = true := by
  have hdistinct : refs.Pairwise fun first second => first.address ≠ second.address := List.pairwise_map.1 hrefs
  obtain ⟨first, hmem, hfirst⟩ := List.mem_map.1 href
  obtain ⟨i, hi, rfl⟩ := List.mem_iff_getElem.1 hmem
  refine ⟨⟨i, hi⟩, same_node_iff.2 hfirst, fun j hj => Fin.ext ?_⟩
  have haddress : refs[j].address = refs[i].address := (same_node_iff.1 hj).trans hfirst.symm
  by_contra hne
  rcases Nat.lt_or_gt_of_ne hne with hlt | hgt
  · exact List.pairwise_iff_getElem.1 hdistinct j i j.2 hi hlt haddress
  · exact List.pairwise_iff_getElem.1 hdistinct i j hi j.2 hgt haddress.symm

/-- A descent to a node on it is a way that comes back to itself. -/
theorem Store.Descent.lasso {s : Store} {root : Definition} {refs : List Ref} {ref : Ref}
    (h : s.Descent root refs (.node ref)) (hback : ref.address ∈ refs.map Ref.address) : s.Lasso root refs.reverse ref where
  nodup := by
    rw [List.map_reverse]
    exact List.nodup_reverse.2 h.nodup
  existsUnique := by
    refine existsUnique_same_of_mem ?_ ?_
    · rw [List.map_reverse]
      exact List.nodup_reverse.2 h.nodup
    · rw [List.map_reverse]
      exact List.mem_reverse.2 hback
  head := h.head?_chain
  chain := h.isChain
  lt_size := by
    obtain ⟨first, _, hsame, _, hway⟩ := h.returns hback
    obtain ⟨e, hpart, _⟩ := Relation.TransGen.head'_iff.1 hway
    exact hsame ▸ lt_size_of_mem_children hpart.mem_children

/-- The error that a definition is its own ancestor comes from a descent to a node on it. -/
theorem Validator.exists_descent_of_circular {vd : Validator} {v : Value} {d : Definition} {node : String} {depth : Nat}
    (h : (vd.validate v d).result = .error (.circular node depth)) :
    ∃ refs ref, vd.store.Descent d refs (.node ref) ∧ ref.address ∈ refs.map Ref.address ∧ refs.length = depth ∧
      vd.store.describe (.node ref) = node := by
  rw [validate_eq_answer] at h
  obtain ⟨c, hreached, hobstacle⟩ := vd.exists_reached_of_error _ h
  rcases obstacle?_cases hobstacle with ⟨a, hidentity, hpath, hdefect⟩ | ⟨n, _, _, hdefect⟩
  · obtain ⟨refs, ref, hsubject, hnodes, hdescent, hback⟩ := (position_of_reached hreached).exists_descent hidentity hpath
    obtain ⟨hnode, hdepth⟩ := Defect.circular.inj hdefect
    refine ⟨refs, ref, hdescent, hback, ?_, ?_⟩
    · rw [hdepth, Call.depth, hnodes, nodePath, List.length_map]
    · rw [hnode, hsubject, Subject.label]
  · simp at hdefect

/-- On an acyclic definition no run ends with the error that a definition is its own ancestor. -/
theorem Validator.result_ne_circular (vd : Validator) {d : Definition} (h : vd.store.AcyclicFrom d) (v : Value) (node : String)
    (depth : Nat) : (vd.validate v d).result ≠ .error (.circular node depth) := by
  intro herror
  obtain ⟨refs, ref, hdescent, hback, _⟩ := exists_descent_of_circular herror
  exact hdescent.not_acyclicFrom hback h

/-- When a run ends with the error that a definition is its own ancestor, the graph of the root has a cycle, and a way from the
root comes back to itself: it goes through as many different nodes as the depth of the error says before it comes to a node that
is one of them, and the error carries the label of that node. -/
theorem circular_sound (vd : Validator) (v : Value) (d : Definition) (node : String) (depth : Nat)
    (h : (vd.validate v d).result = .error (.circular node depth)) :
    (∃ refs ref, refs.length = depth ∧ vd.store.Lasso d refs ref ∧ vd.store.describe (.node ref) = node) ∧
      ¬vd.store.AcyclicFrom d := by
  obtain ⟨refs, ref, hdescent, hback, hdepth, hnode⟩ := Validator.exists_descent_of_circular h
  refine ⟨⟨refs.reverse, ref, ?_, hdescent.lasso hback, hnode⟩, hdescent.not_acyclicFrom hback⟩
  rw [List.length_reverse, hdepth]

/-- The second object of the linked list leads back to the definition of a cell. -/
theorem circular_sound_linkedList :
    (Validator.validate ⟨LinkedList.heap, LinkedList.store, none⟩ (.object .object 1) (.node LinkedList.cell)).result =
        .error (.circular "shape \x7bnext\x7d" 2) ∧
      (∃ refs ref, refs.length = 2 ∧ LinkedList.store.Lasso (.node LinkedList.cell) refs ref ∧
        LinkedList.store.describe (.node ref) = "shape \x7bnext\x7d") ∧
      ¬LinkedList.store.AcyclicFrom (.node LinkedList.cell) := by
  have hresult :
      (Validator.validate ⟨LinkedList.heap, LinkedList.store, none⟩ (.object .object 1) (.node LinkedList.cell)).result =
        .error (.circular "shape \x7bnext\x7d" 2) := by cbv
  exact ⟨hresult, circular_sound _ _ _ _ _ hresult⟩

end Conform
