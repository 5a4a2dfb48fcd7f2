import Conform.Proofs.Cycle

/-!
# How deep a run goes

Every run ends, whatever reaches itself (`depth_bounded`): the calls it makes are finitely many and never stand more than four
levels below the number of nodes that the root reaches. Four levels are what a token with both suffixes takes below the nodes.
-/

namespace Conform

namespace Validator

variable {vd : Validator} {v : Value} {d : Definition}

/-- No call opens others in an infinite row. -/
theorem acc_opens (vd : Validator) (c : Call) : Acc (fun c' c => vd.Opens c c') c :=
  Subrelation.accessible Opens.canOpen ((wellFounded_canOpen vd).apply c)

/-- A call leads to finitely many calls. -/
theorem finite_reached (vd : Validator) (c : Call) : {c' | vd.Reached c c'}.Finite := by
  induction c using vd.call_induction with
  | step c ih =>
    have hopened : {c' | vd.Opens c c'}.Finite := by
      refine ((List.finite_toSet (vd.inquiry c).questions).image c.below).subset fun c' hopens => ?_
      obtain ⟨_, q, hq, rfl⟩ := hopens.canOpen
      exact ⟨q, hq, rfl⟩
    refine ((Set.finite_singleton c).union (hopened.biUnion fun c' hopens => ih c' hopens.canOpen)).subset fun c' hreached => ?_
    rcases Relation.ReflTransGen.cases_head hreached with rfl | ⟨next, hopens, hrest⟩
    · exact Or.inl rfl
    · exact Or.inr (Set.mem_biUnion hopens hrest)

/-- The calls of a run stand at most four levels below the number of nodes that the root reaches. -/
theorem depth_le_of_reached {c : Call} (h : vd.Reached (.root v d) c) : c.depth ≤ (vd.store.reachable d).ncard + 4 :=
  (position_of_reached h).length_le

/-- The depth of the error that a definition is its own ancestor is at least one and at most the number of nodes that the root
reaches. -/
theorem depth_of_circular {node : String} {depth : Nat} (h : (vd.validate v d).result = .error (.circular node depth)) :
    1 ≤ depth ∧ depth ≤ (vd.store.reachable d).ncard := by
  obtain ⟨refs, ref, hdescent, hback, rfl, _⟩ := exists_descent_of_circular h
  exact ⟨List.length_pos_of_mem (List.mem_map.1 hback).choose_spec.1, hdescent.length_le⟩

end Validator

/-- How deep a run goes, in four parts, over the nodes that the root reaches.
1. The calls of the run end: no row of them is infinite, and they are finitely many.
2. No call stands more than four levels below the number of nodes.
3. When a definition is its own ancestor, the depth of the error is at least one and at most the number of nodes.
4. A limit of four levels below the number of nodes, or of more, is never exceeded. -/
theorem depth_bounded (vd : Validator) (v : Value) (d : Definition) :
    (Acc (fun c' c => vd.Opens c c') (.root v d) ∧ {c | vd.Reached (.root v d) c}.Finite) ∧
    (∀ c, vd.Reached (.root v d) c → c.depth ≤ (vd.store.reachable d).ncard + 4) ∧
    (∀ node depth, (vd.validate v d).result = .error (.circular node depth) →
      1 ≤ depth ∧ depth ≤ (vd.store.reachable d).ncard) ∧
    ((∀ limit, vd.limit = some limit → (vd.store.reachable d).ncard + 4 ≤ limit) →
      ∀ n, (vd.validate v d).result ≠ .error (.tooDeep n)) := by
  refine ⟨⟨vd.acc_opens _, vd.finite_reached _⟩, fun c => Validator.depth_le_of_reached,
    fun node depth => Validator.depth_of_circular, fun hlimit n herror => ?_⟩
  obtain ⟨c, hreached, hn, hdeep⟩ := Validator.exists_reached_of_tooDeep (c := .root v d) herror
  have hdepth := Validator.depth_le_of_reached hreached
  have hbound := hlimit n hn
  omega

/-- The linked list has two nodes: the shape of a cell, and the union of null and a cell. -/
theorem LinkedList.reachable_eq : LinkedList.store.reachable (.node LinkedList.cell) = {0, 1} := by
  have hreaches : ∀ d, LinkedList.store.Reaches (.node LinkedList.cell) d →
      d = .node LinkedList.cell ∨ d = .node ⟨.union, 1⟩ ∨ d = .null := by
    intro d hd
    induction hd with
    | refl => exact Or.inl rfl
    | tail _ hpart ih =>
      rcases ih with rfl | rfl | rfl
      · have hmem : _ ∈ [Definition.node ⟨.union, 1⟩] := hpart.mem_children
        exact Or.inr (Or.inl (List.mem_singleton.1 hmem))
      · have hmem : _ ∈ [Definition.null, Definition.node LinkedList.cell] := hpart.mem_children
        simp only [List.mem_cons, List.not_mem_nil, or_false] at hmem
        rcases hmem with rfl | rfl
        · exact Or.inr (Or.inr rfl)
        · exact Or.inl rfl
      · cases hpart
  ext address
  constructor
  · rintro ⟨ref, rfl, href⟩
    rcases hreaches _ href with h | h | h
    · exact Or.inl (congrArg Ref.address (Definition.node.inj h))
    · exact Or.inr (congrArg Ref.address (Definition.node.inj h))
    · simp at h
  · rintro (rfl | rfl)
    · exact Store.mem_reachable_of_reaches Relation.ReflTransGen.refl
    · have hnext : LinkedList.store.Holds (.node LinkedList.cell) (.node ⟨.union, 1⟩) := .part (List.mem_singleton_self _)
      exact Store.mem_reachable_of_reaches (Relation.ReflTransGen.single hnext)

/-- The definition of a cell is its own ancestor two levels down, and a limit of six levels is not exceeded. -/
theorem depth_bounded_linkedList :
    (Call.root (.object .object 1) (.node LinkedList.cell)).depth ≤ 6 ∧
      (1 ≤ 2 ∧ 2 ≤ (LinkedList.store.reachable (.node LinkedList.cell)).ncard) ∧
      ∀ n, (Validator.validate ⟨LinkedList.heap, LinkedList.store, some 6⟩ (.object .object 1) (.node LinkedList.cell)).result
        ≠ .error (.tooDeep n) := by
  have hncard : (LinkedList.store.reachable (.node LinkedList.cell)).ncard = 2 := by
    rw [LinkedList.reachable_eq]
    exact Set.ncard_pair (by decide)
  obtain ⟨_, hdepth, hcircular, hlimit⟩ :=
    depth_bounded ⟨LinkedList.heap, LinkedList.store, some 6⟩ (.object .object 1) (.node LinkedList.cell)
  refine ⟨?_, hcircular "shape \x7bnext\x7d" 2 (by cbv), hlimit fun limit h => ?_⟩
  · have hroot := hdepth _ Relation.ReflTransGen.refl
    rwa [hncard] at hroot
  · rw [hncard]
    exact (Option.some.inj h).le

end Conform
