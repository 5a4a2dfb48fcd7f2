import Conform.Proofs.Cycle
import Conform.Proofs.Unfolding

/-!
# The height of a definition

The height of a tree counts the levels that judging by it can open below its root: one for each node on the way down, and two for
each suffix of a token. A run on a definition that unfolds to a tree goes no deeper than the height of the tree
(`Validator.depth_le_height`): `Subject.Fits` says of a subject that the levels left are enough for it, and every call leaves one
level less to the calls it opens. So without a limit, or with a limit that is not below the height, every run comes to an answer
(`Validator.exists_ok_of_unfolds`).
-/

namespace Conform

namespace Tree

/-- The levels below a tree: those that a token abbreviates, one more than the largest number below a part of a node, and none
below a node without parts or any other leaf. -/
def height : Tree → Nat
  | .token text => (Definition.token text).levels
  | .node n => ((n.children.attach.map fun t => height t.1).max?).elim 0 (· + 1)
  | _ => 0
termination_by t => sizeOf t
decreasing_by
  have hlt := Node.sizeOf_lt_of_mem_children t.2
  simp only [Tree.node.sizeOf_spec]
  omega

theorem height_node (n : Node Tree) : (Tree.node n).height = ((n.children.map height).max?).elim 0 (· + 1) := by
  rw [height, List.attach_map_val]

/-- A part of a node is lower than the node. -/
theorem height_lt_of_mem_children {n : Node Tree} {t : Tree} (h : t ∈ n.children) : t.height < (Tree.node n).height := by
  rw [height_node]
  cases hmax : (n.children.map height).max? with
  | none =>
    rw [List.max?_eq_none_iff, List.map_eq_nil_iff] at hmax
    exact absurd (hmax ▸ h) List.not_mem_nil
  | some k =>
    have hle : t.height ≤ k := (List.max?_eq_some_iff.1 hmax).2 t.height (List.mem_map_of_mem h)
    exact Nat.lt_succ_of_le hle

end Tree

/-- The height of what a leaf unfolds to is the number of levels that the leaf opens through abbreviation. -/
theorem Store.Unfolds.height_eq {s : Store} {d : Definition} {t : Tree} (h : s.Unfolds d t) (hd : ∀ ref, d ≠ .node ref) :
    t.height = d.levels := by
  cases h with
  | node hframe hparts => exact absurd rfl (hd _)
  | _ => simp [Tree.height, Definition.levels]

/-- Whether a number of levels is enough for a subject: for a definition when it is not below the height of what the definition
unfolds to, for what a token abbreviates when one level less is enough for every part. -/
inductive Subject.Fits (s : Store) (levels : Nat) : Subject → Prop where
  | definition {d : Definition} {t : Tree} (ht : s.Unfolds d t) (hle : t.height ≤ levels) : Fits s levels (.definition d)
  | expansion {n : Node Definition} (h : ∀ e ∈ n.children, ∃ t, s.Unfolds e t ∧ t.height < levels) :
      Fits s levels (.expansion n)

/-- When some levels are enough for a subject, one level less is enough for its parts. -/
theorem Subject.Fits.part {s : Store} {levels : Nat} {a b : Subject} (h : a.Fits s levels) (hpart : a.Part s b) :
    ∃ rest, levels = rest + 1 ∧ b.Fits s rest := by
  cases hpart with
  | held hmem =>
    cases h with
    | definition ht hle =>
      cases ht with
      | node hframe hparts =>
        obtain ⟨t, ht, he⟩ := exists_mem_of_forall₂ hparts _ hmem
        have hlt := Tree.height_lt_of_mem_children ht
        exact ⟨levels - 1, by omega, .definition he (by omega)⟩
  | @abbreviated text token n htoken hn =>
    cases h with
    | definition ht hle =>
      have htwo := two_le_levels htoken hn
      rw [ht.height_eq (by simp)] at hle
      refine ⟨levels - 1, by omega, .expansion fun e he => ?_⟩
      have hself : s.SameUnfolding s e e := Store.sameUnfolding_of_mem_expansion hn e he
      obtain ⟨t, hte, _⟩ := hself
      have hlevels := levels_of_mem_expansion htoken hn he
      have hheight := hte.height_eq fun ref href => node_notMem_expansion hn ref (href ▸ he)
      exact ⟨t, hte, by omega⟩
  | unfolded hmem =>
    cases h with
    | expansion h =>
      obtain ⟨t, ht, hlt⟩ := h _ hmem
      exact ⟨levels - 1, by omega, .definition ht (by omega)⟩

namespace Validator

variable {vd : Validator} {v : Value} {d : Definition} {t : Tree}

/-- The levels that are left below a call of a run are enough for its subject. -/
theorem fits_of_reached (ht : vd.store.Unfolds d t) {c : Call} (h : vd.Reached (.root v d) c) :
    ∃ rest, c.depth + rest = t.height ∧ c.subject.Fits vd.store rest := by
  induction h with
  | refl => exact ⟨t.height, Nat.zero_add _, .definition ht (Nat.le_refl _)⟩
  | tail _ hopens ih =>
    obtain ⟨rest, hdepth, hfits⟩ := ih
    obtain ⟨hpath, hpart⟩ := hopens.canOpen.part
    obtain ⟨rest', rfl, hfits'⟩ := hfits.part hpart
    refine ⟨rest', ?_, hfits'⟩
    rw [Call.depth, hpath, List.length_cons, ← Call.depth]
    omega

/-- No call of a run stands deeper than the height of what the root unfolds to. -/
theorem depth_le_height (ht : vd.store.Unfolds d t) {c : Call} (h : vd.Reached (.root v d) c) : c.depth ≤ t.height := by
  obtain ⟨rest, hdepth, _⟩ := fits_of_reached ht h
  omega

/-- A run whose limit, if there is one, is not below the height of what its root unfolds to comes to an answer. -/
theorem exists_ok_of_unfolds (vd : Validator) (v : Value) (ht : vd.store.Unfolds d t)
    (hlimit : ∀ n, vd.limit = some n → t.height ≤ n) : ∃ b, (vd.validate v d).result = .ok b := by
  cases hresult : (vd.validate v d).result with
  | ok b => exact ⟨b, rfl⟩
  | error defect =>
    exfalso
    cases defect with
    | circular node depth =>
      have hacyclic : vd.store.AcyclicFrom d := Store.acyclicFrom_iff_exists_unfolds.2 ⟨t, ht⟩
      exact vd.result_ne_circular hacyclic v node depth hresult
    | tooDeep n =>
      obtain ⟨c, hreached, hn, hdeep⟩ := exists_reached_of_tooDeep (c := .root v d) hresult
      have hdepth := depth_le_height ht hreached
      have hheight := hlimit n hn
      omega

end Validator

end Conform
