import Conform.Proofs.Call
import Conform.Proofs.Graph
import Conform.Proofs.TokenText

/-!
# Where the calls of a run stand

The path of a call is a descent through nodes that are all different, and above it, once a token is entered, only tokens over
ever shorter texts and what they abbreviate. `Position` states this of a call, `CanOpen.position` that it is kept from a call to
the calls it opens, and `position_of_reached` that it holds of every call of a run. So a definition that is its own ancestor is
always a node, reached along the descent (`Position.exists_descent`), and no call stands more than four levels below the number
of nodes (`Position.length_le`).
-/

namespace Conform

/-- A path that consists of nodes. -/
def nodePath (refs : List Ref) : Path := refs.map fun ref => some (.node ref.address)

/-- A definition below a token: it is no node, at most four levels lie between it and the nodes, and every identity that stands
there is that of a token with a longer text. -/
structure BelowToken (inner : Path) (d : Definition) : Prop where
  ne_node : ∀ ref, d ≠ .node ref
  levels_le : inner.length + d.levels ≤ 4
  longer : ∀ a, some a ∈ inner → ∃ text, a = .token text ∧ d.rank < text.length

/-- Where a call stands, given the root of the run: at the end of a descent, or in a token at the end of one. -/
inductive Position (store : Store) (root : Definition) : Path → Subject → Prop where
  | graph {refs : List Ref} {d : Definition} (hd : store.Descent root refs d) :
      Position store root (nodePath refs) (.definition d)
  | token {refs : List Ref} {e d : Definition} {inner : Path} (hd : store.Descent root refs e) (hi : BelowToken inner d) :
      Position store root (inner ++ nodePath refs) (.definition d)
  | expansion {refs : List Ref} {e : Definition} {inner : Path} {n : Node Definition} (hd : store.Descent root refs e)
      (hlen : inner.length ≤ 3) (hi : ∀ d ∈ n.children, BelowToken (none :: inner) d) :
      Position store root (inner ++ nodePath refs) (.expansion n)

/-- An identity stands on a path of nodes when it is the address of one of them. -/
theorem mem_nodePath {refs : List Ref} {a : Identity} :
    some a ∈ nodePath refs ↔ ∃ address ∈ refs.map Ref.address, a = .node address := by
  simp only [nodePath, List.mem_map, Option.some.injEq, exists_exists_and_eq_and]
  exact exists_congr fun ref => and_congr_right fun _ => eq_comm

/-- Only a definition that is a node has the identity of one. -/
theorem exists_eq_node_of_identity {s : Subject} {address : Nat} (h : s.identity = some (.node address)) :
    ∃ ref : Ref, s = .definition (.node ref) ∧ ref.address = address := by
  cases s with
  | expansion n => simp [Subject.identity] at h
  | definition d => cases d <;> simp_all [Subject.identity, Definition.identity]

/-- Only a definition that is a token has the identity of one. -/
theorem eq_token_of_identity {s : Subject} {text : String} (h : s.identity = some (.token text)) :
    s = .definition (.token text) := by
  cases s with
  | expansion n => simp [Subject.identity] at h
  | definition d => cases d <;> simp_all [Subject.identity, Definition.identity]

/-- The parts of what a token abbreviates are below the token, whatever tokens it is below. -/
theorem belowToken_of_mem_expansion {inner : Path} {text : String} {t : TypeToken} {n : Node Definition}
    (hlevels : inner.length + (Definition.token text).levels ≤ 4)
    (hlonger : ∀ a, some a ∈ inner → ∃ text', a = .token text' ∧ text.length < text'.length)
    (ht : TypeToken.parse? text = some t) (hn : t.expansion? = some n) :
    ∀ d ∈ n.children, BelowToken (none :: some (.token text) :: inner) d := by
  intro d hd
  have hdown := levels_of_mem_expansion ht hn hd
  have hrank : d.rank < text.length := rank_lt_of_mem_expansion ht hn hd
  refine ⟨fun ref hnode => node_notMem_expansion hn ref (hnode ▸ hd), ?_, fun a ha => ?_⟩
  · simp only [List.length_cons]
    omega
  · simp only [List.mem_cons, reduceCtorEq, Option.some.injEq, false_or] at ha
    rcases ha with rfl | ha
    · exact ⟨text, rfl, hrank⟩
    · obtain ⟨text', rfl, hlt⟩ := hlonger a ha
      exact ⟨text', rfl, hrank.trans hlt⟩

/-- A token with a suffix opens at least two levels. -/
theorem two_le_levels {text : String} {t : TypeToken} {n : Node Definition} (ht : TypeToken.parse? text = some t)
    (hn : t.expansion? = some n) : 2 ≤ (Definition.token text).levels := by
  obtain ⟨d, hd⟩ : ∃ d, d ∈ n.children := by
    rcases expansion?_cases hn with ⟨_, rfl⟩ | ⟨_, _, rfl⟩
    · exact ⟨.null, by simp [Node.optional, Node.children]⟩
    · exact ⟨_, List.mem_singleton_self _⟩
  have := levels_of_mem_expansion ht hn hd
  omega

/-- A call that can be opened stands where it should when the call that opens it does. -/
theorem Validator.CanOpen.position {vd : Validator} {root : Definition} {c c' : Call} (h : vd.CanOpen c c')
    (hc : Position vd.store root c.path c.subject) : Position vd.store root c'.path c'.subject := by
  obtain ⟨path, v, s⟩ := c
  obtain ⟨path', w, s'⟩ := c'
  have hclear := h.1
  obtain ⟨hpath, hpart⟩ := h.part
  simp only at hc hpath hpart ⊢
  subst hpath
  cases hpart with
  | @held ref e hmem =>
    cases hc with
    | @graph refs _ hd =>
      have hnew : ref.address ∉ refs.map Ref.address :=
        fun hback => not_mem_of_defect?_eq_none hclear (mem_nodePath.2 ⟨ref.address, hback, rfl⟩)
      exact .graph (hd.part hnew (.part hmem))
    | token hd hi => exact absurd rfl (hi.ne_node ref)
  | @abbreviated text t n ht hn =>
    have htwo := two_le_levels ht hn
    cases hc with
    | @graph refs _ hd =>
      have hfour := Definition.levels_le (.token text)
      have hbelow : ∀ d ∈ n.children, BelowToken [none, some (.token text)] d :=
        belowToken_of_mem_expansion (by simpa using hfour) (by simp) ht hn
      show Position vd.store root ([some (.token text)] ++ nodePath refs) (.expansion n)
      exact .expansion hd (by simp) hbelow
    | @token refs _ _ inner hd hi =>
      have hbelow := belowToken_of_mem_expansion hi.levels_le hi.longer ht hn
      have hlen := hi.levels_le
      show Position vd.store root ((some (.token text) :: inner) ++ nodePath refs) (.expansion n)
      refine .expansion hd ?_ hbelow
      simp only [List.length_cons]
      omega
  | @unfolded n e hmem =>
    cases hc with
    | @expansion refs _ inner _ hd hlen hi =>
      show Position vd.store root ((none :: inner) ++ nodePath refs) (.definition e)
      exact .token hd (hi e hmem)

/-- Every call of a run stands where it should. -/
theorem Validator.position_of_reached {vd : Validator} {v : Value} {d : Definition} {c : Call}
    (h : vd.Reached (.root v d) c) : Position vd.store d c.path c.subject := by
  induction h with
  | refl => exact .graph .root
  | tail _ hopens ih => exact hopens.canOpen.position ih

namespace Position

variable {store : Store} {root : Definition} {path : Path} {s : Subject}

/-- No call stands more than four levels below the number of nodes that the root reaches. -/
theorem length_le (h : Position store root path s) : path.length ≤ (store.reachable root).ncard + 4 := by
  cases h with
  | graph hd =>
    have := hd.length_le
    simp only [nodePath, List.length_map]
    omega
  | token hd hi =>
    have := hd.length_le
    have := hi.levels_le
    simp only [nodePath, List.length_append, List.length_map]
    omega
  | expansion hd hlen _ =>
    have := hd.length_le
    simp only [nodePath, List.length_append, List.length_map]
    omega

/-- A subject that is its own ancestor is a node of the descent that leads to it. -/
theorem exists_descent {a : Identity} (h : Position store root path s) (hs : s.identity = some a) (hpath : some a ∈ path) :
    ∃ refs ref, s = .definition (.node ref) ∧ path = nodePath refs ∧ store.Descent root refs (.node ref) ∧
      ref.address ∈ refs.map Ref.address := by
  cases h with
  | @graph refs d hd =>
    obtain ⟨address, hback, rfl⟩ := mem_nodePath.1 hpath
    obtain ⟨ref, hsubject, rfl⟩ := exists_eq_node_of_identity hs
    cases hsubject
    exact ⟨refs, ref, rfl, rfl, hd, hback⟩
  | @token refs e d inner hd hi =>
    exfalso
    rcases List.mem_append.1 hpath with hinner | hnodes
    · obtain ⟨text, rfl, hlt⟩ := hi.longer a hinner
      cases eq_token_of_identity hs
      exact Nat.lt_irrefl _ hlt
    · obtain ⟨address, _, rfl⟩ := mem_nodePath.1 hnodes
      obtain ⟨ref, hsubject, _⟩ := exists_eq_node_of_identity hs
      cases hsubject
      exact hi.ne_node ref rfl
  | expansion hd hlen hi => simp [Subject.identity] at hs

/-- On an acyclic definition no subject is its own ancestor. -/
theorem notMem_of_acyclicFrom {a : Identity} (h : Position store root path s) (hacyclic : store.AcyclicFrom root)
    (hs : s.identity = some a) : some a ∉ path := by
  intro hpath
  obtain ⟨refs, ref, _, _, hdescent, hback⟩ := h.exists_descent hs hpath
  exact hdescent.not_acyclicFrom hback hacyclic

end Position

end Conform
