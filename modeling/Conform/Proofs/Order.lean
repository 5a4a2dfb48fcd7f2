import Conform.Proofs.Loosening

/-!
# The order of alternatives and fields

Two stores may hold the alternatives of the unions and the fields of the shapes that a definition reaches in different orders. Then
a run tries other parts first, may log something else and may meet another defect. What conforms to the definition does not depend
on the order (`conforms_congr`), and neither does what the definition reaches, so runs on both stores never come to different
answers (`order_irrelevant`). A row that the definition holds as a tuple too has no other order: tuples go by position.
-/

namespace Conform

/-- A node holds the same as another one, its alternatives or its fields perhaps in another order. -/
inductive Node.Reordered {δ : Type} : Node δ → Node δ → Prop where
  | tuple (items : List δ) : Reordered (.tuple items) (.tuple items)
  | bounded (element : δ) (min : Nat) (max : Option Nat) : Reordered (.bounded element min max) (.bounded element min max)
  | union {alternatives alternatives' : List δ} (h : alternatives.Perm alternatives') :
      Reordered (.union alternatives) (.union alternatives')
  | shape {fields fields' : List (String × δ)} (h : fields.Perm fields') : Reordered (.shape fields) (.shape fields')

/-- Every node that a definition reaches holds the same as the node of the same handle in another store, up to the order. -/
def Store.Reordered (s s' : Store) (d : Definition) : Prop :=
  ∀ ref, s.Reaches d (.node ref) → (s.node ref).Reordered (s'.node ref)

namespace Node.Reordered

variable {δ : Type} {n m : Node δ}

theorem symm (h : n.Reordered m) : m.Reordered n := by
  cases h with
  | tuple => exact .tuple _
  | bounded => exact .bounded _ _ _
  | union h => exact .union h.symm
  | shape h => exact .shape h.symm

/-- The parts are the same. -/
theorem mem_children_iff (h : n.Reordered m) {e : δ} : e ∈ n.children ↔ e ∈ m.children := by
  cases h with
  | tuple => exact Iff.rfl
  | bounded => exact Iff.rfl
  | union h => exact h.mem_iff
  | shape h => exact (h.map Prod.snd).mem_iff

/-- Another order asks for no more and for no less. -/
theorem loosened (h : n.Reordered m) : n.Loosened m := by
  cases h with
  | tuple items => exact .tuple items
  | bounded element min max => exact .bounded element min max
  | union h => exact .union h.subset
  | shape h => exact .shape h.symm.subset

end Node.Reordered

namespace Store.Reordered

variable {s s' : Store} {d e f : Definition}

/-- What is reached holds the same in both stores. -/
theorem holds_iff (h : s.Reordered s' d) (he : s.Reaches d e) : s.Holds e f ↔ s'.Holds e f := by
  constructor
  · intro hpart
    cases hpart with
    | part hmem => exact .part ((h _ he).mem_children_iff.1 hmem)
  · intro hpart
    cases hpart with
    | part hmem => exact .part ((h _ he).mem_children_iff.2 hmem)

/-- The same is reached in both stores. -/
theorem reaches (h : s.Reordered s' d) (he : s'.Reaches d e) : s.Reaches d e := by
  induction he with
  | refl => exact Relation.ReflTransGen.refl
  | tail _ hpart ih => exact ih.tail ((h.holds_iff ih).2 hpart)

theorem symm (h : s.Reordered s' d) : s'.Reordered s d := fun ref href => (h ref (h.reaches href)).symm

/-- A definition is acyclic in both stores or in neither. -/
theorem acyclicFrom (h : s.Reordered s' d) (hd : s.AcyclicFrom d) : s'.AcyclicFrom d := by
  rw [acyclicFrom_iff] at hd ⊢
  intro ref href hcycle
  have hold := h.reaches href
  -- A way down from what is reached is a way in the other store, step by step.
  have hway : ∀ e, Relation.TransGen s'.Holds (.node ref) e → Relation.TransGen s.Holds (.node ref) e := by
    intro e he
    induction he with
    | single hpart => exact .single ((h.holds_iff hold).2 hpart)
    | tail _ hpart ih => exact ih.tail ((h.holds_iff (hold.trans ih.to_reflTransGen)).2 hpart)
  exact hd ref hold (hway _ hcycle)

end Store.Reordered

/-- What conforms to a definition conforms to it in every order. -/
theorem Conforms.reordered {heap : Heap} {s s' : Store} {v : Value} {d : Definition} (hs : s.Reordered s' d)
    (h : Conforms heap s v d) : Conforms heap s' v d := h.loosened fun ref href => (hs ref href).loosened

/-- Conformance does not depend on the order. -/
theorem conforms_congr {heap : Heap} {s s' : Store} {d : Definition} (hs : s.Reordered s' d) (v : Value) :
    Conforms heap s v d ↔ Conforms heap s' v d :=
  ⟨.reordered hs, .reordered hs.symm⟩

/-- The order of alternatives and fields does not change what is accepted, in two parts.
1. When runs on both stores come to answers, whatever their limits, these are the same.
2. On an acyclic definition runs without a limit do come to answers on both stores. -/
theorem order_irrelevant (heap : Heap) (s s' : Store) (d : Definition) (hs : s.Reordered s' d) (v : Value) :
    (∀ limit limit' b b', (Validator.validate ⟨heap, s, limit⟩ v d).result = .ok b →
      (Validator.validate ⟨heap, s', limit'⟩ v d).result = .ok b' → b = b') ∧
    (s.AcyclicFrom d → ∃ b, (Validator.validate ⟨heap, s, none⟩ v d).result = .ok b ∧
      (Validator.validate ⟨heap, s', none⟩ v d).result = .ok b) := by
  have hsame : ∀ limit limit' b b', (Validator.validate ⟨heap, s, limit⟩ v d).result = .ok b →
      (Validator.validate ⟨heap, s', limit'⟩ v d).result = .ok b' → b = b' := by
    intro limit limit' b b' hb hb'
    have hconforms := Validator.ok_iff_conforms ⟨heap, s, limit⟩ (.root v d) hb
    have hconforms' := Validator.ok_iff_conforms ⟨heap, s', limit'⟩ (.root v d) hb'
    exact Bool.eq_iff_iff.2 ((hconforms.trans (conforms_congr hs v)).trans hconforms'.symm)
  refine ⟨hsame, fun hacyclic => ?_⟩
  obtain ⟨b, hb⟩ := Validator.exists_ok_of_acyclicFrom ⟨heap, s, none⟩ v rfl hacyclic
  obtain ⟨b', hb'⟩ := Validator.exists_ok_of_acyclicFrom ⟨heap, s', none⟩ v rfl (hs.acyclicFrom hacyclic)
  exact ⟨b, hb, hsame none none b b' hb hb' ▸ hb'⟩

/-! ### A couple -/

namespace Couple

/-- Somebody's partner. -/
def partner : Ref := ⟨.union, 1⟩

/-- Somebody with a home and a partner, who may be missing. -/
def store : Store :=
  ⟨#[.shape [("home", .nominal .object), ("partner", .node partner)], .row [.undefined, .null, .nominal .object]]⟩

/-- The same with the fields and the alternatives the other way round. -/
def reversed : Store :=
  ⟨#[.shape [("partner", .node partner), ("home", .nominal .object)], .row [.nominal .object, .null, .undefined]]⟩

/-- Somebody. -/
def somebody : Definition := .node ⟨.shape, 0⟩

/-- Somebody with a home and without a partner. -/
def heap : Heap := ⟨#[], #[[("home", .object .object 1), ("partner", .null)], []], 0⟩

/-- Somebody is a shape over a class and a union over leaves. -/
theorem reaches {d : Definition} (h : store.Reaches somebody d) : d = somebody ∨ d = .node partner ∨ ∀ ref, d ≠ .node ref := by
  induction h with
  | refl => exact Or.inl rfl
  | @tail d e _ hpart ih =>
    rcases ih with rfl | rfl | hleaf
    · have hmem : e ∈ [Definition.nominal .object, .node partner] := hpart.mem_children
      simp only [List.mem_cons, List.not_mem_nil, or_false] at hmem
      rcases hmem with rfl | rfl <;> simp
    · have hmem : e ∈ [Definition.undefined, .null, .nominal .object] := hpart.mem_children
      simp only [List.mem_cons, List.not_mem_nil, or_false] at hmem
      rcases hmem with rfl | rfl | rfl <;> simp
    · cases hpart with
      | part _ => exact absurd rfl (hleaf _)

/-- The two definitions differ in the order only. -/
theorem reordered : store.Reordered reversed somebody := by
  intro ref href
  rcases reaches href with heq | heq | hleaf
  · cases heq
    exact .shape (.swap _ _ _)
  · cases heq
    exact .union (List.reverse_perm _).symm
  · exact absurd rfl (hleaf ref)

/-- The shape holds the union, which holds no node. -/
theorem acyclicFrom : store.AcyclicFrom somebody := Store.acyclicFrom_of_lt (by decide) _

end Couple

/-- Somebody without a partner is accepted with a limit of two levels, so with any limit nothing else is answered when fields and
alternatives are the other way round; without a limit both are answered. -/
theorem order_irrelevant_couple :
    (∀ limit b, (Validator.validate ⟨Couple.heap, Couple.reversed, limit⟩ (.object .object 0) Couple.somebody).result = .ok b →
      true = b) ∧
    ∃ b, (Validator.validate ⟨Couple.heap, Couple.store, none⟩ (.object .object 0) Couple.somebody).result = .ok b ∧
      (Validator.validate ⟨Couple.heap, Couple.reversed, none⟩ (.object .object 0) Couple.somebody).result = .ok b := by
  have haccepted :
      (Validator.validate ⟨Couple.heap, Couple.store, some 2⟩ (.object .object 0) Couple.somebody).result = .ok true := by
    cbv
  obtain ⟨hsame, hboth⟩ :=
    order_irrelevant Couple.heap Couple.store Couple.reversed Couple.somebody Couple.reordered (.object .object 0)
  exact ⟨fun limit b => hsame (some 2) limit true b haccepted, hboth Couple.acyclicFrom⟩

end Conform
