import Conform.Proofs.Expressible
import Conform.Proofs.Growth
import Conform.Proofs.Height

/-!
# Definitions read from JSON

Reading a JSON value gives a tree, and planting the tree makes a new node at every place of it. `Store.Layout` says how: the nodes
of a row of definitions have consecutive addresses, those of the parts of a node before the node, those of a later definition after
those of an earlier one. So no node stands at two places (`Layout.at_unique`), and the definition is not circular; how deep judging
by it goes is known from the tree (`json_not_circular`).
-/

namespace Conform

namespace Store

/-- What stands at a place below a definition. A place is the way down to it, by the position of a part at every step. -/
inductive At (s : Store) : Definition → List Nat → Definition → Prop where
  | here (d : Definition) : At s d [] d
  | part {ref : Ref} {i : Nat} {path : List Nat} {d e : Definition} (hpart : (s.node ref).children[i]? = some e)
      (h : At s e path d) : At s (.node ref) (i :: path) d

/-- The definitions of a row unfold to the trees of a row, and their nodes have the addresses from a first one up to a last one, in
the order of a walk that comes to a node after its parts. -/
inductive Layout (s : Store) : List Definition → List Tree → Nat → Nat → Prop where
  | nil (a : Nat) : Layout s [] [] a a
  | leaf {d : Definition} {t : Tree} {ds : List Definition} {ts : List Tree} {a b : Nat} (hd : ∀ ref, d ≠ .node ref)
      (ht : s.Unfolds d t) (hrest : Layout s ds ts a b) : Layout s (d :: ds) (t :: ts) a b
  | node {ref : Ref} {n : Node Tree} {ds : List Definition} {ts : List Tree} {a b : Nat}
      (hframe : (s.node ref).frame = n.frame) (hparts : Layout s (s.node ref).children n.children a ref.address)
      (hrest : Layout s ds ts (ref.address + 1) b) : Layout s (.node ref :: ds) (.node n :: ts) a b

variable {s s' : Store} {d : Definition} {t : Tree} {ds es : List Definition} {ts us : List Tree} {a b c : Nat}

/-- Only below a node stands a node. -/
theorem At.exists_eq_node {path : List Nat} {k : Ref} (h : s.At d path (.node k)) : ∃ ref, d = .node ref := by
  cases h with
  | here => exact ⟨k, rfl⟩
  | part => exact ⟨_, rfl⟩

/-- What a leaf unfolds to does not depend on the store. -/
theorem Unfolds.of_leaf (h : s.Unfolds d t) (hd : ∀ ref, d ≠ .node ref) : s'.Unfolds d t := by
  cases h with
  | token text => exact .token text
  | null => exact .null
  | undefined => exact .undefined
  | nominal cls => exact .nominal cls
  | other v w => exact .other v w
  | node => exact absurd rfl (hd _)

namespace Layout

theorem le (h : s.Layout ds ts a b) : a ≤ b := by
  induction h with
  | nil => exact Nat.le_refl _
  | leaf _ _ _ ih => exact ih
  | node _ _ _ hparts hrest => omega

theorem forall₂_unfolds (h : s.Layout ds ts a b) : List.Forall₂ s.Unfolds ds ts := by
  induction h with
  | nil => exact .nil
  | leaf _ ht _ ih => exact .cons ht ih
  | node hframe _ _ hparts hrest => exact .cons (.node hframe hparts) hrest

/-- A layout looks at the bodies between its bounds only. -/
theorem of_body_eq (h : s.Layout ds ts a b) (hsame : ∀ address, a ≤ address → address < b → s'.body address = s.body address) :
    s'.Layout ds ts a b := by
  induction h with
  | nil => exact .nil _
  | leaf hd ht _ ih => exact .leaf hd (ht.of_leaf hd) (ih hsame)
  | @node ref n ds ts a b hframe hparts hrest ihparts ihrest =>
    have hfirst := hparts.le
    have hlast := hrest.le
    have hnode : s'.node ref = s.node ref := congrArg (Body.read ref.kind) (hsame ref.address hfirst hlast)
    refine .node (hnode ▸ hframe) ?_ (ihrest fun k hk hkb => hsame k (by omega) hkb)
    rw [hnode]
    exact ihparts fun k hak hk => hsame k hak (by omega)

theorem append (h : s.Layout ds ts a b) (h' : s.Layout es us b c) : s.Layout (ds ++ es) (ts ++ us) a c := by
  induction h with
  | nil => exact h'
  | leaf hd ht _ ih => exact .leaf hd ht (ih h')
  | node hframe hparts _ _ ih => exact .node hframe hparts (ih h')

/-- The nodes at the places below a row are between the bounds of its layout. -/
theorem bounds_of_at (h : s.Layout ds ts a b) {i : Nat} (hd : ds[i]? = some d) {path : List Nat} {k : Ref}
    (hk : s.At d path (.node k)) : a ≤ k.address ∧ k.address < b := by
  induction h generalizing i d path with
  | nil => cases hd
  | leaf hleaf _ _ ih =>
    cases i with
    | zero =>
      cases hd
      obtain ⟨ref, rfl⟩ := hk.exists_eq_node
      exact absurd rfl (hleaf ref)
    | succ i => exact ih hd hk
  | @node ref n ds ts a b _ hparts hrest ihparts ihrest =>
    have hfirst := hparts.le
    have hlast := hrest.le
    cases i with
    | zero =>
      cases hd
      cases hk with
      | here => exact ⟨hfirst, hlast⟩
      | part hpart hk =>
        have hbounds := ihparts hpart hk
        omega
    | succ i =>
      have hbounds := ihrest hd hk
      omega

/-- No node stands at two places below a row that is laid out, as whatever kinds. -/
theorem at_unique (h : s.Layout ds ts a b) {i j : Nat} {k l : Ref} {d e : Definition} {p q : List Nat} (hd : ds[i]? = some d)
    (he : ds[j]? = some e) (hp : s.At d p (.node k)) (hq : s.At e q (.node l)) (hsame : k.address = l.address) :
    i = j ∧ p = q := by
  induction h generalizing i j d e p q with
  | nil => cases hd
  | leaf hleaf _ _ ih =>
    cases i with
    | zero =>
      cases hd
      obtain ⟨ref, rfl⟩ := hp.exists_eq_node
      exact absurd rfl (hleaf ref)
    | succ i =>
      cases j with
      | zero =>
        cases he
        obtain ⟨ref, rfl⟩ := hq.exists_eq_node
        exact absurd rfl (hleaf ref)
      | succ j => exact (ih hd he hp hq).imp_left (congrArg (· + 1))
  | @node ref n ds ts a b hframe hparts hrest ihparts ihrest =>
    -- What stands below the node has a smaller address than the node, and what stands below the rest has a larger one.
    have hbefore : ∀ {i d p k}, (s.node ref).children[i]? = some d → s.At d p (.node k) → k.address < ref.address :=
      fun hpart hat => (hparts.bounds_of_at hpart hat).2
    have hupto : ∀ {p k}, s.At (.node ref) p (.node k) → k.address ≤ ref.address := by
      intro p k hat
      cases hat with
      | here => exact Nat.le_refl _
      | part hpart hat => exact (hbefore hpart hat).le
    have hafter : ∀ {i d p k}, ds[i]? = some d → s.At d p (.node k) → ref.address < k.address :=
      fun hd hat => (hrest.bounds_of_at hd hat).1
    cases i with
    | zero =>
      cases hd
      cases j with
      | zero =>
        cases he
        refine ⟨rfl, ?_⟩
        cases hp with
        | here =>
          cases hq with
          | here => rfl
          | part hpart hat => exact absurd hsame.symm (hbefore hpart hat).ne
        | part hpart hat =>
          cases hq with
          | here => exact absurd hsame (hbefore hpart hat).ne
          | part hpart' hat' =>
            obtain ⟨rfl, rfl⟩ := ihparts hpart hpart' hat hat'
            rfl
      | succ j => exact absurd (hsame ▸ hupto hp) (Nat.not_le.2 (hafter he hq))
    | succ i =>
      cases j with
      | zero =>
        cases he
        exact absurd (hsame ▸ hupto hq) (Nat.not_le.2 (hafter hd hp))
      | succ j => exact (ihrest hd he hp hq).imp_left (congrArg (· + 1))

end Layout

/-! ### Planting lays out -/

/-- A row of trees is laid out by planting when each of its trees is. -/
theorem layout_plantItems
    (h : ∀ t ∈ ts, ∀ s : Store, (s.plant t).1.Layout [(s.plant t).2] [t] s.size (s.plant t).1.size) (s : Store) :
    (s.plantItems ts).1.Layout (s.plantItems ts).2 ts s.size (s.plantItems ts).1.size := by
  induction ts generalizing s with
  | nil => exact .nil _
  | cons t ts ih =>
    have hfirst := h t List.mem_cons_self s
    have hrest := ih (fun u hu => h u (List.mem_cons_of_mem t hu)) (s.plant t).1
    have hgrows : (s.plant t).1.Grows ((s.plant t).1.plantItems ts).1 := (plantItems_grows (fun u _ => plant_grows u) _).1
    rw [plantItems_cons]
    exact (hfirst.of_body_eq fun address _ hlt => hgrows.body_eq address hlt).append hrest

/-- Planting a tree that JSON can express lays it out behind the nodes that are there. -/
theorem layout_plant (ht : t.Expressible) (s : Store) :
    (s.plant t).1.Layout [(s.plant t).2] [t] s.size (s.plant t).1.size := by
  induction ht generalizing s with
  | token text => exact .leaf (by simp [plant]) (.token text) (.nil _)
  | null => exact .leaf (by simp [plant]) .null (.nil _)
  | undefined => exact .leaf (by simp [plant]) .undefined (.nil _)
  | @nominal cls _ => exact .leaf (by simp [plant]) (.nominal cls) (.nil _)
  | bool b => exact .leaf (by simp [plant]) (.other _ _) (.nil _)
  | number _ => exact .leaf (by simp [plant]) (.other _ _) (.nil _)
  | @node n hnode hparts ih =>
    have hkeys : n.keys.Nodup := by
      cases n with
      | shape fields => exact hnode.1
      | _ => exact List.nodup_nil
    obtain ⟨content, hplant, _, hsame⟩ := s.plant_node n
    obtain ⟨hframe, hchildren⟩ := hsame hkeys
    have hrow := layout_plantItems ih s
    generalize s.plantItems n.children = r at hplant hchildren hrow
    have hadded : (r.1.add content).1.node ⟨content.kind, r.1.size⟩ = content := node_add_self r.1 content
    rw [hplant, size_add]
    refine .node (by rw [hadded, hframe]) ?_ (.nil _)
    rw [hadded, hchildren]
    exact hrow.of_body_eq fun address _ hlt => by rw [body_add, if_neg hlt.ne]

/-- Planting a tree that JSON can express makes a definition that unfolds to the tree. -/
theorem unfolds_plant (ht : t.Expressible) (s : Store) : (s.plant t).1.Unfolds (s.plant t).2 t :=
  (List.forall₂_cons.1 (layout_plant ht s).forall₂_unfolds).1

end Store

/-- It does not matter into which store a tree that JSON can express is planted: the outcome is the same. -/
theorem Validator.validate_plant_eq {t : Tree} (ht : t.Expressible) (s s' : Store) (heap : Heap) (limit : Option Nat) (v : Value) :
    Validator.validate ⟨heap, (s.plant t).1, limit⟩ v (s.plant t).2 =
      Validator.validate ⟨heap, (s'.plant t).1, limit⟩ v (s'.plant t).2 := by
  have hunfolds := Store.unfolds_plant ht s
  have hunfolds' := Store.unfolds_plant ht s'
  have hacyclic : (s.plant t).1.AcyclicFrom (s.plant t).2 := Store.acyclicFrom_iff_exists_unfolds.2 ⟨t, hunfolds⟩
  have hacyclic' : (s'.plant t).1.AcyclicFrom (s'.plant t).2 := Store.acyclicFrom_iff_exists_unfolds.2 ⟨t, hunfolds'⟩
  exact answer_eq_of_sameUnfolding ⟨heap, (s.plant t).1, limit⟩ hacyclic hacyclic' (.root v _) (.root v _) (.graph .root)
    (.graph .root) rfl rfl (.definition ⟨t, hunfolds, hunfolds'⟩)

/-- A definition that is read from a JSON value without repeated keys, in four parts, wherever it is planted.
1. The definition unfolds to the tree that is read, and every node of it is new.
2. No node stands at two places, as whatever kinds its body is held.
3. Judging by it never ends with the error that a definition is its own ancestor.
4. Without a limit, or with a limit that is not below the height of the tree, judging by it always comes to an answer. -/
theorem json_not_circular {j : Json} (hj : j.KeysDistinct) {t : Tree} (h : Tree.ofJson? j = .ok t) (s s' : Store) (d : Definition)
    (hplant : s.plant t = (s', d)) :
    (s'.Unfolds d t ∧ ∀ p ref, s'.At d p (.node ref) → s.size ≤ ref.address) ∧
      (∀ p q ref ref', s'.At d p (.node ref) → s'.At d q (.node ref') → ref.address = ref'.address → p = q) ∧
      (∀ heap limit v node depth, (Validator.validate ⟨heap, s', limit⟩ v d).result ≠ .error (.circular node depth)) ∧
      ∀ heap limit v, (∀ n, limit = some n → t.height ≤ n) → ∃ b, (Validator.validate ⟨heap, s', limit⟩ v d).result = .ok b := by
  have hlayout := Store.layout_plant (Tree.expressible_of_ofJson? hj h) s
  rw [hplant] at hlayout
  have hunfolds : s'.Unfolds d t := (List.forall₂_cons.1 hlayout.forall₂_unfolds).1
  have hfirst : [d][0]? = some d := rfl
  refine ⟨⟨hunfolds, fun p ref hat => (hlayout.bounds_of_at hfirst hat).1⟩, fun p q ref ref' hp hq hsame => ?_,
    fun heap limit v node depth => ?_, fun heap limit v hlimit => ?_⟩
  · exact (hlayout.at_unique hfirst hfirst hp hq hsame).2
  · have hacyclic : s'.AcyclicFrom d := Store.acyclicFrom_iff_exists_unfolds.2 ⟨t, hunfolds⟩
    exact Validator.result_ne_circular ⟨heap, s', limit⟩ hacyclic v node depth
  · exact Validator.exists_ok_of_unfolds ⟨heap, s', limit⟩ v hunfolds hlimit

/-! ### A list of texts that may be missing -/

namespace Texts

/-- What the directive for optional definitions over the text `string[]` stands for. -/
def tree : Tree := .optional (.token "string[]")

/-- The tree planted. -/
def store : Store := ⟨#[.row [.null, .undefined, .token "string[]"]]⟩

/-- The union that is planted. -/
def planted : Definition := .node ⟨.union, 0⟩

theorem height_tree : tree.height = 3 := by
  have hlevels : (Definition.token "string[]").levels = 2 := by cbv
  simp [tree, Tree.optional, Tree.height, Node.children, hlevels]

end Texts

/-- Three levels are enough for every value, and no node stands at two places. -/
theorem json_not_circular_texts :
    Tree.ofJson? (.object [("$optional", .string "string[]")]) = .ok Texts.tree ∧
      Store.empty.plant Texts.tree = (Texts.store, Texts.planted) ∧ Texts.store.Unfolds Texts.planted Texts.tree ∧
      (∀ p q ref ref', Texts.store.At Texts.planted p (.node ref) → Texts.store.At Texts.planted q (.node ref') →
        ref.address = ref'.address → p = q) ∧
      ∀ heap v, ∃ b, (Validator.validate ⟨heap, Texts.store, some 3⟩ v Texts.planted).result = .ok b := by
  have hread : Tree.ofJson? (.object [("$optional", .string "string[]")]) = .ok Texts.tree := by cbv
  obtain ⟨⟨hunfolds, _⟩, hunique, _, hanswer⟩ :=
    json_not_circular (.single (.string "string[]")) hread Store.empty Texts.store Texts.planted rfl
  refine ⟨hread, rfl, hunfolds, hunique, fun heap v => ?_⟩
  exact hanswer heap (some 3) v fun n hn => Texts.height_tree.trans_le (Option.some.inj hn).le

end Conform
