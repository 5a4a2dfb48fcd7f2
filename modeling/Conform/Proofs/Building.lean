import Conform.Proofs.Cycle
import Conform.Proofs.Growth
import Conform.Tree.OfJson

/-!
# How cycles come about

A definition is built from definitions at hand (`Construction`), and tuples, unions and shapes grow in place (`BuildingStep`). A
construction closes no cycle, whatever cycles there are. To give a node a part is to add an edge from the node, perhaps in the
place of another one; on an acyclic store this closes a cycle exactly when the part reaches the node (`Rewires.cyclic_iff`). So a
run of steps none of which gives a node a part that reaches it leads to acyclic definitions only, and judging by them never ends
with the error that a definition is its own ancestor (`building_acyclic`).
-/

namespace Conform

namespace Body

variable {δ : Type} {b c : Body δ} {item : δ}

/-- A row with one more part. -/
def push? (item : δ) : Body δ → Option (Body δ)
  | .row items => some (.row (items ++ [item]))
  | _ => none

/-- The fields of a shape with one declared, perhaps again. -/
def insert? (key : String) (item : δ) : Body δ → Option (Body δ)
  | .shape fields => some (.shape (Fields.insert fields key item))
  | _ => none

/-- Whether a body holds a new part, and beside it only parts of another body. -/
def Gains (b c : Body δ) (item : δ) : Prop := item ∈ c.children ∧ ∀ d ∈ c.children, d = item ∨ d ∈ b.children

theorem gains_of_push? (h : b.push? item = some c) : b.Gains c item := by
  cases b with
  | row items =>
    cases h
    refine ⟨List.mem_append_right _ (List.mem_singleton_self item), fun d hd => ?_⟩
    exact (List.mem_append.1 hd).symm.imp_left List.mem_singleton.1
  | _ => cases h

/-- A field declared in the place of an old one may take the old part away. -/
theorem gains_of_insert? {key : String} (h : b.insert? key item = some c) : b.Gains c item := by
  cases b with
  | shape fields =>
    cases h
    refine ⟨?_, fun d hd => ?_⟩
    · exact List.mem_map.2 ⟨_, Fields.mem_of_get? (Fields.get?_insert_self fields key item), rfl⟩
    · obtain ⟨f, hf, rfl⟩ := List.mem_map.1 hd
      exact (Fields.eq_or_mem_of_mem_insert hf).imp_right List.mem_map_of_mem
  | _ => cases h

end Body

namespace Store

variable {s s' : Store} {address : Nat} {item target : Definition}

/-- Appending succeeds exactly on tuples and unions, and then writes the row of the target alone. -/
theorem pushElement_eq_ok_iff : s.pushElement target item = .ok s' ↔
    ∃ ref b, target = .node ref ∧ (s.body ref.address).push? item = some b ∧ s' = s.set ref.address b := by
  cases target with
  | node ref =>
    simp only [pushElement, Definition.node.injEq, exists_and_left, exists_eq_left']
    cases hb : s.body ref.address <;> simp [Body.push?, eq_comm]
  | _ => simp [pushElement]

/-- Declaring a field succeeds exactly on shapes, and then writes the fields of the target alone. -/
theorem insertField_eq_ok_iff {key : String} : s.insertField target key item = .ok s' ↔
    ∃ ref b, target = .node ref ∧ (s.body ref.address).insert? key item = some b ∧ s' = s.set ref.address b := by
  cases target with
  | node ref =>
    simp only [insertField, Definition.node.injEq, exists_and_left, exists_eq_left']
    cases hb : s.body ref.address <;> simp [Body.insert?, eq_comm]
  | _ => simp [insertField]

/-! ### Adding an edge -/

/-- Whether no definition reaches a node that comes back to itself. -/
def Acyclic (s : Store) : Prop := ∀ d, s.AcyclicFrom d

/-- Whether a definition reaches the node of another one, as whatever kind the two hold it. -/
def Meets (s : Store) (d target : Definition) : Prop := ∃ e, s.Reaches d e ∧ e.same target = true

theorem acyclic_iff : s.Acyclic ↔ ∀ address, ¬s.Returns address :=
  ⟨fun h address => h (.node ⟨.tuple, address⟩) address ⟨_, rfl, Relation.ReflTransGen.refl⟩,
    fun h _ address _ => h address⟩

/-- To meet a node is to reach its address. -/
theorem meets_node_iff {d : Definition} {ref : Ref} : s.Meets d (.node ref) ↔ ref.address ∈ s.reachable d := by
  constructor
  · rintro ⟨e, hreaches, hsame⟩
    cases e with
    | node ref' => exact ⟨ref', same_node_iff.1 hsame, hreaches⟩
    | _ => simp [Definition.same, Definition.identity] at hsame
  · rintro ⟨ref', hsame, hreaches⟩
    exact ⟨.node ref', hreaches, same_node_iff.2 hsame⟩

/-- A body has gained a part, and all other bodies are the same. -/
structure Rewires (s s' : Store) (address : Nat) (item : Definition) : Prop where
  size_eq : s'.size = s.size
  body_eq : ∀ other, other ≠ address → s'.body other = s.body other
  gains : (s.body address).Gains (s'.body address) item

theorem rewires_set {b : Body Definition} (haddress : address < s.size) (h : (s.body address).Gains b item) :
    s.Rewires (s.set address b) address item where
  size_eq := size_set ..
  body_eq _ hother := body_set_of_ne s hother b
  gains := by rwa [body_set_self haddress]

/-- Appending to a node of the store gives its body a part. -/
theorem exists_rewires_of_pushElement (htarget : s.Knows target) (h : s.pushElement target item = .ok s') :
    ∃ ref, target = .node ref ∧ s.Rewires s' ref.address item := by
  obtain ⟨ref, b, rfl, hpush, rfl⟩ := pushElement_eq_ok_iff.1 h
  exact ⟨ref, rfl, rewires_set (htarget ref rfl) (Body.gains_of_push? hpush)⟩

/-- Declaring a field of a node of the store gives its body a part. -/
theorem exists_rewires_of_insertField {key : String} (htarget : s.Knows target) (h : s.insertField target key item = .ok s') :
    ∃ ref, target = .node ref ∧ s.Rewires s' ref.address item := by
  obtain ⟨ref, b, rfl, hinsert, rfl⟩ := insertField_eq_ok_iff.1 h
  exact ⟨ref, rfl, rewires_set (htarget ref rfl) (Body.gains_of_insert? hinsert)⟩

/-- What reaches an address does so before and after its body is written: a way to the address can end where it first meets it. -/
theorem mem_reachable_of_body_eq (h : ∀ other, other ≠ address → s'.body other = s.body other) {d : Definition}
    (hd : address ∈ s.reachable d) : address ∈ s'.reachable d := by
  obtain ⟨ref, haddress, hway⟩ := hd
  induction hway using Relation.ReflTransGen.head_induction_on with
  | refl => exact ⟨ref, haddress, Relation.ReflTransGen.refl⟩
  | head hpart _ ih =>
    cases hpart with
    | @part owner e hmem =>
      by_cases howner : owner.address = address
      · exact ⟨owner, howner, Relation.ReflTransGen.refl⟩
      · refine reachable_subset_of_holds (holds_node_iff.2 ?_) ih
        rw [h _ howner, ← children_node]
        exact hmem

namespace Rewires

/-- A way down after a body is written was there before, or it goes through the address. -/
theorem transGen_or_through (h : s.Rewires s' address item) {d e : Definition} (hway : Relation.TransGen s'.Holds d e) :
    Relation.TransGen s.Holds d e ∨
      ∃ ref : Ref, ref.address = address ∧ s'.Reaches d (.node ref) ∧ Relation.TransGen s'.Holds (.node ref) e := by
  have hstep : ∀ {d e}, s'.Holds d e → s.Holds d e ∨ ∃ ref : Ref, ref.address = address ∧ d = .node ref := by
    intro d e hpart
    cases hpart with
    | @part owner _ hmem =>
      by_cases howner : owner.address = address
      · exact Or.inr ⟨owner, howner, rfl⟩
      · rw [children_node, h.body_eq _ howner] at hmem
        exact Or.inl (holds_node_iff.2 hmem)
  induction hway with
  | single hpart =>
    rcases hstep hpart with hold | ⟨ref, href, rfl⟩
    · exact Or.inl (.single hold)
    · exact Or.inr ⟨ref, href, Relation.ReflTransGen.refl, .single hpart⟩
  | tail hway hpart ih =>
    rcases ih with hold | ⟨ref, href, hto, hfrom⟩
    · rcases hstep hpart with hlast | ⟨ref, href, rfl⟩
      · exact Or.inl (hold.tail hlast)
      · exact Or.inr ⟨ref, href, hway.to_reflTransGen, .single hpart⟩
    · exact Or.inr ⟨ref, href, hto, hfrom.tail hpart⟩

/-- On an acyclic store, giving a body a part closes a cycle exactly when the part reaches the address of the body. -/
theorem cyclic_iff (h : s.Rewires s' address item) (hacyclic : s.Acyclic) : ¬s'.Acyclic ↔ address ∈ s.reachable item := by
  rw [acyclic_iff] at hacyclic
  constructor
  · intro hcyclic
    rw [acyclic_iff] at hcyclic
    push Not at hcyclic
    obtain ⟨_, hreturns⟩ := hcyclic
    obtain ⟨ref, rfl, hcycle⟩ := returns_iff.1 hreturns
    -- A cycle of the new store goes through the address, because there was none without it.
    rcases h.transGen_or_through hcycle with hold | ⟨through, rfl, hto, hfrom⟩
    · exact absurd (returns_of_transGen hold rfl) (hacyclic _)
    · obtain ⟨e, hpart, hback⟩ := Relation.TransGen.head'_iff.1 (hfrom.trans_left hto)
      have hreaches : through.address ∈ s.reachable e :=
        mem_reachable_of_body_eq (fun other hother => (h.body_eq other hother).symm) (mem_reachable_of_reaches hback)
      rcases h.gains.2 e (holds_node_iff.1 hpart) with rfl | hmem
      · exact hreaches
      · obtain ⟨ref', hsame, hway⟩ := hreaches
        have hround := Relation.TransGen.head' (holds_node_iff.2 hmem) hway
        exact absurd (returns_of_transGen hround hsame) (hacyclic _)
  · intro hreaches hacyclic'
    obtain ⟨ref, href, hback⟩ := mem_reachable_of_body_eq h.body_eq hreaches
    have hpart : s'.Holds (.node ref) item := holds_node_iff.2 (href ▸ h.gains.1)
    exact acyclic_iff.1 hacyclic' address ⟨ref, ref, href, href, Relation.TransGen.head' hpart hback⟩

/-- A store in which a body gains a part that is known still holds only what it knows. -/
theorem closed (h : s.Rewires s' address item) (hclosed : s.Closed) (hitem : s.Knows item) : s'.Closed := by
  have hknows : ∀ d, s.Knows d → s'.Knows d := by
    intro d hd ref href
    rw [h.size_eq]
    exact hd ref href
  intro k d hd
  by_cases hk : k = address
  · rw [hk] at hd
    rcases h.gains.2 d hd with rfl | hmem
    · exact hknows d hitem
    · exact hknows d (hclosed address d hmem)
  · rw [h.body_eq k hk] at hd
    exact hknows d (hclosed k d hd)

end Rewires

end Store

/-! ### Building step by step -/

/-- A way to make a definition: a leaf, a node over definitions at hand, or what a JSON value stands for. -/
inductive Construction where
  | token (text : String)
  | null
  | undefined
  | nominal (cls : Class)
  | value (v : Value)
  | tuple (items : List Definition)
  | union (alternatives : List Definition)
  | optional (d : Definition)
  | arrayOf (element : Definition) (min : Nat) (max : Option Nat)
  | shape (entries : List (String × Definition))
  | json (j : Json)

namespace Construction

/-- The definitions that have to be at hand. -/
def handles : Construction → List Definition
  | .tuple items => items
  | .union alternatives => alternatives
  | .optional d => [d]
  | .arrayOf element _ _ => [element]
  | .shape entries => entries.map Prod.snd
  | _ => []

/-- Makes the definition. What is written in JSON may be malformed. -/
def run (s : Store) : Construction → Except Malformed (Store × Definition)
  | .token text => .ok (s, .token text)
  | .null => .ok (s, .null)
  | .undefined => .ok (s, .undefined)
  | .nominal cls => .ok (s, .nominal cls)
  | .value v => .ok (s, .ofValue v)
  | .tuple items => .ok (s.tuple items)
  | .union alternatives => .ok (s.union alternatives)
  | .optional d => .ok (s.optional d)
  | .arrayOf element min max => .ok (s.arrayOf element min max)
  | .shape entries => .ok (s.shape entries)
  | .json j => (Tree.ofJson? j).map s.plant

variable {s : Store} {r : Store × Definition}

/-- Adding a node over definitions at hand is growing, and the node is known. -/
theorem grows_of_add (content : Node Definition) (h : ∀ d ∈ content.children, s.Knows d)
    (hr : (.ok (s.add content) : Except Malformed (Store × Definition)) = .ok r) : s.Grows r.1 ∧ r.1.Knows r.2 := by
  cases hr
  exact ⟨.add h, s.knows_add content⟩

/-- Making a definition is growing, and the definition made is known. -/
theorem grows {c : Construction} (hc : ∀ d ∈ c.handles, s.Knows d) (h : c.run s = .ok r) : s.Grows r.1 ∧ r.1.Knows r.2 := by
  cases c with
  | tuple items => exact grows_of_add (.tuple items) hc h
  | union alternatives => exact grows_of_add (.union alternatives) hc h
  | optional d =>
    refine grows_of_add (.optional d) (fun e he => ?_) h
    simp only [Node.optional, Node.children, List.mem_cons, List.not_mem_nil, or_false] at he
    rcases he with rfl | rfl | rfl
    · exact fun ref href => (by cases href)
    · exact fun ref href => (by cases href)
    · exact hc e (List.mem_singleton_self e)
  | arrayOf element min max => exact grows_of_add (.bounded element min max) hc h
  | shape entries =>
    refine grows_of_add (.shape (Fields.ofList entries)) (fun d hd => ?_) h
    obtain ⟨f, hf, rfl⟩ := List.mem_map.1 hd
    obtain ⟨e, he, heq⟩ := Fields.exists_mem_of_mem_ofList hf
    exact hc f.2 (heq ▸ List.mem_map_of_mem he)
  | json j =>
    simp only [run] at h
    cases hread : Tree.ofJson? j with
    | error e => simp [hread, Except.map] at h
    | ok t =>
      simp only [hread, Except.map, Except.ok.injEq] at h
      exact h ▸ s.plant_grows t
  | value v =>
    cases h
    refine ⟨.refl s, fun ref href => ?_⟩
    cases v <;> cases href
  | _ =>
    cases h
    exact ⟨.refl s, fun ref href => (by cases href)⟩

end Construction

/-- A step of building: a definition is made, a tuple or a union is appended to, or a field of a shape is declared. -/
inductive BuildingStep where
  | construct (c : Construction)
  | pushElement (target item : Definition)
  | insertField (target : Definition) (key : String) (item : Definition)

namespace BuildingStep

/-- The definitions that have to be at hand. -/
def handles : BuildingStep → List Definition
  | .construct c => c.handles
  | .pushElement target item => [target, item]
  | .insertField target _ item => [target, item]

/-- The store after a step. A step that fails leaves the store. -/
def run (s : Store) : BuildingStep → Store
  | .construct c => (c.run s).toOption.elim s Prod.fst
  | .pushElement target item => (s.pushElement target item).toOption.getD s
  | .insertField target key item => (s.insertField target key item).toOption.getD s

/-- Whether a step succeeds in giving a node a part that reaches the node. -/
def ClosesCycle (s : Store) : BuildingStep → Prop
  | .construct _ => False
  | .pushElement target item => (∃ s', s.pushElement target item = .ok s') ∧ s.Meets item target
  | .insertField target key item => (∃ s', s.insertField target key item = .ok s') ∧ s.Meets item target

/-- What one step does to a store: nothing, or it makes a definition, or it gives a node of the store a known part, which reaches
the node when the step closes a cycle. -/
inductive Effect (s : Store) (b : BuildingStep) : Store → Prop where
  | none : Effect s b s
  | grows {s' : Store} (h : s.Grows s') : Effect s b s'
  | rewires {s' : Store} {address : Nat} {item : Definition} (h : s.Rewires s' address item) (hitem : s.Knows item)
      (hcloses : address ∈ s.reachable item → b.ClosesCycle s) : Effect s b s'

/-- A step with definitions at hand has one of these effects. -/
theorem effect {s : Store} {b : BuildingStep} (hb : ∀ d ∈ b.handles, s.Knows d) : b.Effect s (b.run s) := by
  cases b with
  | construct c =>
    cases hrun : c.run s with
    | error e =>
      simp only [run, hrun]
      exact .none
    | ok r =>
      simp only [run, hrun]
      exact .grows (c.grows hb hrun).1
  | pushElement target item =>
    cases hpush : s.pushElement target item with
    | error e =>
      simp only [run, hpush]
      exact .none
    | ok s' =>
      simp only [run, hpush]
      obtain ⟨ref, rfl, hrewires⟩ := Store.exists_rewires_of_pushElement (hb target (by simp [handles])) hpush
      refine .rewires hrewires (hb item (by simp [handles])) fun hreaches => ?_
      exact ⟨⟨s', hpush⟩, Store.meets_node_iff.2 hreaches⟩
  | insertField target key item =>
    cases hinsert : s.insertField target key item with
    | error e =>
      simp only [run, hinsert]
      exact .none
    | ok s' =>
      simp only [run, hinsert]
      obtain ⟨ref, rfl, hrewires⟩ := Store.exists_rewires_of_insertField (hb target (by simp [handles])) hinsert
      refine .rewires hrewires (hb item (by simp [handles])) fun hreaches => ?_
      exact ⟨⟨s', hinsert⟩, Store.meets_node_iff.2 hreaches⟩

variable {s s' : Store} {b : BuildingStep}

/-- After a step the nodes hold only nodes of the store if they did before. -/
theorem Effect.closed (h : b.Effect s s') (hs : s.Closed) : s'.Closed := by
  cases h with
  | none => exact hs
  | grows h => exact h.closed hs
  | rewires h hitem _ => exact h.closed hs hitem

/-- A step that gives no node a part that reaches the node leaves an acyclic store acyclic. -/
theorem Effect.acyclic (h : b.Effect s s') (hs : s.Closed) (hacyclic : s.Acyclic) (hb : ¬b.ClosesCycle s) : s'.Acyclic := by
  cases h with
  | none => exact hacyclic
  | grows h =>
    rw [Store.acyclic_iff] at hacyclic ⊢
    exact fun address hreturns => hacyclic address (h.returns hs hreturns)
  | rewires h _ hcloses =>
    by_contra hcyclic
    exact hb (hcloses ((h.cyclic_iff hacyclic).1 hcyclic))

end BuildingStep

/-- The stores that runs of steps lead to, each step with definitions at hand and as it is allowed on the store before it. -/
inductive Store.Built (allowed : Store → BuildingStep → Prop) : Store → Prop where
  | empty : Built allowed Store.empty
  | step {s : Store} {b : BuildingStep} (hs : Built allowed s) (hb : ∀ d ∈ b.handles, s.Knows d) (hallowed : allowed s b) :
      Built allowed (b.run s)

namespace Store.Built

variable {allowed : Store → BuildingStep → Prop} {s : Store}

/-- The nodes of a store that was built hold only nodes of the store. -/
theorem closed (h : Built allowed s) : s.Closed := by
  induction h with
  | empty => exact closed_empty
  | step _ hb _ ih => exact (BuildingStep.effect hb).closed ih

/-- What a run with restrictions leads to, some run leads to. -/
theorem unrestricted (h : Built allowed s) : Built (fun _ _ => True) s := by
  induction h with
  | empty => exact .empty
  | step _ hb _ ih => exact .step ih hb trivial

/-- A run without a step that gives a node a part that reaches the node leads to an acyclic store. -/
theorem acyclic (h : Built (fun s b => ¬b.ClosesCycle s) s) : s.Acyclic := by
  induction h with
  | empty =>
    rw [acyclic_iff]
    rintro address ⟨ref, _, _, _, hcycle⟩
    obtain ⟨e, hpart, _⟩ := Relation.TransGen.head'_iff.1 hcycle
    exact absurd (lt_size_of_mem_children hpart.mem_children) (Nat.not_lt_zero ref.address)
  | step hs hb hallowed ih => exact (BuildingStep.effect hb).acyclic hs.closed ih hallowed

end Store.Built

/-- How cycles come about, in three parts.
1. To make a definition on a store that was built by any run of steps closes no cycle: what comes back to itself afterwards did so
   before. The definition that is made is known, so that later steps can take it.
2. On an acyclic store, a node that succeeds in taking a part, at the end or as a field that is new or replaced, closes a cycle
   exactly when the part reached the node before the step, or is the node, as whatever kind it holds the body of the node.
3. When no step of a run gives a node a part that reaches the node, all definitions are acyclic, and judging by them never ends
   with the error that a definition is its own ancestor. -/
theorem building_acyclic :
    (∀ s, Store.Built (fun _ _ => True) s → ∀ c : Construction, (∀ d ∈ c.handles, s.Knows d) → ∀ s' d, c.run s = .ok (s', d) →
      s'.Knows d ∧ ∀ address, s'.Returns address → s.Returns address) ∧
    (∀ s : Store, s.Acyclic → ∀ target item, s.Knows target → ∀ s',
      (s.pushElement target item = .ok s' → (¬s'.Acyclic ↔ s.Meets item target)) ∧
      ∀ key, s.insertField target key item = .ok s' → (¬s'.Acyclic ↔ s.Meets item target)) ∧
    (∀ s, Store.Built (fun s b => ¬b.ClosesCycle s) s → ∀ d, s.AcyclicFrom d ∧
      ∀ heap limit v node depth, (Validator.validate ⟨heap, s, limit⟩ v d).result ≠ .error (.circular node depth)) := by
  refine ⟨fun s hs c hc s' d hrun => ?_, fun s hacyclic target item htarget s' => ⟨fun hpush => ?_, fun key hinsert => ?_⟩,
    fun s hs d => ?_⟩
  · obtain ⟨hgrows, hknown⟩ := c.grows hc hrun
    exact ⟨hknown, fun address => hgrows.returns hs.closed⟩
  · obtain ⟨ref, rfl, hrewires⟩ := Store.exists_rewires_of_pushElement htarget hpush
    exact (hrewires.cyclic_iff hacyclic).trans Store.meets_node_iff.symm
  · obtain ⟨ref, rfl, hrewires⟩ := Store.exists_rewires_of_insertField htarget hinsert
    exact (hrewires.cyclic_iff hacyclic).trans Store.meets_node_iff.symm
  · have hacyclic : s.AcyclicFrom d := hs.acyclic d
    refine ⟨hacyclic, fun heap limit v node depth => ?_⟩
    exact Validator.result_ne_circular ⟨heap, s, limit⟩ hacyclic v node depth

/-! ### A tuple in a union in a shape -/

namespace Wiring

/-- The tuple without parts. -/
def unit : Definition := .node ⟨.tuple, 0⟩

/-- The union of the tuple. -/
def choice : Definition := .node ⟨.union, 1⟩

/-- The shape with the union as its field. -/
def whole : Definition := .node ⟨.shape, 2⟩

/-- An empty tuple, a union of the tuple, and a shape with the union as its field. -/
def store : Store := ⟨#[.row [], .row [unit], .shape [("part", choice)]]⟩

/-- The store after its first two steps. -/
def first : Store := ⟨#[.row [], .row [unit]]⟩

/-- Constructions alone lead to the store. -/
theorem built : Store.Built (fun s b => ¬b.ClosesCycle s) store := by
  have htuple : Store.Built (fun s b => ¬b.ClosesCycle s) ⟨#[.row []]⟩ :=
    .step (b := .construct (.tuple [])) .empty (by simp [BuildingStep.handles, Construction.handles]) not_false
  have hunion : Store.Built (fun s b => ¬b.ClosesCycle s) first :=
    .step (b := .construct (.union [unit])) htuple
      (by simp [BuildingStep.handles, Construction.handles, Store.Knows, Store.size, unit]) not_false
  exact .step (b := .construct (.shape [("part", choice)])) hunion
    (by simp [BuildingStep.handles, Construction.handles, Store.Knows, Store.size, first, choice]) not_false

/-- The shape reaches the tuple through the union. -/
theorem reaches : store.Reaches whole unit :=
  .head (.part (List.mem_singleton_self choice)) (.single (.part (List.mem_singleton_self unit)))

/-- The shape meets the row of the tuple, whatever it is held as. -/
theorem meets (kind : NodeKind) : store.Meets whole (.node ⟨kind, 0⟩) := ⟨unit, reaches, rfl⟩

end Wiring

/-- The shape is acyclic, and so is a pair of it; appending it to the row of the tuple, be it held as a tuple or as a union, closes
a cycle, and declaring its field anew as a token closes none. -/
theorem building_acyclic_wiring :
    (Wiring.store.AcyclicFrom Wiring.whole ∧ ∀ heap v node depth,
      (Validator.validate ⟨heap, Wiring.store, none⟩ v Wiring.whole).result ≠ .error (.circular node depth)) ∧
      (∃ s', (Construction.tuple [Wiring.whole, Wiring.whole]).run Wiring.store = .ok (s', .node ⟨.tuple, 3⟩) ∧
        s'.Knows (.node ⟨.tuple, 3⟩) ∧ ¬s'.Returns 3) ∧
      (∀ kind, ∃ s', Wiring.store.pushElement (.node ⟨kind, 0⟩) Wiring.whole = .ok s' ∧ ¬s'.Acyclic) ∧
      (∃ s', Wiring.store.insertField Wiring.whole "part" (.token "string") = .ok s' ∧ s'.Acyclic) := by
  obtain ⟨hconstruction, hinsertion, hrun⟩ := building_acyclic
  have hacyclic : Wiring.store.Acyclic := fun d => (hrun _ Wiring.built d).1
  have hknows : ∀ kind, ∀ address < 3, Wiring.store.Knows (.node ⟨kind, address⟩) := by
    rintro kind address haddress _ ⟨⟩
    exact haddress
  refine ⟨⟨hacyclic _, fun heap => (hrun _ Wiring.built Wiring.whole).2 heap none⟩, ⟨_, rfl, ?_⟩, fun kind => ⟨_, rfl, ?_⟩,
    ⟨_, rfl, ?_⟩⟩
  · have hhandles : ∀ d ∈ (Construction.tuple [Wiring.whole, Wiring.whole]).handles, Wiring.store.Knows d := by
      simp only [Construction.handles, List.mem_cons, List.not_mem_nil, or_false, or_self, forall_eq]
      exact hknows .shape 2 (by decide)
    obtain ⟨hknown, hcycles⟩ := hconstruction _ Wiring.built.unrestricted _ hhandles _ _ rfl
    exact ⟨hknown, fun hreturns => Store.acyclic_iff.1 hacyclic 3 (hcycles 3 hreturns)⟩
  · exact ((hinsertion _ hacyclic _ Wiring.whole (hknows kind 0 (by decide)) _).1 rfl).2 (Wiring.meets kind)
  · by_contra hcyclic
    have hmeets : Wiring.store.Meets (.token "string") Wiring.whole :=
      ((hinsertion _ hacyclic Wiring.whole (.token "string") (hknows .shape 2 (by decide)) _).2 "part" rfl).1 hcyclic
    obtain ⟨e, hreaches, hsame⟩ := hmeets
    rcases Relation.ReflTransGen.cases_head hreaches with rfl | ⟨e, hpart, _⟩
    · exact absurd hsame (by decide)
    · cases hpart

end Conform
