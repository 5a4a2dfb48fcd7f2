import Conform.Proofs.Likeness
import Conform.Proofs.Position
import Conform.Tree

/-!
# Sharing

A definition unfolds to a finite tree when following its handles down to the leaves gives that tree, once for every way that
leads to a handle (`Store.Unfolds`). Exactly the acyclic definitions unfold (`Store.acyclicFrom_iff_exists_unfolds`). Which of
their nodes are shared and which are copies is lost in the tree, and a run does not tell either: two definitions that unfold to
the same tree, perhaps in different stores, have the same outcome, event by event (`sharing_unobservable`). Identities are all
that the guard against cycles looks at, and on an acyclic definition no identity is ever met on its own path.
-/

namespace Conform

namespace Node

variable {δ ε ζ : Type}

/-- A node without its parts: the kind, the number of parts, the bounds and the names of the fields. -/
def frame (n : Node δ) : Node Unit := n.map fun _ => ()

theorem map_map (g : ε → ζ) (f : δ → ε) (n : Node δ) : (n.map f).map g = n.map fun d => g (f d) := by
  cases n <;> simp [map]

theorem frame_map (f : δ → ε) (n : Node δ) : (n.map f).frame = n.frame := map_map _ f n

theorem children_map (f : δ → ε) (n : Node δ) : (n.map f).children = n.children.map f := by
  cases n <;> simp [map, children]

/-- The label of a node does not depend on its parts. -/
theorem describe_map (f : δ → ε) (n : Node δ) : (n.map f).describe = n.describe := by
  cases n with
  | shape fields =>
    have hnames : (fields.map fun e => (e.1, f e.2)).map Prod.fst = fields.map Prod.fst := by
      rw [List.map_map]
      rfl
    simp only [map, describe, hnames]
  | _ => simp [map, describe]

/-- Nodes with the same frame have the same label. -/
theorem describe_eq_of_frame_eq {n : Node δ} {m : Node ε} (h : n.frame = m.frame) : n.describe = m.describe := by
  rw [← describe_map (fun _ => ()) n, ← describe_map (fun _ => ()) m]
  exact congrArg describe h

/-- A part of a node is smaller than the node. -/
theorem sizeOf_lt_of_mem_children [SizeOf δ] {n : Node δ} {d : δ} (h : d ∈ n.children) : sizeOf d < sizeOf n := by
  cases n with
  | tuple items =>
    have hlt : sizeOf d < sizeOf items := List.sizeOf_lt_of_mem h
    simp only [tuple.sizeOf_spec]
    omega
  | union alternatives =>
    have hlt : sizeOf d < sizeOf alternatives := List.sizeOf_lt_of_mem h
    simp only [union.sizeOf_spec]
    omega
  | bounded element min max =>
    rw [List.mem_singleton.1 h]
    simp only [bounded.sizeOf_spec]
    omega
  | shape fields =>
    obtain ⟨⟨key, e⟩, hmem, rfl⟩ := List.mem_map.1 h
    have hlt : sizeOf (key, e) < sizeOf fields := List.sizeOf_lt_of_mem hmem
    simp only [Prod.mk.sizeOf_spec] at hlt
    simp only [shape.sizeOf_spec]
    omega

end Node

/-- What holds of every leaf, and of a node when it holds of all parts of the node, holds of every tree. -/
theorem Tree.induction {motive : Tree → Prop} (token : ∀ text, motive (.token text)) (null : motive .null)
    (undefined : motive .undefined) (nominal : ∀ cls, motive (.nominal cls)) (other : ∀ v, motive (.other v))
    (node : ∀ n : Node Tree, (∀ t ∈ n.children, motive t) → motive (.node n)) : ∀ t, motive t
  | .token text => token text
  | .null => null
  | .undefined => undefined
  | .nominal cls => nominal cls
  | .other v => other v
  | .node n => node n fun t _ => Tree.induction token null undefined nominal other node t
termination_by t => sizeOf t
decreasing_by
  have hlt := Node.sizeOf_lt_of_mem_children ‹t ∈ n.children›
  simp only [Tree.node.sizeOf_spec]
  omega

instance : Inhabited Tree := ⟨.null⟩

/-- Members of a row are related to members of a row that is related to it. -/
theorem exists_mem_of_forall₂ {α β : Type} {R : α → β → Prop} {l : List α} {l' : List β} (h : List.Forall₂ R l l') :
    ∀ a ∈ l, ∃ b ∈ l', R a b := by
  induction h with
  | nil => simp
  | @cons a b _ _ hab _ ih =>
    intro a' ha'
    rcases List.mem_cons.1 ha' with rfl | ha'
    · exact ⟨b, List.mem_cons_self, hab⟩
    · obtain ⟨b', hb', hR⟩ := ih a' ha'
      exact ⟨b', List.mem_cons_of_mem b hb', hR⟩

/-- A member of a row is related to the member at the same position of a row that is related to it. -/
theorem exists_getElem?_of_forall₂ {α β : Type} {R : α → β → Prop} {l : List α} {l' : List β} (h : List.Forall₂ R l l') {i : Nat}
    {a : α} (ha : l[i]? = some a) : ∃ b, l'[i]? = some b ∧ R a b := by
  obtain ⟨hi, rfl⟩ := List.getElem?_eq_some_iff.1 ha
  have hi' : i < l'.length := h.length_eq ▸ hi
  exact ⟨l'[i], List.getElem?_eq_getElem hi', h.get hi hi'⟩

/-- Rows of entries that are related with their names have the same names. -/
theorem Fields.keys_eq_of_forall₂ {α β : Type} {R : String × α → String × β → Prop} {fields : List (String × α)}
    {fields' : List (String × β)} (h : List.Forall₂ (fun f g => f.1 = g.1 ∧ R f g) fields fields') : keys fields = keys fields' := by
  induction h with
  | nil => rfl
  | cons hhead _ ih => exact congrArg₂ List.cons hhead.1 ih

namespace Store

/-- Whether a definition unfolds to a tree: a leaf to itself, where a value that stands for nothing may be any other one, and a
node to a node of the same frame over what its parts unfold to. -/
inductive Unfolds (s : Store) : Definition → Tree → Prop where
  | token (text : String) : Unfolds s (.token text) (.token text)
  | null : Unfolds s .null .null
  | undefined : Unfolds s .undefined .undefined
  | nominal (cls : Class) : Unfolds s (.nominal cls) (.nominal cls)
  | other (v w : Value) : Unfolds s (.other v) (.other w)
  | node {ref : Ref} {n : Node Tree} (hframe : (s.node ref).frame = n.frame)
      (hparts : List.Forall₂ (Unfolds s) (s.node ref).children n.children) : Unfolds s (.node ref) (.node n)

/-! ### Acyclic definitions are those that unfold -/

/-- No row of parts goes on forever below a definition that unfolds. -/
theorem Unfolds.acc {s : Store} {d : Definition} {t : Tree} (h : s.Unfolds d t) : Acc (fun e d => s.Holds d e) d := by
  induction t using Tree.induction generalizing d with
  | node n ih =>
    refine Acc.intro d fun e hpart => ?_
    cases h with
    | node hframe hparts =>
      obtain ⟨t, ht, he⟩ := exists_mem_of_forall₂ hparts e hpart.mem_children
      exact ih t ht he
  | _ =>
    refine Acc.intro d fun e hpart => ?_
    cases h
    cases hpart

/-- A definition without an infinite row of parts is acyclic. -/
theorem acyclicFrom_of_acc {s : Store} {d : Definition} (h : Acc (fun e d => s.Holds d e) d) : s.AcyclicFrom d := by
  rw [acyclicFrom_iff]
  intro ref href hcycle
  have hreached : ∀ e, s.Reaches d e → Acc (fun e d => s.Holds d e) e := by
    intro e he
    induction he with
    | refl => exact h
    | tail _ hpart ih => exact ih.inv hpart
  -- The cycle, read from its end, is a descending chain from the node to itself.
  have hdown : Relation.TransGen (fun e d => s.Holds d e) (.node ref) (.node ref) := Relation.transGen_swap.2 hcycle
  have hloop : ∀ e, Acc (Relation.TransGen fun e d => s.Holds d e) e → ¬Relation.TransGen (fun e d => s.Holds d e) e e := by
    intro e he
    induction he with
    | intro e _ ih => exact fun hself => ih e hself hself
  exact hloop _ (hreached _ href).transGen hdown

/-- Below the end of a descent from an acyclic definition everything unfolds. -/
theorem Descent.exists_unfolds {s : Store} {root d : Definition} {refs : List Ref} (h : s.Descent root refs d)
    (hacyclic : s.AcyclicFrom root) : ∃ t, s.Unfolds d t := by
  cases d with
  | token text => exact ⟨_, .token text⟩
  | null => exact ⟨_, .null⟩
  | undefined => exact ⟨_, .undefined⟩
  | nominal cls => exact ⟨_, .nominal cls⟩
  | other v => exact ⟨_, .other v v⟩
  | node ref =>
    have hnew : ref.address ∉ refs.map Ref.address := fun hback => h.not_acyclicFrom hback hacyclic
    have hparts : ∀ e ∈ (s.node ref).children, ∃ t, s.Unfolds e t := by
      intro e he
      have hpart : s.Descent root (ref :: refs) e := h.part hnew (.part he)
      exact hpart.exists_unfolds hacyclic
    choose! tree htree using hparts
    refine ⟨.node ((s.node ref).map tree), .node (Node.frame_map tree _).symm ?_⟩
    rw [Node.children_map, List.forall₂_map_right_iff]
    exact List.forall₂_same.2 htree
termination_by (s.reachable root).ncard - refs.length
decreasing_by
  have hlength := hpart.length_le
  simp only [List.length_cons] at hlength ⊢
  omega

/-- Exactly the acyclic definitions unfold. -/
theorem acyclicFrom_iff_exists_unfolds {s : Store} {d : Definition} : s.AcyclicFrom d ↔ ∃ t, s.Unfolds d t := by
  constructor
  · intro hacyclic
    exact Descent.root.exists_unfolds hacyclic
  · rintro ⟨t, ht⟩
    exact acyclicFrom_of_acc ht.acc

/-! ### Definitions with the same unfolding -/

/-- Two definitions, each in a store of its own, unfold to the same tree. -/
def SameUnfolding (s s' : Store) (d d' : Definition) : Prop := ∃ t, s.Unfolds d t ∧ s'.Unfolds d' t

/-- Rows that are related to the same row are related to each other through it. -/
theorem forall₂_of_forall₂_right {α β γ : Type} {R : α → γ → Prop} {S : β → γ → Prop} {as : List α} {bs : List β} {cs : List γ}
    (hR : List.Forall₂ R as cs) (hS : List.Forall₂ S bs cs) : List.Forall₂ (fun a b => ∃ c, R a c ∧ S b c) as bs := by
  induction hR generalizing bs with
  | nil =>
    cases hS
    exact .nil
  | cons ha _ ih =>
    cases hS with
    | cons hb hrest => exact .cons ⟨_, ha, hb⟩ (ih hrest)

/-- Definitions with the same unfolding have the same label. -/
theorem SameUnfolding.describe_eq {s s' : Store} {d d' : Definition} (h : s.SameUnfolding s' d d') :
    s.describe d = s'.describe d' := by
  obtain ⟨t, ht, ht'⟩ := h
  cases ht with
  | node hframe _ =>
    cases ht' with
    | node hframe' _ => exact Node.describe_eq_of_frame_eq (hframe.trans hframe'.symm)
  | _ =>
    cases ht'
    rfl

/-- What a token abbreviates holds leaves that unfold to themselves in every store. -/
theorem sameUnfolding_of_mem_expansion {s s' : Store} {t : TypeToken} {n : Node Definition} (hn : t.expansion? = some n) :
    ∀ e ∈ n.children, s.SameUnfolding s' e e := by
  intro e he
  rcases expansion?_cases hn with ⟨_, rfl⟩ | ⟨_, _, rfl⟩
  · simp only [Node.optional, Node.children, List.mem_cons, List.not_mem_nil, or_false] at he
    rcases he with rfl | rfl | rfl
    · exact ⟨_, .null, .null⟩
    · exact ⟨_, .undefined, .undefined⟩
    · exact ⟨_, .token _, .token _⟩
  · rw [List.mem_singleton.1 he]
    exact ⟨_, .token _, .token _⟩

end Store

/-- Two subjects with the same unfolding: definitions, or what a token abbreviates, with the same frame over parts that have the
same unfolding. -/
inductive Subject.SameUnfolding (s s' : Store) : Subject → Subject → Prop where
  | definition {d d' : Definition} (h : s.SameUnfolding s' d d') : SameUnfolding s s' (.definition d) (.definition d')
  | expansion {n n' : Node Definition} (hframe : n.frame = n'.frame)
      (hparts : List.Forall₂ (s.SameUnfolding s') n.children n'.children) : SameUnfolding s s' (.expansion n) (.expansion n')

/-! ### Corresponding inquiries -/

/-- The same value asked about two parts that are related. -/
def RelatedQuestion {σ τ : Type} (R : σ → τ → Prop) (q : Value × σ) (q' : Value × τ) : Prop := q.1 = q'.1 ∧ R q.2 q'.2

section

variable {δ ε : Type} {R : δ → ε → Prop}

/-- The same elements stand at the positions of related parts. -/
theorem forall₂_positions_of_forall₂ {ds : List δ} {es : List ε} (h : List.Forall₂ R ds es) :
    ∀ vs, List.Forall₂ (RelatedQuestion R) (positions vs ds) (positions vs es) := by
  induction h with
  | nil =>
    intro vs
    cases vs <;> exact .nil
  | cons hde _ ih =>
    intro vs
    cases vs with
    | nil => exact .cons ⟨rfl, hde⟩ (ih [])
    | cons v vs => exact .cons ⟨rfl, hde⟩ (ih vs)

/-- Fields with the same names over related parts are related one by one. -/
theorem forall₂_fields {fs : List (String × δ)} {gs : List (String × ε)}
    (hnames : fs.map (fun f => (f.1, ())) = gs.map fun g => (g.1, ()))
    (hparts : List.Forall₂ R (fs.map Prod.snd) (gs.map Prod.snd)) :
    List.Forall₂ (fun f g => f.1 = g.1 ∧ R f.2 g.2) fs gs := by
  induction fs generalizing gs with
  | nil =>
    cases gs with
    | nil => exact .nil
    | cons g gs => simp at hnames
  | cons f fs ih =>
    cases gs with
    | nil => simp at hnames
    | cons g gs =>
      simp only [List.map_cons, List.cons.injEq, Prod.mk.injEq, and_true] at hnames
      simp only [List.map_cons, List.forall₂_cons] at hparts
      exact .cons ⟨hnames.1, hparts.1⟩ (ih hnames.2 hparts.2)

/-- Nodes with the same frame over related parts come to corresponding questions. -/
theorem Node.matches_inquiry_of_frame_eq {n : Node δ} {m : Node ε} (hframe : n.frame = m.frame)
    (hparts : List.Forall₂ R n.children m.children) (heap : Heap) (v : Value) :
    (n.inquiry heap v).Matches (RelatedQuestion R) (m.inquiry heap v) := by
  cases n with
  | tuple items =>
    cases m with
    | tuple items' =>
      have hlength : items.length = items'.length := hparts.length_eq
      simp only [inquiry, hlength]
      split
      · exact Inquiry.matches_settled rfl
      · split
        · exact Inquiry.matches_settled rfl
        · exact ⟨rfl, forall₂_positions_of_forall₂ hparts _⟩
    | _ => simp [frame, map] at hframe
  | union alternatives =>
    cases m with
    | union alternatives' =>
      have hquestions : (Inquiry.any alternatives).Matches R (.any alternatives') := ⟨rfl, hparts⟩
      exact hquestions.map fun d e hde => ⟨rfl, hde⟩
    | _ => simp [frame, map] at hframe
  | bounded element min max =>
    cases m with
    | bounded element' min' max' =>
      simp only [frame, map, bounded.injEq, true_and] at hframe
      obtain ⟨rfl, rfl⟩ := hframe
      have hpart : R element element' := by simpa [children] using hparts
      simp only [inquiry]
      split
      · exact Inquiry.matches_settled rfl
      · split
        · exact (Inquiry.all _).matches_self.map fun a b hab => ⟨hab.2, hpart⟩
        · exact Inquiry.matches_settled rfl
    | _ => simp [frame, map] at hframe
  | shape fields =>
    cases m with
    | shape fields' =>
      simp only [frame, map, shape.injEq] at hframe
      simp only [inquiry]
      split
      · have hfields : (Inquiry.all fields).Matches (fun f g => f.1 = g.1 ∧ R f.2 g.2) (.all fields') :=
          ⟨rfl, forall₂_fields hframe hparts⟩
        exact hfields.map fun f g hfg => ⟨congrArg (heap.field v) hfg.1, hfg.2⟩
      · exact Inquiry.matches_settled rfl
    | _ => simp [frame, map] at hframe

end

/-- Subjects with the same unfolding have the same label. -/
theorem Subject.SameUnfolding.label_eq {s s' : Store} {a b : Subject} (h : Subject.SameUnfolding s s' a b) :
    a.label s = b.label s' := by
  cases h with
  | definition h => exact h.describe_eq
  | expansion hframe _ => exact Node.describe_eq_of_frame_eq hframe

/-- Subjects with the same unfolding come to corresponding questions about subjects with the same unfolding. -/
theorem Subject.SameUnfolding.matches_inquiry {s s' : Store} {a b : Subject} (h : Subject.SameUnfolding s s' a b) (heap : Heap)
    (v : Value) :
    (a.inquiry heap s v).Matches (RelatedQuestion (Subject.SameUnfolding s s')) (b.inquiry heap s' v) := by
  have hdefinitions : ∀ {n m : Node Definition}, n.frame = m.frame → List.Forall₂ (s.SameUnfolding s') n.children m.children →
      ((n.inquiry heap v).map fun q => (q.1, Subject.definition q.2)).Matches (RelatedQuestion (Subject.SameUnfolding s s'))
        ((m.inquiry heap v).map fun q => (q.1, Subject.definition q.2)) := by
    intro n m hframe hparts
    exact (Node.matches_inquiry_of_frame_eq hframe hparts heap v).map fun q q' hq => ⟨hq.1, .definition hq.2⟩
  cases h with
  | expansion hframe hparts => exact hdefinitions hframe hparts
  | definition h =>
    obtain ⟨t, ht, ht'⟩ := h
    cases ht with
    | token text =>
      cases ht'
      simp only [Subject.inquiry]
      split
      · exact Inquiry.matches_settled rfl
      · split
        · exact Inquiry.matches_settled rfl
        · rename_i n hn
          have hself : List.Forall₂ (s.SameUnfolding s') n.children n.children :=
            List.forall₂_same.2 (Store.sameUnfolding_of_mem_expansion hn)
          exact ⟨rfl, .cons ⟨rfl, .expansion rfl hself⟩ .nil⟩
    | node hframe hparts =>
      cases ht' with
      | node hframe' hparts' =>
        exact hdefinitions (hframe.trans hframe'.symm) (Store.forall₂_of_forall₂_right hparts hparts')
    | _ =>
      cases ht'
      exact Inquiry.matches_settled rfl

/-- Inquiries that correspond do so with questions of the second one. -/
theorem Inquiry.Matches.mem_right {κ ι : Type} {R : κ → ι → Prop} {q : Inquiry κ} {q' : Inquiry ι} (h : q.Matches R q') :
    q.Matches (fun k k' => k' ∈ q'.questions ∧ R k k') q' := by
  obtain ⟨hdecisive, hquestions⟩ := h
  refine ⟨hdecisive, List.Forall₂.flip ?_⟩
  exact (List.forall₂_and_left _ _).2 ⟨fun k' hk' => hk', hquestions.flip⟩

/-! ### Runs on definitions with the same unfolding -/

namespace Validator

/-- When no subject is its own ancestor, a call meets the same obstacle as any other call on its level. -/
theorem obstacle?_eq_of_notMem {vd vd' : Validator} {c c' : Call} (hlimit : vd.limit = vd'.limit) (hdepth : c.depth = c'.depth)
    (hc : ∀ a, c.subject.identity = some a → some a ∉ c.path)
    (hc' : ∀ a, c'.subject.identity = some a → some a ∉ c'.path) : vd.obstacle? c = vd'.obstacle? c' := by
  have hguard : ∀ {c : Call}, (∀ a, c.subject.identity = some a → some a ∉ c.path) →
      ¬(c.subject.identity.isSome ∧ c.subject.identity ∈ c.path) := by
    rintro c hc ⟨hsome, hmem⟩
    obtain ⟨a, ha⟩ := Option.isSome_iff_exists.1 hsome
    exact hc a ha (ha ▸ hmem)
  simp only [Call.depth] at hdepth
  simp only [obstacle?, defect?, hguard hc, hguard hc', if_false, hlimit, hdepth]

/-- Calls about the same value, on the same level of two acyclic definitions, whose subjects have the same unfolding, have the
same outcome. -/
theorem answer_eq_of_sameUnfolding (vd : Validator) {s' : Store} {root root' : Definition} (hacyclic : vd.store.AcyclicFrom root)
    (hacyclic' : s'.AcyclicFrom root') (c c' : Call) (hc : Position vd.store root c.path c.subject)
    (hc' : Position s' root' c'.path c'.subject) (hvalue : c.value = c'.value) (hdepth : c.depth = c'.depth)
    (hsubject : Subject.SameUnfolding vd.store s' c.subject c'.subject) :
    vd.answer c = (Validator.mk vd.heap s' vd.limit).answer c' := by
  induction c using vd.call_induction generalizing c' with
  | step c ih =>
    have hsame : vd.obstacle? c = (Validator.mk vd.heap s' vd.limit).obstacle? c' :=
      obstacle?_eq_of_notMem rfl hdepth (fun a ha => hc.notMem_of_acyclicFrom hacyclic ha)
        fun a ha => hc'.notMem_of_acyclicFrom hacyclic' ha
    cases hobstacle : vd.obstacle? c with
    | some defect =>
      rw [answer_of_obstacle?_eq_some hobstacle, answer_of_obstacle?_eq_some (hsame ▸ hobstacle), hdepth]
    | none =>
      have hclear : (Validator.mk vd.heap s' vd.limit).obstacle? c' = none := hsame ▸ hobstacle
      rw [answer_of_obstacle?_eq_none hobstacle, answer_of_obstacle?_eq_none hclear]
      simp only [inquiry, hvalue]
      refine Inquiry.run_eq_of_matches (hsubject.matches_inquiry vd.heap c'.value).mem_right ?_
      rintro q hq q' ⟨hq', hvalues, hsubjects⟩
      have hopen : vd.CanOpen c (c.below q) := ⟨hobstacle, q, by simpa only [inquiry, hvalue] using hq, rfl⟩
      have hopen' : (Validator.mk vd.heap s' vd.limit).CanOpen c' (c'.below q') := ⟨hclear, q', hq', rfl⟩
      refine ⟨ih (c.below q) hopen (c'.below q') (hopen.position hc) (hopen'.position hc') hvalues ?_ hsubjects,
        hsubjects.label_eq⟩
      rw [Call.depth_below, Call.depth_below, hdepth]

end Validator

/-- Sharing is not observed, in three parts.
1. Exactly the acyclic definitions unfold to a tree.
2. Two definitions that unfold to the same tree, in whatever stores they stand, have the same outcome for every value and with
   every limit: the same events, and the same answer or defect.
3. The only defect that such an outcome can come to is that a level is below the limit. -/
theorem sharing_unobservable (heap : Heap) (s s' : Store) (d d' : Definition) :
    (s.AcyclicFrom d ↔ ∃ t, s.Unfolds d t) ∧
    (∀ t, s.Unfolds d t → s'.Unfolds d' t → ∀ limit v,
      Validator.validate ⟨heap, s, limit⟩ v d = Validator.validate ⟨heap, s', limit⟩ v d') ∧
    (∀ t, s.Unfolds d t → ∀ limit v defect, (Validator.validate ⟨heap, s, limit⟩ v d).result = .error defect →
      ∃ n, limit = some n ∧ defect = .tooDeep n) := by
  refine ⟨Store.acyclicFrom_iff_exists_unfolds, ?_, ?_⟩
  · intro t ht ht' limit v
    have hacyclic : s.AcyclicFrom d := Store.acyclicFrom_iff_exists_unfolds.2 ⟨t, ht⟩
    have hacyclic' : s'.AcyclicFrom d' := Store.acyclicFrom_iff_exists_unfolds.2 ⟨t, ht'⟩
    exact Validator.answer_eq_of_sameUnfolding ⟨heap, s, limit⟩ hacyclic hacyclic' (.root v d) (.root v d') (.graph .root)
      (.graph .root) rfl rfl (.definition ⟨t, ht, ht'⟩)
  · intro t ht limit v defect herror
    have hacyclic : s.AcyclicFrom d := Store.acyclicFrom_iff_exists_unfolds.2 ⟨t, ht⟩
    obtain ⟨c, hreached, hobstacle⟩ := Validator.exists_reached_of_error _ (.root v d) herror
    rcases Validator.obstacle?_cases hobstacle with ⟨a, ha, hmem, _⟩ | ⟨n, hn, _, hdefect⟩
    · have hposition := Validator.position_of_reached hreached
      exact absurd hmem (hposition.notMem_of_acyclicFrom hacyclic ha)
    · exact ⟨n, hn, hdefect⟩

/-! ### A pair of names -/

namespace Names

/-- A pair whose two parts are one union: a text that may be missing, or what stands for nothing. -/
def shared : Store := ⟨#[.row [.node ⟨.union, 1⟩, .node ⟨.union, 1⟩], .row [.other (.bool true), .token "string?"]]⟩

/-- The pair with a union for each part. -/
def copied : Store :=
  ⟨#[.row [.other .null, .token "string?"], .row [.node ⟨.union, 2⟩, .node ⟨.union, 0⟩],
    .row [.other (.bool false), .token "string?"]]⟩

/-- The pair whose parts are shared. -/
def pair : Definition := .node ⟨.tuple, 0⟩

/-- The pair whose parts are copies. -/
def pair' : Definition := .node ⟨.tuple, 1⟩

/-- What both pairs unfold to. -/
def tree : Tree :=
  let name : Tree := .node (.union [.other .undefined, .token "string?"])
  .node (.tuple [name, name])

/-- A list of one name. -/
def heap : Heap := ⟨#[[.string "first"]], #[], 0⟩

theorem unfolds_shared : shared.Unfolds pair tree := by
  have hname : shared.Unfolds (.node ⟨.union, 1⟩) (.node (.union [.other .undefined, .token "string?"])) :=
    .node rfl (.cons (.other _ _) (.cons (.token _) .nil))
  exact .node rfl (.cons hname (.cons hname .nil))

theorem unfolds_copied : copied.Unfolds pair' tree := by
  have hsecond : copied.Unfolds (.node ⟨.union, 0⟩) (.node (.union [.other .undefined, .token "string?"])) :=
    .node rfl (.cons (.other _ _) (.cons (.token _) .nil))
  have hfirst : copied.Unfolds (.node ⟨.union, 2⟩) (.node (.union [.other .undefined, .token "string?"])) :=
    .node rfl (.cons (.other _ _) (.cons (.token _) .nil))
  exact .node rfl (.cons hfirst (.cons hsecond .nil))

end Names

/-- A list of one name has the same outcome for both pairs, without a limit and with one level, which ends before the
alternatives of the union. -/
theorem sharing_unobservable_names :
    Names.shared.AcyclicFrom Names.pair ∧
      Validator.validate ⟨Names.heap, Names.shared, none⟩ (.array 0) Names.pair =
        Validator.validate ⟨Names.heap, Names.copied, none⟩ (.array 0) Names.pair' ∧
      Validator.validate ⟨Names.heap, Names.shared, some 1⟩ (.array 0) Names.pair =
        Validator.validate ⟨Names.heap, Names.copied, some 1⟩ (.array 0) Names.pair' ∧
      (Validator.validate ⟨Names.heap, Names.shared, some 1⟩ (.array 0) Names.pair).result = .error (.tooDeep 1) ∧
      ∃ n, some 1 = some n ∧ Defect.tooDeep 1 = .tooDeep n := by
  have herror : (Validator.validate ⟨Names.heap, Names.shared, some 1⟩ (.array 0) Names.pair).result = .error (.tooDeep 1) := by
    cbv
  obtain ⟨hacyclic, hsame, hdefect⟩ := sharing_unobservable Names.heap Names.shared Names.copied Names.pair Names.pair'
  refine ⟨hacyclic.2 ⟨_, Names.unfolds_shared⟩, ?_, ?_, herror, ?_⟩
  · exact hsame _ Names.unfolds_shared Names.unfolds_copied none _
  · exact hsame _ Names.unfolds_shared Names.unfolds_copied (some 1) _
  · exact hdefect _ Names.unfolds_shared (some 1) _ _ herror

end Conform
