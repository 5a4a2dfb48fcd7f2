import Conform.Proofs.DistinctKeys
import Conform.Proofs.Unfolding

/-!
# Stores that grow

Making a definition adds bodies to a store and leaves the bodies that are there. What a new body holds was there before it, so no
new one comes back to itself: on a store that holds only what it knows, the addresses on cycles are the same before and after
(`Store.Grows.returns`). Planting a tree is growing in this sense (`Store.plant_grows`), whatever the tree and the store.
-/

namespace Conform

namespace Fields

variable {α : Type}

/-- What a row holds that is built entry by entry was held at the beginning or is one of the entries. -/
theorem exists_mem_of_mem_foldl_insert {entries done : List (String × α)} {f : String × α}
    (h : f ∈ entries.foldl (fun fields e => insert fields e.1 e.2) done) : f ∈ done ∨ ∃ e ∈ entries, f.2 = e.2 := by
  induction entries generalizing done with
  | nil => exact Or.inl h
  | cons e entries ih =>
    rcases ih h with hdone | ⟨g, hg, heq⟩
    · rcases eq_or_mem_of_mem_insert hdone with heq | hold
      · exact Or.inr ⟨e, List.mem_cons_self, heq⟩
      · exact Or.inl hold
    · exact Or.inr ⟨g, List.mem_cons_of_mem e hg, heq⟩

/-- What a row of entries holds is what one of the entries holds. -/
theorem exists_mem_of_mem_ofList {entries : List (String × α)} {f : String × α} (h : f ∈ ofList entries) :
    ∃ e ∈ entries, f.2 = e.2 :=
  (exists_mem_of_mem_foldl_insert h).resolve_left List.not_mem_nil

/-- An entry with a new name comes last. -/
theorem insert_eq_append {fields : List (String × α)} {key : String} (h : key ∉ keys fields) (entry : α) :
    insert fields key entry = fields ++ [(key, entry)] := by
  induction fields with
  | nil => rfl
  | cons f rest ih =>
    obtain ⟨hhead, hrest⟩ := not_or.1 (mt List.mem_cons.2 h)
    rw [insert, if_neg fun heq => hhead heq.symm, ih hrest, List.cons_append]

/-- Entries with distinct names are a row as they stand. -/
theorem ofList_eq_self {entries : List (String × α)} (h : (keys entries).Nodup) : ofList entries = entries := by
  have happend : ∀ done : List (String × α), (keys (done ++ entries)).Nodup →
      entries.foldl (fun fields e => insert fields e.1 e.2) done = done ++ entries := by
    clear h
    induction entries with
    | nil => intro done _; exact (List.append_nil done).symm
    | cons e entries ih =>
      intro done hdone
      have hnew : e.1 ∉ keys done := by
        intro hmem
        simp only [keys, List.map_append, List.map_cons, List.nodup_append] at hdone
        exact hdone.2.2 _ hmem _ List.mem_cons_self rfl
      rw [List.foldl_cons, insert_eq_append hnew, ih, List.append_assoc, List.singleton_append]
      rwa [List.append_assoc, List.singleton_append]
  exact happend [] h

end Fields

namespace Store

/-- Whether a definition is a leaf or a node whose address was given out. -/
def Knows (s : Store) (d : Definition) : Prop := ∀ ref, d = .node ref → ref.address < s.size

/-- Whether all bodies hold only what the store knows. -/
def Closed (s : Store) : Prop := ∀ address, ∀ d ∈ (s.body address).children, s.Knows d

/-- A store has become another one by adding bodies, each over nodes with smaller addresses. -/
structure Grows (s s' : Store) : Prop where
  size_le : s.size ≤ s'.size
  body_eq : ∀ address < s.size, s'.body address = s.body address
  lt_of_mem : ∀ address, s.size ≤ address → ∀ child, Definition.node child ∈ (s'.body address).children →
    child.address < address

variable {s s' s'' : Store}

theorem closed_empty : empty.Closed := by
  intro address d hd
  exact absurd (lt_size_of_mem_body hd) (Nat.not_lt_zero address)

namespace Grows

theorem refl (s : Store) : s.Grows s where
  size_le := Nat.le_refl _
  body_eq _ _ := rfl
  lt_of_mem _ haddress _ hmem := absurd (lt_size_of_mem_body hmem) (Nat.not_lt.2 haddress)

theorem trans (h : s.Grows s') (h' : s'.Grows s'') : s.Grows s'' where
  size_le := h.size_le.trans h'.size_le
  body_eq address hlt := (h'.body_eq address (hlt.trans_le h.size_le)).trans (h.body_eq address hlt)
  lt_of_mem address hle child hmem := by
    by_cases hlt : address < s'.size
    · rw [h'.body_eq address hlt] at hmem
      exact h.lt_of_mem address hle child hmem
    · exact h'.lt_of_mem address (Nat.le_of_not_lt hlt) child hmem

/-- Adding a node over nodes of the store is growing. -/
theorem add {content : Node Definition} (h : ∀ d ∈ content.children, s.Knows d) : s.Grows (s.add content).1 where
  size_le := by simp
  body_eq address hlt := by rw [body_add, if_neg hlt.ne]
  lt_of_mem address hle child hmem := by
    rw [body_add] at hmem
    split at hmem
    · rename_i heq
      exact heq ▸ h _ (by simpa using hmem) child rfl
    · exact absurd (lt_size_of_mem_body hmem) (Nat.not_lt.2 hle)

theorem knows (h : s.Grows s') {d : Definition} (hd : s.Knows d) : s'.Knows d :=
  fun ref href => (hd ref href).trans_le h.size_le

/-- The nodes that were there read as before. -/
theorem node_eq (h : s.Grows s') {ref : Ref} (href : ref.address < s.size) : s'.node ref = s.node ref :=
  congrArg (Body.read ref.kind) (h.body_eq ref.address href)

/-- A store that has grown still holds only what it knows. -/
theorem closed (h : s.Grows s') (hclosed : s.Closed) : s'.Closed := by
  rintro address _ hmem child rfl
  by_cases hlt : address < s.size
  · have hold := hmem
    rw [h.body_eq address hlt] at hold
    exact h.knows (hclosed address _ hold) child rfl
  · exact (h.lt_of_mem address (Nat.le_of_not_lt hlt) child hmem).trans (lt_size_of_mem_body hmem)

/-- A way down from a node that was there is a way through nodes that were there. -/
theorem transGen_of_lt (h : s.Grows s') (hclosed : s.Closed) {ref : Ref} (href : ref.address < s.size) {d : Definition}
    (hway : Relation.TransGen s'.Holds (.node ref) d) : Relation.TransGen s.Holds (.node ref) d ∧ s.Knows d := by
  induction hway with
  | single hpart =>
    rw [holds_node_iff, h.body_eq _ href] at hpart
    exact ⟨.single (holds_node_iff.2 hpart), hclosed _ _ hpart⟩
  | tail _ hpart ih =>
    obtain ⟨hway, hknown⟩ := ih
    cases hpart with
    | @part owner e hmem =>
      rw [h.node_eq (hknown owner rfl)] at hmem
      exact ⟨hway.tail (.part hmem), hclosed _ _ (s.children_node owner ▸ hmem)⟩

/-- A way down from a new node comes to nodes with smaller addresses. -/
theorem lt_of_transGen (h : s.Grows s') (hclosed : s.Closed) {ref : Ref} (href : s.size ≤ ref.address) {d : Definition}
    (hway : Relation.TransGen s'.Holds (.node ref) d) : ∀ child, d = .node child → child.address < ref.address := by
  induction hway with
  | single hpart =>
    rintro child rfl
    exact h.lt_of_mem ref.address href child (holds_node_iff.1 hpart)
  | tail _ hpart ih =>
    rintro child rfl
    cases hpart with
    | @part owner _ hmem =>
      rw [children_node] at hmem
      by_cases howner : owner.address < s.size
      · rw [h.body_eq _ howner] at hmem
        exact (hclosed _ _ hmem child rfl).trans_le href
      · exact (h.lt_of_mem _ (Nat.le_of_not_lt howner) child hmem).trans (ih owner rfl)

/-- What comes back to itself did so before. -/
theorem returns (h : s.Grows s') (hclosed : s.Closed) {address : Nat} (hback : s'.Returns address) : s.Returns address := by
  obtain ⟨ref, ref', rfl, hsame, hway⟩ := hback
  by_cases href : ref.address < s.size
  · exact ⟨ref, ref', rfl, hsame, (h.transGen_of_lt hclosed href hway).1⟩
  · have hless := h.lt_of_transGen hclosed (Nat.le_of_not_lt href) hway ref' rfl
    rw [hsame] at hless
    exact absurd hless (Nat.lt_irrefl _)

end Grows

/-- A node that was added is known. -/
theorem knows_add (s : Store) (content : Node Definition) : (s.add content).1.Knows (s.add content).2 := by
  rintro ref ⟨⟩
  simp

/-! ### Planting -/

theorem plantItems_cons (s : Store) (t : Tree) (ts : List Tree) :
    s.plantItems (t :: ts) =
      (((s.plant t).1.plantItems ts).1, (s.plant t).2 :: ((s.plant t).1.plantItems ts).2) := rfl

theorem length_plantItems (s : Store) (ts : List Tree) : (s.plantItems ts).2.length = ts.length := by
  induction ts generalizing s with
  | nil => rfl
  | cons t ts ih => rw [plantItems_cons, List.length_cons, List.length_cons, ih]

/-- Named trees are planted like a row of trees. -/
theorem plantFields_eq (s : Store) (fields : List (String × Tree)) :
    s.plantFields fields =
      ((s.plantItems (fields.map Prod.snd)).1, (Fields.keys fields).zip (s.plantItems (fields.map Prod.snd)).2) := by
  induction fields generalizing s with
  | nil => rfl
  | cons f fields ih =>
    obtain ⟨key, t⟩ := f
    simp only [plantFields, ih]
    rfl

/-- Planting a node plants its parts one after the other and adds a node over them. Unless a shape repeats a key, the node added
has the frame of the tree and holds all parts in order. -/
theorem plant_node (s : Store) (n : Node Tree) :
    ∃ content, s.plant (.node n) = (s.plantItems n.children).1.add content ∧
      content.children ⊆ (s.plantItems n.children).2 ∧
      (n.keys.Nodup → content.frame = n.frame ∧ content.children = (s.plantItems n.children).2) := by
  cases n with
  | tuple items =>
    refine ⟨.tuple (s.plantItems items).2, rfl, List.Subset.refl _, fun _ => ⟨?_, rfl⟩⟩
    simp [Node.frame, Node.map, length_plantItems, List.map_const']
  | union alternatives =>
    refine ⟨.union (s.plantItems alternatives).2, rfl, List.Subset.refl _, fun _ => ⟨?_, rfl⟩⟩
    simp [Node.frame, Node.map, length_plantItems, List.map_const']
  | bounded element min max => exact ⟨.bounded (s.plant element).2 min max, rfl, List.Subset.refl _, fun _ => ⟨rfl, rfl⟩⟩
  | shape fields =>
    have hlength : (Fields.keys fields).length = (s.plantItems (fields.map Prod.snd)).2.length := by
      simp [length_plantItems, Fields.keys]
    refine ⟨.shape (Fields.ofList (s.plantFields fields).2), ?_, fun d hd => ?_, fun hkeys => ?_⟩
    · simp only [plant, shape, plantFields_eq, Node.children]
    · obtain ⟨f, hf, rfl⟩ := List.mem_map.1 hd
      obtain ⟨e, he, heq⟩ := Fields.exists_mem_of_mem_ofList hf
      rw [plantFields_eq] at he
      exact heq ▸ (List.of_mem_zip he).2
    · have hnames : Fields.keys (s.plantFields fields).2 = Fields.keys fields := by
        rw [plantFields_eq]
        exact List.map_fst_zip hlength.le
      rw [Fields.ofList_eq_self (hnames ▸ hkeys)]
      constructor
      · simp only [Node.frame, Node.map, Node.shape.injEq]
        have hpairs := congrArg (List.map fun key => (key, ())) hnames
        rwa [Fields.keys, Fields.keys, List.map_map, List.map_map] at hpairs
      · rw [plantFields_eq]
        exact List.map_snd_zip hlength.ge

/-- A row of trees is planted by growing when each of its trees is. -/
theorem plantItems_grows {ts : List Tree} (h : ∀ t ∈ ts, ∀ s : Store, s.Grows (s.plant t).1 ∧ (s.plant t).1.Knows (s.plant t).2)
    (s : Store) : s.Grows (s.plantItems ts).1 ∧ ∀ d ∈ (s.plantItems ts).2, (s.plantItems ts).1.Knows d := by
  induction ts generalizing s with
  | nil => exact ⟨.refl s, by simp [plantItems]⟩
  | cons t ts ih =>
    obtain ⟨hfirst, hknown⟩ := h t List.mem_cons_self s
    obtain ⟨hrest, hknowns⟩ := ih (fun u hu => h u (List.mem_cons_of_mem t hu)) (s.plant t).1
    rw [plantItems_cons]
    exact ⟨hfirst.trans hrest, List.forall_mem_cons.2 ⟨hrest.knows hknown, hknowns⟩⟩

/-- Planting a tree is growing, and the definition that is planted is known. -/
theorem plant_grows (t : Tree) (s : Store) : s.Grows (s.plant t).1 ∧ (s.plant t).1.Knows (s.plant t).2 := by
  induction t using Tree.induction generalizing s with
  | node n ih =>
    obtain ⟨hrow, hknowns⟩ := plantItems_grows ih s
    obtain ⟨content, hplant, hchildren, _⟩ := s.plant_node n
    rw [hplant]
    exact ⟨hrow.trans (.add fun d hd => hknowns d (hchildren hd)), knows_add _ content⟩
  | _ => exact ⟨.refl s, fun ref href => (by cases href)⟩

end Store

end Conform
