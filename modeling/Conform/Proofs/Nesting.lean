import Conform.Proofs.Context
import Conform.Proofs.Locality
import Conform.Proofs.Representation

/-!
# Pointers and nested shapes

A part of a JSON document can be held against a definition in two ways: a pointer selects it, or the document is held against
shapes of one field each, nested along the names of the pointer, with the definition innermost (`Store.nest`). The shapes are new
nodes, so nothing in the definition leads back to them, and each of them passes on the outcome of its field. So a run on the
nested shapes is the run on the part, with every level raised by the number of names (`Validator.answer_nest`,
`select_eq_nest`).
-/

namespace Conform

namespace Store

/-- Shapes of one field each, nested along the names, with a definition innermost. -/
def nest (s : Store) : List String → Definition → Store × Definition
  | [], d => (s, d)
  | name :: names, d => (s.nest names d).1.shape [(name, (s.nest names d).2)]

variable {s s' : Store} {d : Definition}

/-- One shape more is a new node with one field. -/
theorem nest_cons (s : Store) (name : String) (names : List String) (d : Definition) :
    s.nest (name :: names) d = (s.nest names d).1.add (.shape [(name, (s.nest names d).2)]) := rfl

/-- Nesting is growing, and the outermost shape is known. -/
theorem nest_grows (hd : s.Knows d) (names : List String) :
    s.Grows (s.nest names d).1 ∧ (s.nest names d).1.Knows (s.nest names d).2 := by
  induction names with
  | nil => exact ⟨.refl s, hd⟩
  | cons name names ih =>
    obtain ⟨hgrows, hknows⟩ := ih
    rw [nest_cons]
    refine ⟨hgrows.trans (.add ?_), knows_add _ _⟩
    simpa [Node.children] using hknows

end Store

/-! ### What was there before -/

/-- Whether a subject is about nodes of a store only. -/
def Subject.Known (s : Store) : Subject → Prop
  | .definition d => s.Knows d
  | .expansion n => ∀ d ∈ n.children, s.Knows d

variable {s s' : Store}

/-- In a store that has grown the parts of what is known are known. -/
theorem Subject.Known.part {a b : Subject} (h : a.Known s) (hs : s.Closed) (hgrows : s.Grows s') (hpart : a.Part s' b) :
    b.Known s := by
  cases hpart with
  | held hmem =>
    rw [hgrows.node_eq (h _ rfl), Store.children_node] at hmem
    exact hs _ _ hmem
  | abbreviated ht hn =>
    rintro _ hmem ref rfl
    exact absurd hmem (node_notMem_expansion hn ref)
  | unfolded hmem => exact h _ hmem

/-- What is known to a store leads to the same contents when the store grows. -/
theorem Memory.sameFrom_of_grows {heap heap' : Heap} {d : Definition} (hgrows : s.Grows s') (hs : s.Closed) (hd : s.Knows d) :
    Memory.SameFrom ⟨heap, s⟩ ⟨heap', s'⟩ (.definition d) := by
  intro cell hreaches
  generalize ha : Handle.definition d = a at hreaches
  induction hreaches generalizing d with
  | here h =>
    subst ha
    cases d with
    | node ref =>
      cases h
      exact congrArg Contents.parts (hgrows.body_eq ref.address (hd ref rfl))
    | _ => cases h
  | through h hb _ ih =>
    subst ha
    cases d with
    | node ref =>
      cases h
      obtain ⟨e, he, rfl⟩ := List.mem_map.1 hb
      exact ih (hs ref.address e he) rfl
    | _ => cases h

/-- Whether all definitions on a path are nodes that a store does not have. -/
def Store.Lacks (s : Store) (path : Path) : Prop := ∀ a ∈ path, ∃ address, a = some (.node address) ∧ s.size ≤ address

/-- What is known to a store is on no path of nodes that it does not have. -/
theorem Store.Lacks.notMem_of_known {path : Path} (h : s.Lacks path) {a : Subject} (ha : a.Known s) {identity : Identity}
    (hidentity : a.identity = some identity) : some identity ∉ path := by
  intro hmem
  obtain ⟨address, haddress, hnew⟩ := h _ hmem
  cases Option.some.inj haddress
  cases a with
  | expansion n => cases hidentity
  | definition d =>
    cases d with
    | node ref =>
      cases hidentity
      exact absurd (ha ref rfl) (Nat.not_lt.2 hnew)
    | _ => cases hidentity

namespace Validator

variable {heap : Heap} {d : Definition} {v : Value}

/-- Below nodes that are new, a run goes as on the store before, further down. -/
theorem answer_of_lacks {outer : Path} (houter : s.Lacks outer) (hs : s.Closed) (hgrows : s.Grows s') (hd : s.Knows d) :
    (Validator.mk heap s' none).answer ⟨outer, v, .definition d⟩ =
      ((Validator.mk heap s none).validate v d).raise outer.length := by
  have hsame : Memory.SameFrom ⟨heap, s⟩ ⟨heap, s'⟩ (.definition d) := Memory.sameFrom_of_grows hgrows hs hd
  have halone : (Validator.mk heap s none).validate v d = (Validator.mk heap s' none).validate v d :=
    answer_eq_of_sameFrom heap none (.root v d) hsame
  rw [halone]
  -- All calls of the run are about what the store has known before.
  refine answer_append (P := fun c => c.subject.Known s) ?_ ?_ ?_ ⟨outer, v, .definition d⟩ hd (List.nil_append outer).symm
  · intro n hn
    cases hn
  · intro c c' hc hopen
    exact hc.part hs hgrows hopen.part.2
  · intro inner w a ha identity hidentity
    exact houter.notMem_of_known ha hidentity

/-! ### Nested shapes -/

/-- A call about a shape with a single field is the call about the field, for a value that has properties. -/
theorem answer_of_singleField {vd : Validator} {path : Path} {ref : Ref} {name : String} (hlimit : vd.limit = none)
    (hfree : some (.node ref.address) ∉ path) (hn : vd.store.node ref = .shape [(name, d)]) (hv : v.isNonPrimitive = true) :
    vd.answer ⟨path, v, .definition (.node ref)⟩ =
      vd.answer ⟨some (.node ref.address) :: path, vd.heap.field v name, .definition d⟩ := by
  have hclear : vd.obstacle? ⟨path, v, .definition (.node ref)⟩ = none := by
    refine obstacle?_eq_none_iff.2 ⟨?_, by simp [hlimit]⟩
    rintro a ⟨⟩
    exact hfree
  have hinquiry : vd.inquiry ⟨path, v, .definition (.node ref)⟩ = .all [(vd.heap.field v name, .definition d)] := by
    simp [inquiry, Subject.inquiry, hn, Node.inquiry, hv, Inquiry.map, Inquiry.all]
  rw [answer_of_obstacle?_eq_none hclear, hinquiry, Inquiry.run_all_singleton]
  rfl

/-- The call about nested shapes and a value that stands for a document is the call about the innermost definition and a value
that stands for the part that the names select. It stands one level deeper for every name, below new nodes only. -/
theorem answer_nest {names : List String} (hd : s.Knows d) (hgrows : (s.nest names d).1.Grows s') {path : Path}
    (hpath : (s.nest names d).1.Lacks path) {j k : Json} (hv : heap.Represents v j) (hk : Pointer.walk? names j = some k) :
    ∃ outer w, s.Lacks outer ∧ outer.length = path.length + names.length ∧ heap.Represents w k ∧
      (Validator.mk heap s' none).answer ⟨path, v, .definition (s.nest names d).2⟩ =
        (Validator.mk heap s' none).answer ⟨outer, w, .definition d⟩ := by
  induction names generalizing path v j with
  | nil =>
    cases hk
    exact ⟨path, v, hpath, rfl, hv, rfl⟩
  | cons name names ih =>
    obtain ⟨j', hstep, hrest⟩ := Option.bind_eq_some_iff.1 hk
    obtain ⟨hproperties, hw⟩ := hv.field hstep
    rw [Store.nest_cons] at hgrows hpath ⊢
    have hknown : (s.nest names d).1.Knows (s.nest names d).2 := (s.nest_grows hd names).2
    have hadded : (s.nest names d).1.Grows ((s.nest names d).1.add (.shape [(name, (s.nest names d).2)])).1 :=
      .add (by simpa [Node.children] using hknown)
    have hn : s'.node ⟨.shape, (s.nest names d).1.size⟩ = .shape [(name, (s.nest names d).2)] := by
      rw [hgrows.node_eq (by simp)]
      exact Store.node_add_self ..
    have hfree : some (.node (s.nest names d).1.size) ∉ path :=
      hpath.notMem_of_known (a := .definition (.node _)) (Store.knows_add _ _) rfl
    have hbelow : (s.nest names d).1.Lacks (some (.node (s.nest names d).1.size) :: path) := by
      refine List.forall_mem_cons.2 ⟨⟨_, rfl, Nat.le_refl _⟩, fun a ha => ?_⟩
      obtain ⟨address, rfl, hnew⟩ := hpath a ha
      exact ⟨address, rfl, hadded.size_le.trans hnew⟩
    obtain ⟨outer, w, houter, hlength, hstands, hsame⟩ := ih (hadded.trans hgrows) hbelow hw hrest
    refine ⟨outer, w, houter, ?_, hstands, ?_⟩
    · rw [hlength, List.length_cons, List.length_cons]
      omega
    · rw [← hsame]
      exact answer_of_singleField rfl hfree hn hproperties

end Validator

/-! ### Selecting and nesting -/

/-- A part of a value without repeated keys repeats no key. -/
theorem Json.KeysDistinct.step? {j k : Json} (hj : j.KeysDistinct) {name : String} (hk : Pointer.step? name j = some k) :
    k.KeysDistinct := by
  cases hj with
  | array hitems =>
    obtain ⟨i, _, hitem⟩ := Option.bind_eq_some_iff.1 hk
    exact hitems k (List.mem_of_getElem? hitem)
  | object _ hfields => exact hfields _ (Fields.mem_of_get? hk)
  | _ => cases hk

theorem Json.KeysDistinct.walk? {j k : Json} {names : List String} (hj : j.KeysDistinct) (hk : Pointer.walk? names j = some k) :
    k.KeysDistinct := by
  induction names generalizing j with
  | nil => exact Option.some.inj hk ▸ hj
  | cons name names ih =>
    obtain ⟨j', hstep, hrest⟩ := Option.bind_eq_some_iff.1 hk
    exact ih (hj.step? hstep) hrest

/-- The run on nested shapes is the run on the part that the names select, with every level raised by the number of names. -/
theorem validate_nest_eq_raise {s : Store} (hs : s.Closed) {d : Definition} (hd : s.Knows d) {j k : Json} (hj : j.KeysDistinct)
    {names : List String} (hk : Pointer.walk? names j = some k) (heap heap' : Heap) :
    Validator.validate ⟨(heap'.ofJson j).1, (s.nest names d).1, none⟩ (heap'.ofJson j).2 (s.nest names d).2 =
      (Validator.validate ⟨(heap.ofJson k).1, s, none⟩ (heap.ofJson k).2 d).raise names.length := by
  have hgrows := (s.nest_grows hd names).1
  have hdocument := (Heap.represents_ofJson hj heap').2
  have hpart := (Heap.represents_ofJson (hj.walk? hk) heap).2
  have hroot : (s.nest names d).1.Lacks [] := nofun
  obtain ⟨outer, w, houter, hlength, hw, hsame⟩ := Validator.answer_nest hd (.refl _) hroot hdocument hk
  have hwithin : (Subject.definition d).Within s d := by
    rintro ref rfl
    exact Relation.ReflTransGen.refl
  have halike : Validator.validate ⟨(heap.ofJson k).1, s, none⟩ (heap.ofJson k).2 d =
      Validator.validate ⟨(heap'.ofJson j).1, s, none⟩ w d :=
    Validator.answer_eq_of_alike (.root _ d) hwithin (hpart.alike hw _)
  have hlevels : outer.length = names.length := hlength.trans (Nat.zero_add _)
  calc
    _ = Validator.answer ⟨(heap'.ofJson j).1, (s.nest names d).1, none⟩ ⟨outer, w, .definition d⟩ := hsame
    _ = (Validator.validate ⟨(heap'.ofJson j).1, s, none⟩ w d).raise outer.length := Validator.answer_of_lacks houter hs hgrows hd
    _ = _ := by rw [halike, hlevels]

/-- Selecting by a pointer is nesting shapes. A pointer spells some names and selects a part of a document. Then the run of a
definition on the part and the run of the shapes nested along the names on the document, both without a limit and on the values
that the part and the document are converted to, end in one of two ways.
1. Both answer the same, and log the same alternatives taken.
2. Both stop because the same node is its own ancestor, the second one deeper by the number of names, and log the same alternatives
   taken before. -/
theorem select_eq_nest (s : Store) (hs : s.Closed) (d : Definition) (hd : s.Knows d) (j k : Json) (hj : j.KeysDistinct)
    (pointer : String) (names : List String) (hnames : Pointer.names? pointer = some names)
    (hk : Pointer.select? pointer j = some k) (heap heap' : Heap) :
    let selected := Validator.validate ⟨(heap.ofJson k).1, s, none⟩ (heap.ofJson k).2 d
    let nested := Validator.validate ⟨(heap'.ofJson j).1, (s.nest names d).1, none⟩ (heap'.ofJson j).2 (s.nest names d).2
    ∃ taken : List Event, (∀ event ∈ taken, event.isMatch = true) ∧
      ((∃ b, selected = ⟨taken, .ok b⟩ ∧ nested = ⟨taken, .ok b⟩) ∨
        ∃ node depth, selected = ⟨taken ++ [.circular node depth], .error (.circular node depth)⟩ ∧
          nested = ⟨taken ++ [.circular node (depth + names.length)], .error (.circular node (depth + names.length))⟩) := by
  intro selected nested
  rw [Pointer.select?, hnames, Option.bind_some] at hk
  have hraise : nested = selected.raise names.length := validate_nest_eq_raise hs hd hj hk heap heap'
  have htraced : selected.Traced := Validator.traced_answer (.root _ d) nofun
  cases hresult : selected.result with
  | ok b =>
    obtain ⟨taken, htaken, hselected⟩ := htraced.eq_of_ok hresult
    refine ⟨taken, htaken, .inl ⟨b, hselected, ?_⟩⟩
    rw [hraise, hselected, Outcome.raise, map_raise_of_isMatch htaken]
    rfl
  | error defect =>
    obtain ⟨taken, htaken, hselected⟩ := htraced.eq_of_error hresult
    cases defect with
    | tooDeep n =>
      obtain ⟨_, _, hlimit, _⟩ := Validator.exists_reached_of_tooDeep (c := .root _ d) hresult
      cases hlimit
    | circular node depth =>
      refine ⟨taken, htaken, .inr ⟨node, depth, hselected, ?_⟩⟩
      rw [hraise, hselected, Outcome.raise, List.map_append, map_raise_of_isMatch htaken]
      rfl

/-! ### Cells in a document -/

namespace LinkedList

/-- A text and a cell of a list, in an array under a key with a slash. -/
def document : Json := .object [("a/b", .array [.string "first", .object [("next", .object [])]])]

/-- The run of the cell of a list on a JSON value. -/
def selected (k : Json) : Outcome Bool :=
  Validator.validate ⟨(Heap.empty.ofJson k).1, store, none⟩ (Heap.empty.ofJson k).2 (.node cell)

/-- The run of the cell of a list on the document, nested along two names. -/
def nested (name name' : String) : Outcome Bool :=
  Validator.validate ⟨(Heap.empty.ofJson document).1, (store.nest [name, name'] (.node cell)).1, none⟩ (Heap.empty.ofJson document).2
    (store.nest [name, name'] (.node cell)).2

theorem closed : store.Closed := by
  rintro address _ hd child rfl
  have haddress : address = 0 ∨ address = 1 :=
    Nat.le_one_iff_eq_zero_or_eq_one.1 (Nat.le_of_lt_succ (Store.lt_size_of_mem_body hd))
  rcases haddress with rfl | rfl
  · have hchild : child = ⟨.union, 1⟩ := by simpa [store, Store.body, Body.children] using hd
    exact hchild ▸ by decide
  · have hchild : child = cell := by simpa [store, Store.body, Body.children] using hd
    exact hchild ▸ by decide

theorem keysDistinct : document.KeysDistinct := by
  have hcell : (Json.object [("next", .object [])]).KeysDistinct := .single (.object List.nodup_nil (by simp))
  exact .single (.array (by simp [hcell, Json.KeysDistinct.string]))

end LinkedList

/-- The text is no cell, be it selected or reached through shapes. The cell is followed by another one, at which the definition
comes back to itself: two levels below the cell and four below the document. -/
theorem select_eq_nest_linkedList :
    LinkedList.nested "a/b" "0" = ⟨[], .ok false⟩ ∧
      LinkedList.nested "a/b" "1" =
        ⟨[.circular "shape \x7bnext\x7d" 4], .error (.circular "shape \x7bnext\x7d" 4)⟩ := by
  have hknown : LinkedList.store.Knows (.node LinkedList.cell) := by
    rintro ref ⟨⟩
    decide
  have hsame := fun k => select_eq_nest LinkedList.store LinkedList.closed (.node LinkedList.cell) hknown LinkedList.document k
    LinkedList.keysDistinct
  have htext : LinkedList.selected (.string "first") = ⟨[], .ok false⟩ := by cbv
  have hcell : LinkedList.selected (.object [("next", .object [])]) =
      ⟨[.circular "shape \x7bnext\x7d" 2], .error (.circular "shape \x7bnext\x7d" 2)⟩ := by cbv
  constructor
  · obtain ⟨taken, _, ⟨b, hselected, hnested⟩ | ⟨node, depth, hselected, _⟩⟩ :=
      hsame (.string "first") "/a~1b/0" ["a/b", "0"] (by rfl) (by rfl) .empty .empty
    · cases htext.symm.trans hselected
      exact hnested
    · cases congrArg Outcome.result (htext.symm.trans hselected)
  · obtain ⟨taken, _, ⟨b, hselected, _⟩ | ⟨node, depth, hselected, hnested⟩⟩ :=
      hsame (.object [("next", .object [])]) "/a~1b/1" ["a/b", "1"] (by rfl) (by rfl) .empty .empty
    · cases congrArg Outcome.result (hcell.symm.trans hselected)
    · cases congrArg Outcome.result (hcell.symm.trans hselected)
      have hevents := congrArg Outcome.events (hcell.symm.trans hselected)
      obtain rfl : taken = [] := by simpa using hevents
      exact hnested

end Conform
