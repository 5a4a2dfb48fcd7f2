import Conform.Proofs.Building
import Conform.Proofs.Locality

/-!
# Mutation in place

Arrays and objects are written in place, and so are tuples, unions and shapes. A mutation succeeds exactly when its target is of
the right kind, and then it writes the contents that the target stands for and nothing else (`Mutation.run_eq_ok_iff`): every handle
of the target reads the new contents, and no cell comes or goes. A run that reaches the target neither from its value nor from its
definition has the same outcome before and after (`mutation_framed`).
-/

namespace Conform

namespace Memory

/-- Whether a cell has been given out. -/
def Allocated (m : Memory) : Cell → Prop
  | .array cell => cell < m.heap.arrays.size
  | .object cell => cell < m.heap.objects.size
  | .node address => address < m.store.size

/-- The contents that a handle reads. Scalars and leaves have none. -/
def read (m : Memory) (a : Handle) : Option Contents := a.cell?.map m.contents

/-- The memory with other contents of the same kind in a cell. -/
def write (m : Memory) : Cell → Contents → Memory
  | .array cell, .elements items => { m with heap := { m.heap with arrays := m.heap.arrays.setIfInBounds cell items } }
  | .object cell, .fields entries => { m with heap := { m.heap with objects := m.heap.objects.setIfInBounds cell entries } }
  | .node address, .parts body => { m with store := m.store.set address body }
  | _, _ => m

/-- Writing a cell leaves the contents of all others. -/
theorem contents_write_of_ne (m : Memory) {cell other : Cell} (h : other ≠ cell) (c : Contents) :
    (m.write cell c).contents other = m.contents other := by
  cases cell with
  | array cell =>
    cases c with
    | elements items =>
      cases other with
      | array other =>
        have hne : cell ≠ other := fun heq => h (congrArg Cell.array heq.symm)
        simp only [write, contents, Heap.elements, Array.getElem?_setIfInBounds_ne hne]
      | _ => rfl
    | _ => rfl
  | object cell =>
    cases c with
    | fields entries =>
      cases other with
      | object other =>
        have hne : cell ≠ other := fun heq => h (congrArg Cell.object heq.symm)
        simp only [write, contents, Heap.fields, Array.getElem?_setIfInBounds_ne hne]
      | _ => rfl
    | _ => rfl
  | node address =>
    cases c with
    | parts body =>
      cases other with
      | node other =>
        have hne : other ≠ address := fun heq => h (congrArg Cell.node heq)
        simp only [write, contents, m.store.body_set_of_ne hne]
      | _ => rfl
    | _ => rfl

/-- Writing a cell gives out no cell and takes none back. -/
theorem allocated_write (m : Memory) (cell other : Cell) (c : Contents) :
    (m.write cell c).Allocated other ↔ m.Allocated other := by
  have harrays : (m.write cell c).heap.arrays.size = m.heap.arrays.size := by
    cases cell <;> cases c <;> first | rfl | exact Array.size_setIfInBounds ..
  have hobjects : (m.write cell c).heap.objects.size = m.heap.objects.size := by
    cases cell <;> cases c <;> first | rfl | exact Array.size_setIfInBounds ..
  have hnodes : (m.write cell c).store.size = m.store.size := by
    cases cell <;> cases c <;> first | rfl | exact Store.size_set ..
  cases other <;> simp only [Allocated, harrays, hobjects, hnodes]

end Memory

/-- Exactly the rows are read as tuples or unions. -/
theorem Body.kindName_read_mem_iff {δ : Type} (b : Body δ) (kind : NodeKind) :
    (b.read kind).kindName ∈ ["tuple", "union"] ↔ ∃ items, b = .row items := by
  cases b <;> cases kind <;> simp [read, Node.kindName]

/-- Exactly the fields of shapes are read as shapes. -/
theorem Body.kindName_read_eq_shape_iff {δ : Type} (b : Body δ) (kind : NodeKind) :
    (b.read kind).kindName = "shape" ↔ ∃ fields, b = .shape fields := by
  cases b <;> cases kind <;> simp [read, Node.kindName]

/-- A mutation: an array is appended to, a field of an object is set, a tuple or a union is appended to, or a field of a shape is
declared. -/
inductive Mutation where
  | push (target item : Value)
  | setField (target : Value) (key : String) (item : Value)
  | pushElement (target item : Definition)
  | insertField (target : Definition) (key : String) (item : Definition)

/-- What a mutation reports that is refused: false for values, an error for definitions. -/
inductive Refusal where
  | notWritten
  | notComposite (e : NotComposite)

namespace Mutation

/-- What is to be written. -/
def target : Mutation → Handle
  | .push target _ => .value target
  | .setField target _ _ => .value target
  | .pushElement target _ => .definition target
  | .insertField target _ _ => .definition target

/-- The memory that a mutation leads to, unless it is refused. -/
def run (m : Memory) : Mutation → Except Refusal Memory
  | .push target item =>
    match m.heap.push? target item with
    | none => .error .notWritten
    | some heap => .ok { m with heap := heap }
  | .setField target key item =>
    match m.heap.setField? target key item with
    | none => .error .notWritten
    | some heap => .ok { m with heap := heap }
  | .pushElement target item =>
    match m.store.pushElement target item with
    | .error e => .error (.notComposite e)
    | .ok store => .ok { m with store := store }
  | .insertField target key item =>
    match m.store.insertField target key item with
    | .error e => .error (.notComposite e)
    | .ok store => .ok { m with store := store }

/-- The memory after a mutation. One that is refused leaves the memory. -/
def after (u : Mutation) (m : Memory) : Memory := (u.run m).toOption.getD m

/-- Whether the target is of the kind that a mutation writes. -/
def Fits (m : Memory) : Mutation → Prop
  | .push target _ => ∃ cell, target = .array cell
  | .setField target _ _ => ∃ cls cell, target = .object cls cell
  | .pushElement target _ => m.store.kindName target ∈ ["tuple", "union"]
  | .insertField target _ _ => m.store.kindName target = "shape"

/-- What a mutation whose target is of another kind reports. -/
def refusal (m : Memory) : Mutation → Refusal
  | .push _ _ => .notWritten
  | .setField _ _ _ => .notWritten
  | .pushElement target _ => .notComposite ⟨"tuple or union", m.store.kindName target⟩
  | .insertField target _ _ => .notComposite ⟨"shape", m.store.kindName target⟩

/-- What a mutation makes of contents of the right kind: one more element or part at the end, or an entry for a name, in the place of
the old entry or else at the end. -/
def rewrite? : Mutation → Contents → Option Contents
  | .push _ item, .elements items => some (.elements (items ++ [item]))
  | .setField _ key item, .fields entries => some (.fields (Fields.insert entries key item))
  | .pushElement _ item, .parts body => (body.push? item).map .parts
  | .insertField _ key item, .parts body => (body.insert? key item).map .parts
  | _, _ => none

variable {u : Mutation} {m m' : Memory}

/-- A mutation succeeds exactly when the contents of its target can be rewritten, and then writes the target alone. -/
theorem run_eq_ok_iff : u.run m = .ok m' ↔
    ∃ cell c, u.target.cell? = some cell ∧ u.rewrite? (m.contents cell) = some c ∧ m' = m.write cell c := by
  cases u with
  | push target item =>
    cases target with
    | array cell => simp [run, Heap.push?, Mutation.target, Handle.cell?, rewrite?, Memory.contents, Memory.write, eq_comm]
    | _ => simp [run, Heap.push?, Mutation.target, Handle.cell?, rewrite?, Memory.contents]
  | setField target key item =>
    cases target with
    | object cls cell =>
      simp [run, Heap.setField?, Mutation.target, Handle.cell?, rewrite?, Memory.contents, Memory.write, eq_comm]
    | _ => simp [run, Heap.setField?, Mutation.target, Handle.cell?, rewrite?, Memory.contents]
  | pushElement target item =>
    cases target with
    | node ref =>
      simp only [run, Store.pushElement, Mutation.target, Handle.cell?, Memory.contents, rewrite?, Option.some.injEq,
        exists_and_left, exists_eq_left']
      cases hb : m.store.body ref.address <;> simp [Body.push?, Memory.write, eq_comm]
    | _ => simp [run, Store.pushElement, Mutation.target, Handle.cell?]
  | insertField target key item =>
    cases target with
    | node ref =>
      simp only [run, Store.insertField, Mutation.target, Handle.cell?, Memory.contents, rewrite?, Option.some.injEq,
        exists_and_left, exists_eq_left']
      cases hb : m.store.body ref.address <;> simp [Body.insert?, Memory.write, eq_comm]
    | _ => simp [run, Store.insertField, Mutation.target, Handle.cell?]

/-- The contents of the target of a mutation that fits can be rewritten. -/
theorem exists_rewrite_of_fits (h : u.Fits m) :
    ∃ cell c, u.target.cell? = some cell ∧ u.rewrite? (m.contents cell) = some c := by
  cases u with
  | push target item =>
    obtain ⟨cell, rfl⟩ := h
    exact ⟨.array cell, _, rfl, rfl⟩
  | setField target key item =>
    obtain ⟨cls, cell, rfl⟩ := h
    exact ⟨.object cell, _, rfl, rfl⟩
  | pushElement target item =>
    cases target with
    | node ref =>
      obtain ⟨items, hb⟩ := (Body.kindName_read_mem_iff _ _).1 h
      exact ⟨.node ref.address, .parts (.row (items ++ [item])), rfl, by simp [rewrite?, Memory.contents, hb, Body.push?]⟩
    | _ => simp [Fits, Store.kindName] at h
  | insertField target key item =>
    cases target with
    | node ref =>
      obtain ⟨fields, hb⟩ := (Body.kindName_read_eq_shape_iff _ _).1 h
      exact ⟨.node ref.address, .parts (.shape (Fields.insert fields key item)), rfl,
        by simp [rewrite?, Memory.contents, hb, Body.insert?]⟩
    | _ => simp [Fits, Store.kindName] at h

/-- A mutation that does not fit is refused, and the error names the kind of the target. -/
theorem run_eq_error_of_not_fits (h : ¬u.Fits m) : u.run m = .error (u.refusal m) := by
  cases u with
  | push target item =>
    cases target with
    | array cell => exact absurd ⟨cell, rfl⟩ h
    | _ => rfl
  | setField target key item =>
    cases target with
    | object cls cell => exact absurd ⟨cls, cell, rfl⟩ h
    | _ => rfl
  | pushElement target item =>
    cases target with
    | node ref =>
      have hrow : ∀ items, m.store.body ref.address ≠ .row items :=
        fun items hb => h ((Body.kindName_read_mem_iff _ _).2 ⟨items, hb⟩)
      simp only [run, Store.pushElement, refusal]
    | _ => rfl
  | insertField target key item =>
    cases target with
    | node ref =>
      have hshape : ∀ fields, m.store.body ref.address ≠ .shape fields :=
        fun fields hb => h ((Body.kindName_read_eq_shape_iff _ _).2 ⟨fields, hb⟩)
      simp only [run, Store.insertField, refusal]
    | _ => rfl

/-- A cell that was given out contains what a mutation writes to it. -/
theorem contents_write_self {cell : Cell} {c : Contents} (hcell : m.Allocated cell) (hc : u.rewrite? (m.contents cell) = some c) :
    (m.write cell c).contents cell = c := by
  cases cell with
  | array cell =>
    cases u <;> simp only [rewrite?, Memory.contents, Option.some.injEq, reduceCtorEq] at hc
    subst hc
    simp [Memory.write, Memory.contents, Heap.elements, Array.getElem?_setIfInBounds_self_of_lt hcell]
  | object cell =>
    cases u <;> simp only [rewrite?, Memory.contents, Option.some.injEq, reduceCtorEq] at hc
    subst hc
    simp [Memory.write, Memory.contents, Heap.fields, Array.getElem?_setIfInBounds_self_of_lt hcell]
  | node address =>
    obtain ⟨b, rfl⟩ : ∃ b, c = .parts b := by
      cases u <;> simp only [rewrite?, Memory.contents, Option.map_eq_some_iff, reduceCtorEq] at hc
      all_goals exact hc.imp fun b h => h.2.symm
    simp only [Memory.write, Memory.contents, Store.body_set_self hcell]

/-- A body that is rewritten is read as nodes of the same kinds. -/
theorem kindName_eq_of_rewrite? {b b' : Body Definition} (h : u.rewrite? (.parts b) = some (.parts b')) (kind : NodeKind) :
    (b'.read kind).kindName = (b.read kind).kindName := by
  cases u with
  | pushElement target item =>
    cases b <;> simp only [rewrite?, Body.push?, Option.map_some, Option.map_none, Option.some.injEq, reduceCtorEq] at h
    cases h
    cases kind <;> rfl
  | insertField target key item =>
    cases b <;> simp only [rewrite?, Body.insert?, Option.map_some, Option.map_none, Option.some.injEq, reduceCtorEq] at h
    cases h
    rfl
  | _ => cases h

/-- Whether a mutation succeeds or not, it leaves the contents of all cells but its target. -/
theorem contents_after {other : Cell} (h : u.target.cell? ≠ some other) : (u.after m).contents other = m.contents other := by
  cases hrun : u.run m with
  | error e => simp [after, hrun, Except.toOption]
  | ok m' =>
    obtain ⟨cell, c, hcell, _, rfl⟩ := run_eq_ok_iff.1 hrun
    have hne : other ≠ cell := fun heq => h (heq ▸ hcell)
    simp [after, hrun, Except.toOption, Memory.contents_write_of_ne m hne c]

/-- What leads elsewhere than to the target leads to the same contents before and after. -/
theorem sameFrom_after {a : Handle} (h : ∀ cell, u.target.cell? = some cell → ¬m.Reaches a cell) : m.SameFrom (u.after m) a :=
  fun other hreaches => contents_after fun hcell => h other hcell hreaches

end Mutation

/-- Mutation in place, in three parts.
1. A mutation whose target is of another kind is refused, with false for values and an error for definitions that names both
   kinds, and leaves the memory.
2. A mutation that fits, on a target that was given out, succeeds. Every handle of the target reads what the mutation makes of the
   contents it read before, every other handle reads what it read before, no cell is given out or taken back, and every
   definition stays of its kind. What makes two handles the same does not depend on the memory at all.
3. Fitting or not, a run whose value and definition do not lead to the target has the same outcome before and after, with every
   limit: the same events, and the same answer or defect. -/
theorem mutation_framed (m : Memory) (u : Mutation) :
    (¬u.Fits m → u.run m = .error (u.refusal m) ∧ u.after m = m) ∧
      (u.Fits m → (∀ cell, u.target.cell? = some cell → m.Allocated cell) →
        u.run m = .ok (u.after m) ∧
        (∀ a : Handle, a.cell? = u.target.cell? →
          ∃ c c', m.read a = some c ∧ u.rewrite? c = some c' ∧ (u.after m).read a = some c') ∧
        (∀ a : Handle, a.cell? ≠ u.target.cell? → (u.after m).read a = m.read a) ∧
        (∀ cell, (u.after m).Allocated cell ↔ m.Allocated cell) ∧
        ∀ d, (u.after m).store.kindName d = m.store.kindName d) ∧
      ∀ v d, (∀ cell, u.target.cell? = some cell → ¬m.Reaches (.value v) cell ∧ ¬m.Reaches (.definition d) cell) → ∀ limit,
        Validator.validate ⟨(u.after m).heap, (u.after m).store, limit⟩ v d = Validator.validate ⟨m.heap, m.store, limit⟩ v d := by
  refine ⟨fun hfits => ?_, fun hfits hallocated => ?_, fun v d hreaches limit => ?_⟩
  · have hrun := Mutation.run_eq_error_of_not_fits hfits
    exact ⟨hrun, by simp [Mutation.after, hrun, Except.toOption]⟩
  · obtain ⟨cell, c, hcell, hc⟩ := Mutation.exists_rewrite_of_fits hfits
    have hrun : u.run m = .ok (m.write cell c) := Mutation.run_eq_ok_iff.2 ⟨cell, c, hcell, hc, rfl⟩
    have hafter : u.after m = m.write cell c := by simp [Mutation.after, hrun, Except.toOption]
    have hwritten : (m.write cell c).contents cell = c := Mutation.contents_write_self (hallocated cell hcell) hc
    have helsewhere : ∀ other, other ≠ cell → (m.write cell c).contents other = m.contents other :=
      fun other hother => m.contents_write_of_ne hother c
    rw [hafter]
    refine ⟨hrun, fun a ha => ?_, fun a ha => ?_, fun other => m.allocated_write cell other c, fun d => ?_⟩
    · have hown : a.cell? = some cell := ha.trans hcell
      exact ⟨m.contents cell, c, by simp [Memory.read, hown], hc, by simp [Memory.read, hown, hwritten]⟩
    · refine Option.map_congr fun other hother => helsewhere other ?_
      rintro rfl
      exact ha (hother.trans hcell.symm)
    · cases d with
      | node ref =>
        by_cases href : cell = .node ref.address
        · subst href
          refine Mutation.kindName_eq_of_rewrite? (u := u) ?_ ref.kind
          exact hc.trans (congrArg some hwritten.symm)
        · have hsame := Contents.parts.inj (helsewhere (.node ref.address) fun h => href h.symm)
          exact congrArg (fun b => (b.read ref.kind).kindName) hsame
      | _ => rfl
  · have hvalue := Mutation.sameFrom_after fun cell hcell => (hreaches cell hcell).1
    have hdefinition := Mutation.sameFrom_after fun cell hcell => (hreaches cell hcell).2
    exact Memory.validate_eq_of_sameFrom hvalue hdefinition limit

/-! ### Two lists, one of them in an object -/

namespace Lists

/-- A list and a list that holds it, an object that holds the first list, and a tuple of one text. -/
def memory : Memory where
  heap := ⟨#[[.bool true], [.array 0]], #[[("list", .array 0)]], 0⟩
  store := ⟨#[.row [.token "object"]]⟩

/-- The tuple. -/
def unit : Definition := .node ⟨.tuple, 0⟩

/-- The object leads to itself and to the first list, and not to the second one. -/
theorem not_reaches_object : ¬memory.Reaches (.value (.object .object 0)) (.array 1) := by
  intro h
  cases h with
  | here h => cases h
  | through hobject hb hlist =>
    cases hobject
    cases List.mem_singleton.1 hb
    cases hlist with
    | here h => cases h
    | through harray hb hbool =>
      cases harray
      cases List.mem_singleton.1 hb
      exact hbool.cell?_ne_none rfl

/-- The tuple leads to no list. -/
theorem not_reaches_tuple : ¬memory.Reaches (.definition unit) (.array 1) := by
  intro h
  cases h with
  | here h => cases h
  | through htuple hb htoken =>
    cases htuple
    cases List.mem_singleton.1 hb
    exact htoken.cell?_ne_none rfl

end Lists

/-- Appending to the second list is read through it and leaves the outcome for the object; a tuple takes no field. -/
theorem mutation_framed_lists :
    let append := Mutation.push (.array 1) .null
    let declare := Mutation.insertField Lists.unit "list" .null
    (append.after Lists.memory).read (.value (.array 1)) = some (.elements [.array 0, .null]) ∧
      Validator.validate ⟨(append.after Lists.memory).heap, (append.after Lists.memory).store, none⟩ (.object .object 0) Lists.unit =
        Validator.validate ⟨Lists.memory.heap, Lists.memory.store, none⟩ (.object .object 0) Lists.unit ∧
      declare.run Lists.memory = .error (.notComposite ⟨"shape", "tuple"⟩) ∧ declare.after Lists.memory = Lists.memory := by
  intro append declare
  obtain ⟨_, hwrites, hframe⟩ := mutation_framed Lists.memory append
  obtain ⟨hrefused, _, _⟩ := mutation_framed Lists.memory declare
  have hallocated : ∀ cell, append.target.cell? = some cell → Lists.memory.Allocated cell := by
    rintro _ ⟨⟩
    show 1 < 2
    decide
  obtain ⟨_, hread, _⟩ := hwrites ⟨1, rfl⟩ hallocated
  obtain ⟨c, c', hc, hrewrite, hread⟩ := hread (.value (.array 1)) rfl
  have hapart : ∀ cell, append.target.cell? = some cell →
      ¬Lists.memory.Reaches (.value (.object .object 0)) cell ∧ ¬Lists.memory.Reaches (.definition Lists.unit) cell := by
    rintro _ ⟨⟩
    exact ⟨Lists.not_reaches_object, Lists.not_reaches_tuple⟩
  have hunfit : ¬declare.Fits Lists.memory := by
    show ¬"tuple" = "shape"
    decide
  refine ⟨?_, hframe _ _ hapart none, hrefused hunfit⟩
  cases hc
  cases hrewrite
  exact hread

end Conform
