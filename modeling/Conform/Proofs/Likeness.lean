import Conform.Proofs.Call
import Conform.Proofs.Graph
import Conform.Proofs.TokenText

/-!
# What a run does not see

Of a value a run sees its variant, the elements of arrays, the class of objects, and of the fields those that the definition
declares. `Alike` relates two values, each in a heap of its own, when no chain of such readings tells them apart; both may reach
themselves. Two values that are alike have the same outcome, event by event (`Validator.answer_eq_of_alike`). So scalars may hold
anything of their variant, fields that are not declared may come and go, and a value may be unrolled or shared
(`validate_eq_of_alike`).
-/

namespace Conform

/-- Two values look alike at first sight: they are of the same variant, arrays hold related elements one by one, and objects have
the same class and related values under every key. A missing field reads as undefined. -/
inductive Resembles (keys : Set String) (h h' : Heap) (R : Value → Value → Prop) : Value → Value → Prop where
  | undefined : Resembles keys h h' R .undefined .undefined
  | null : Resembles keys h h' R .null .null
  | bool (a b : Bool) : Resembles keys h h' R (.bool a) (.bool b)
  | number (x y : Float) : Resembles keys h h' R (.number x) (.number y)
  | string (s t : String) : Resembles keys h h' R (.string s) (.string t)
  | symbol (i j : Nat) (s t : String) : Resembles keys h h' R (.symbol i s) (.symbol j t)
  | function (f g : String) : Resembles keys h h' R (.function f) (.function g)
  | array {i j : Nat} (helements : List.Forall₂ R (h.elements i) (h'.elements j)) : Resembles keys h h' R (.array i) (.array j)
  | object {cls : Class} {i j : Nat}
      (hfields : ∀ key ∈ keys, R (h.field (.object cls i) key) (h'.field (.object cls j) key)) :
      Resembles keys h h' R (.object cls i) (.object cls j)

/-- Two values are alike: they stand in a relation that holds only between values that look alike at first sight, with parts that
stand in the relation again. -/
def Alike (keys : Set String) (h h' : Heap) (v w : Value) : Prop :=
  ∃ R : Value → Value → Prop, (∀ a b, R a b → Resembles keys h h' R a b) ∧ R v w

section

variable {keys : Set String} {h h' : Heap} {R S : Value → Value → Prop} {v w : Value}

/-- A larger relation relates more values at first sight. -/
theorem Resembles.mono (hRS : ∀ a b, R a b → S a b) (hv : Resembles keys h h' R v w) : Resembles keys h h' S v w := by
  cases hv with
  | undefined => exact .undefined
  | null => exact .null
  | bool a b => exact .bool a b
  | number x y => exact .number x y
  | string s t => exact .string s t
  | symbol i j s t => exact .symbol i j s t
  | function f g => exact .function f g
  | array helements => exact .array (helements.imp hRS)
  | object hfields => exact .object fun key hkey => hRS _ _ (hfields key hkey)

/-- Values that are alike look alike at first sight, with parts that are alike. -/
theorem Alike.resembles (hv : Alike keys h h' v w) : Resembles keys h h' (Alike keys h h') v w := by
  obtain ⟨R, hR, hvw⟩ := hv
  exact (hR v w hvw).mono fun a b hab => ⟨R, hR, hab⟩

/-- Values that look alike at first sight, with parts that are alike, are alike. -/
theorem Resembles.alike (hv : Resembles keys h h' (Alike keys h h') v w) : Alike keys h h' v w :=
  ⟨Resembles keys h h' (Alike keys h h'), fun _ _ hab => hab.mono fun _ _ hc => hc.resembles, hv⟩

/-! ### What alike values have in common -/

/-- Alike values are of the same kind. -/
theorem Alike.kind_eq (hv : Alike keys h h' v w) : v.kind = w.kind := by
  cases hv.resembles <;> rfl

theorem Alike.isNull_eq (hv : Alike keys h h' v w) : v.isNull = w.isNull := by
  cases hv.resembles <;> rfl

theorem Alike.isUndefined_eq (hv : Alike keys h h' v w) : v.isUndefined = w.isUndefined := by
  cases hv.resembles <;> rfl

theorem Alike.isNonPrimitive_eq (hv : Alike keys h h' v w) : v.isNonPrimitive = w.isNonPrimitive := by
  cases hv.resembles <;> rfl

/-- Alike values are instances of the same classes. -/
theorem Alike.instanceOf_eq (hv : Alike keys h h' v w) (cls : Class) : v.instanceOf cls = w.instanceOf cls := by
  cases hv.resembles <;> rfl

/-- Alike values are both arrays with alike elements, or neither is an array. -/
theorem Alike.elements? (hv : Alike keys h h' v w) :
    (h.elements? v = none ∧ h'.elements? w = none) ∨
      ∃ vs ws, h.elements? v = some vs ∧ h'.elements? w = some ws ∧ List.Forall₂ (Alike keys h h') vs ws := by
  cases hv.resembles with
  | array helements => exact Or.inr ⟨_, _, rfl, rfl, helements⟩
  | _ => exact Or.inl ⟨rfl, rfl⟩

/-- Rows of related values are related at every position, and past the end if undefined is related to itself. -/
theorem forall₂_getD {vs ws : List Value} (hvs : List.Forall₂ R vs ws) (hundefined : R .undefined .undefined) (i : Nat) :
    R (vs[i]?.getD .undefined) (ws[i]?.getD .undefined) := by
  induction hvs generalizing i with
  | nil => exact hundefined
  | cons hab _ ih =>
    cases i with
    | zero => exact hab
    | succ i => exact ih i

/-- The declared properties of alike values are alike. Of arrays all properties are. -/
theorem Alike.field (hv : Alike keys h h' v w) {key : String} (hkey : key ∈ keys) :
    Alike keys h h' (h.field v key) (h'.field w key) := by
  have hundefined : Alike keys h h' .undefined .undefined := Resembles.undefined.alike
  cases hv.resembles with
  | object hfields => exact hfields key hkey
  | array helements =>
    simp only [Heap.field, Heap.index, Heap.elements?]
    split
    · exact (Resembles.number _ _).alike
    · cases Numeral.index? key with
      | none => exact hundefined
      | some i => exact forall₂_getD helements hundefined i
  | _ => exact hundefined

end

/-! ### Inquiries that correspond -/

/-- Two inquiries correspond: the same answer settles them, and their questions are related one by one. -/
def Inquiry.Matches {κ ι : Type} (R : κ → ι → Prop) (q : Inquiry κ) (q' : Inquiry ι) : Prop :=
  q.decisive = q'.decisive ∧ List.Forall₂ R q.questions q'.questions

/-- Inquiries that correspond have the same outcome when related questions are answered and labelled alike. -/
theorem Inquiry.run_eq_of_matches {κ ι : Type} {R : κ → ι → Prop} {q : Inquiry κ} {q' : Inquiry ι}
    {ask : κ → Outcome Bool} {ask' : ι → Outcome Bool} {label : κ → String} {label' : ι → String} (hq : q.Matches R q')
    (h : ∀ k ∈ q.questions, ∀ k', R k k' → ask k = ask' k' ∧ label k = label' k') :
    q.run ask label = q'.run ask' label' := by
  obtain ⟨decisive, questions⟩ := q
  obtain ⟨decisive', questions'⟩ := q'
  obtain ⟨hdecisive, hquestions⟩ := hq
  simp only at hdecisive hquestions h
  subst hdecisive
  have key : ∀ index, runFrom ask label decisive index questions = runFrom ask' label' decisive index questions' := by
    induction hquestions with
    | nil => exact fun _ => rfl
    | @cons k k' rest rest' hk _ ih =>
      obtain ⟨hfirst, hrest⟩ := List.forall_mem_cons.1 h
      obtain ⟨hask, hlabel⟩ := hfirst k' hk
      exact fun index => by simp only [runFrom, note, hask, hlabel, ih hrest (index + 1)]
  exact key 0

/-- Replaced inquiries correspond when the inquiries do and related questions are replaced by related ones. -/
theorem Inquiry.Matches.map {κ ι κ' ι' : Type} {R : κ → ι → Prop} {R' : κ' → ι' → Prop} {f : κ → κ'} {g : ι → ι'}
    {q : Inquiry κ} {q' : Inquiry ι} (hq : q.Matches R q') (hfg : ∀ k k', R k k' → R' (f k) (g k')) :
    (q.map f).Matches R' (q'.map g) :=
  ⟨hq.1, List.forall₂_map_left_iff.2 (List.forall₂_map_right_iff.2 (hq.2.imp hfg))⟩

/-- A settled matter corresponds to one settled in the same way. -/
theorem Inquiry.matches_settled {κ ι : Type} {R : κ → ι → Prop} {b b' : Bool} (hb : b = b') :
    (settled b : Inquiry κ).Matches R (settled b' : Inquiry ι) := by
  subst hb
  exact ⟨rfl, .nil⟩

/-- An inquiry corresponds to itself, question by question. -/
theorem Inquiry.matches_self {κ : Type} (q : Inquiry κ) : q.Matches (fun k k' => k ∈ q.questions ∧ k = k') q :=
  ⟨rfl, List.forall₂_same.2 fun _ hk => ⟨hk, rfl⟩⟩

/-- Values that are alike, asked about the same. -/
def SameQuestion {σ : Type} (keys : Set String) (h h' : Heap) (q q' : Value × σ) : Prop :=
  Alike keys h h' q.1 q'.1 ∧ q.2 = q'.2

/-- The names of the fields that a node declares. -/
def Node.keys {δ : Type} : Node δ → List String
  | .shape fields => Fields.keys fields
  | _ => []

/-- The names of the fields that a subject declares. -/
def Subject.keys (store : Store) : Subject → List String
  | .definition (.node ref) => (store.node ref).keys
  | .definition _ => []
  | .expansion n => n.keys

section

variable {keys : Set String} {h h' : Heap} {v w : Value}

/-- Rows of alike values correspond by position. -/
theorem forall₂_positions {δ : Type} : ∀ (ds : List δ) {vs ws : List Value}, List.Forall₂ (Alike keys h h') vs ws →
    List.Forall₂ (SameQuestion keys h h') (positions vs ds) (positions ws ds) := by
  intro ds
  induction ds with
  | nil => intro vs ws hvs; cases hvs <;> exact .nil
  | cons d ds ih =>
    intro vs ws hvs
    cases hvs with
    | nil => exact .cons ⟨Resembles.undefined.alike, rfl⟩ (ih .nil)
    | cons hab hrest => exact .cons ⟨hab, rfl⟩ (ih hrest)

/-- A node comes to corresponding questions for values that are alike under the names it declares. -/
theorem Node.matches_inquiry {δ : Type} (hv : Alike keys h h' v w) (n : Node δ) (hn : ∀ key ∈ n.keys, key ∈ keys) :
    (n.inquiry h v).Matches (SameQuestion keys h h') (n.inquiry h' w) := by
  cases n with
  | tuple items =>
    rcases hv.elements? with ⟨hnone, hnone'⟩ | ⟨vs, ws, hsome, hsome', hvs⟩
    · simp only [Node.inquiry, hnone, hnone']
      exact Inquiry.matches_settled rfl
    · simp only [Node.inquiry, hsome, hsome', hvs.length_eq]
      split
      · exact Inquiry.matches_settled rfl
      · exact ⟨rfl, forall₂_positions items hvs⟩
  | bounded element min max =>
    rcases hv.elements? with ⟨hnone, hnone'⟩ | ⟨vs, ws, hsome, hsome', hvs⟩
    · simp only [Node.inquiry, hnone, hnone']
      exact Inquiry.matches_settled rfl
    · simp only [Node.inquiry, hsome, hsome', hvs.length_eq]
      split
      · have helements : (Inquiry.all vs).Matches (Alike keys h h') (.all ws) := ⟨rfl, hvs⟩
        exact helements.map fun a b hab => ⟨hab, rfl⟩
      · exact Inquiry.matches_settled rfl
  | union alternatives =>
    exact (Inquiry.any alternatives).matches_self.map fun d d' hd => ⟨hv, hd.2⟩
  | shape fields =>
    simp only [Node.inquiry, hv.isNonPrimitive_eq]
    split
    · refine (Inquiry.all fields).matches_self.map ?_
      rintro f _ ⟨hf, rfl⟩
      exact ⟨hv.field (hn f.1 (List.mem_map_of_mem hf)), rfl⟩
    · exact Inquiry.matches_settled rfl

/-- A subject comes to corresponding questions for values that are alike under the names it declares. -/
theorem Subject.matches_inquiry {store : Store} (hv : Alike keys h h' v w) (s : Subject)
    (hs : ∀ key ∈ s.keys store, key ∈ keys) :
    (s.inquiry h store v).Matches (SameQuestion keys h h') (s.inquiry h' store w) := by
  have hdefinition : ∀ q q' : Value × Definition, SameQuestion keys h h' q q' →
      SameQuestion keys h h' (q.1, Subject.definition q.2) (q'.1, Subject.definition q'.2) :=
    fun q q' hq => ⟨hq.1, congrArg Subject.definition hq.2⟩
  cases s with
  | expansion n => exact (n.matches_inquiry hv hs).map hdefinition
  | definition d =>
    cases d with
    | null => exact Inquiry.matches_settled hv.isNull_eq
    | undefined => exact Inquiry.matches_settled hv.isUndefined_eq
    | nominal cls => exact Inquiry.matches_settled (by rw [hv.isNonPrimitive_eq, hv.instanceOf_eq])
    | other value => exact Inquiry.matches_settled rfl
    | node ref => exact ((store.node ref).matches_inquiry hv hs).map hdefinition
    | token text =>
      simp only [Subject.inquiry]
      split
      · exact Inquiry.matches_settled rfl
      · split
        · exact Inquiry.matches_settled (by rw [TypeToken.admits, TypeToken.admits, hv.kind_eq])
        · exact ⟨rfl, .cons ⟨hv, rfl⟩ .nil⟩

end

/-! ### The fields that a definition declares -/

/-- The names of the fields that the shapes declare which a definition reaches. -/
def Store.declaredKeys (s : Store) (d : Definition) : Set String :=
  {key | ∃ ref, s.Reaches d (.node ref) ∧ key ∈ (s.node ref).keys}

/-- A subject within the graph of a definition: a node that the definition reaches, or no node, and what tokens abbreviate. -/
def Subject.Within (store : Store) (root : Definition) : Subject → Prop
  | .definition d => ∀ ref, d = .node ref → store.Reaches root (.node ref)
  | .expansion n => n.keys = [] ∧ ∀ ref, Definition.node ref ∉ n.children

/-- The parts of a subject within a graph are within it. -/
theorem Subject.Part.within {store : Store} {root : Definition} {s s' : Subject} (hpart : s.Part store s')
    (hs : s.Within store root) : s'.Within store root := by
  cases hpart with
  | held hmem =>
    rintro ref rfl
    exact Relation.ReflTransGen.tail (hs _ rfl) (.part hmem)
  | abbreviated ht hn =>
    refine ⟨?_, node_notMem_expansion hn⟩
    rcases expansion?_cases hn with ⟨_, rfl⟩ | ⟨_, _, rfl⟩ <;> rfl
  | unfolded hmem =>
    rintro ref rfl
    exact absurd hmem (hs.2 ref)

/-- What a subject within a graph declares is declared in the graph. -/
theorem Subject.Within.mem_declaredKeys {store : Store} {root : Definition} {s : Subject} (hs : s.Within store root) :
    ∀ key ∈ s.keys store, key ∈ store.declaredKeys root := by
  intro key hkey
  cases s with
  | expansion n =>
    rw [Subject.keys, hs.1] at hkey
    exact absurd hkey List.not_mem_nil
  | definition d =>
    cases d with
    | node ref => exact ⟨ref, hs ref rfl, hkey⟩
    | _ => exact absurd hkey List.not_mem_nil

/-! ### Runs on alike values -/

/-- The validator for values in another heap. -/
def Validator.withHeap (vd : Validator) (heap : Heap) : Validator := { vd with heap := heap }

/-- Calls about alike values that are the same otherwise have the same outcome. -/
theorem Validator.answer_eq_of_alike {vd : Validator} {h' : Heap} {root : Definition} (c : Call)
    (hc : c.subject.Within vd.store root) {w : Value} (hw : Alike (vd.store.declaredKeys root) vd.heap h' c.value w) :
    vd.answer c = (vd.withHeap h').answer ⟨c.path, w, c.subject⟩ := by
  induction c using vd.call_induction generalizing w with
  | step c ih =>
    have hsame : (vd.withHeap h').obstacle? ⟨c.path, w, c.subject⟩ = vd.obstacle? c := rfl
    cases hobstacle : vd.obstacle? c with
    | some defect =>
      rw [answer_of_obstacle?_eq_some hobstacle, answer_of_obstacle?_eq_some (hsame.trans hobstacle)]
      rfl
    | none =>
      rw [answer_of_obstacle?_eq_none hobstacle, answer_of_obstacle?_eq_none (hsame.trans hobstacle)]
      refine Inquiry.run_eq_of_matches (Subject.matches_inquiry hw c.subject hc.mem_declaredKeys) ?_
      rintro q hq ⟨w', s'⟩ ⟨hvalue, rfl⟩
      have hopen : vd.CanOpen c (c.below q) := ⟨hobstacle, q, hq, rfl⟩
      exact ⟨ih (c.below q) hopen (hopen.part.2.within hc) hvalue, rfl⟩

/-! ### Ways to be alike -/

/-- The value with the cells of its arrays and objects replaced. -/
def Value.relocate (arrays objects : Nat → Nat) : Value → Value
  | .array cell => .array (arrays cell)
  | .object cls cell => .object cls (objects cell)
  | v => v

/-- Leaving every cell where it is changes nothing. -/
theorem Value.relocate_id (v : Value) : v.relocate id id = v := by
  cases v <;> rfl

section

variable {keys : Set String} {h h' : Heap}

/-- Scalars of the same kind are alike, whatever they hold. -/
theorem alike_of_kind_eq {v w : Value} (hv : v.isNonPrimitive = false) (hw : w.isNonPrimitive = false)
    (hkind : v.kind = w.kind) : Alike keys h h' v w := by
  refine Resembles.alike ?_
  cases v <;> cases w <;> simp_all [Value.isNonPrimitive, Value.kind] <;> constructor

/-- A value is like the value it is a copy of: every array of the copy holds copies of what an array of the original holds, and
every object copies of what an object of the original holds under the keys. Two cells may be copies of the same one. -/
theorem alike_relocate {arrays objects : Nat → Nat}
    (helements : ∀ cell, (h.elements cell).map (Value.relocate arrays objects) = h'.elements (arrays cell))
    (hfields : ∀ cls cell, ∀ key ∈ keys, (h.field (.object cls cell) key).relocate arrays objects =
      h'.field (.object cls (objects cell)) key) (v : Value) : Alike keys h h' v (v.relocate arrays objects) := by
  refine ⟨fun a b => b = a.relocate arrays objects, ?_, rfl⟩
  rintro a _ rfl
  cases a with
  | array cell =>
    refine .array ?_
    rw [← helements]
    exact List.forall₂_map_right_iff.2 (List.forall₂_same.2 fun _ _ => rfl)
  | object cls cell => exact .object fun key hkey => (hfields cls cell key hkey).symm
  | _ => constructor

end

/-- What of a value a run does not see, in four parts, for the names of fields that the shapes declare which the definition
reaches.
1. Two values that are alike under these names have the same outcome: the same events, and the same answer or defect.
2. A scalar may hold anything of its kind.
3. Objects may hold other fields or hold them in another order, as long as every declared field reads the same; one that is
   missing reads as undefined.
4. A copy may share cells where its original does not, or have cells of its own where its original shares them or reaches
   itself. -/
theorem validate_eq_of_alike (store : Store) (d : Definition) (h h' : Heap) (limit : Option Nat) :
    (∀ v w, Alike (store.declaredKeys d) h h' v w →
      Validator.validate ⟨h, store, limit⟩ v d = Validator.validate ⟨h', store, limit⟩ w d) ∧
    (∀ v w : Value, v.isNonPrimitive = false → w.isNonPrimitive = false → v.kind = w.kind →
      Validator.validate ⟨h, store, limit⟩ v d = Validator.validate ⟨h', store, limit⟩ w d) ∧
    ((∀ cell, h.elements cell = h'.elements cell) →
      (∀ cls cell, ∀ key ∈ store.declaredKeys d, h.field (.object cls cell) key = h'.field (.object cls cell) key) →
      ∀ v, Validator.validate ⟨h, store, limit⟩ v d = Validator.validate ⟨h', store, limit⟩ v d) ∧
    (∀ arrays objects : Nat → Nat,
      (∀ cell, (h.elements cell).map (Value.relocate arrays objects) = h'.elements (arrays cell)) →
      (∀ cls cell, ∀ key ∈ store.declaredKeys d, (h.field (.object cls cell) key).relocate arrays objects =
        h'.field (.object cls (objects cell)) key) →
      ∀ v, Validator.validate ⟨h, store, limit⟩ v d =
        Validator.validate ⟨h', store, limit⟩ (v.relocate arrays objects) d) := by
  have halike : ∀ v w, Alike (store.declaredKeys d) h h' v w →
      Validator.validate ⟨h, store, limit⟩ v d = Validator.validate ⟨h', store, limit⟩ w d := by
    intro v w hvw
    refine Validator.answer_eq_of_alike (.root v d) ?_ hvw
    rintro ref rfl
    exact Relation.ReflTransGen.refl
  refine ⟨halike, fun v w hv hw hkind => halike v w (alike_of_kind_eq hv hw hkind), fun helements hfields v => ?_,
    fun arrays objects helements hfields v => halike v _ (alike_relocate helements hfields v)⟩
  have hcopy : Alike (store.declaredKeys d) h h' v (v.relocate id id) := by
    refine alike_relocate (fun cell => ?_) (fun cls cell key hkey => ?_) v
    · rw [List.map_congr_left fun a _ => a.relocate_id, List.map_id']
      exact helements cell
    · rw [Value.relocate_id]
      exact hfields cls cell key hkey
  rw [Value.relocate_id] at hcopy
  exact halike v v hcopy

/-! ### A ring, unrolled -/

/-- A cell of the linked list declares the field next and no other. -/
theorem LinkedList.eq_of_mem_declaredKeys {key : String}
    (h : key ∈ LinkedList.store.declaredKeys (.node LinkedList.cell)) : key = "next" := by
  obtain ⟨⟨kind, address⟩, _, hkey⟩ := h
  match address with
  | 0 => exact List.mem_singleton.1 hkey
  | 1 => cases kind <;> exact absurd hkey List.not_mem_nil
  | address + 2 =>
    have hfree : LinkedList.store.node ⟨kind, address + 2⟩ = (Body.row []).read kind := by
      simp [Store.node, Store.body, LinkedList.store]
    rw [hfree] at hkey
    cases kind <;> exact absurd hkey List.not_mem_nil

namespace Ring

/-- A cell that follows itself. -/
def one : Heap := ⟨#[], #[[("next", .object .object 0)]], 0⟩

/-- Two cells that follow each other, one of them with a note. -/
def two : Heap := ⟨#[], #[[("next", .object .object 1), ("note", .string "first")], [("next", .object .object 0)]], 0⟩

/-- The two cells without the note: the field is missing, or it comes first and is undefined. -/
def bare : Heap := ⟨#[], #[[("next", .object .object 1)], [("note", .undefined), ("next", .object .object 0)]], 0⟩

/-- Where the two cells stand in the ring of one. -/
def rolled (cell : Nat) : Nat := if cell < 2 then 0 else cell

/-- A heap without arrays holds no element. -/
theorem elements_eq_nil (objects : Array (List (String × Value))) (cell : Nat) : (Heap.mk #[] objects 0).elements cell = [] := by
  simp [Heap.elements]

/-- What follows a cell of the ring of two is a copy of what follows the cell in the ring of one. -/
theorem next_two (cls : Class) (cell : Nat) : (two.field (.object cls cell) "next").relocate id rolled =
    one.field (.object cls (rolled cell)) "next" := by
  match cell with
  | 0 => cbv
  | 1 => cbv
  | cell + 2 => simp [two, one, rolled, Heap.field, Heap.fields, Fields.get?, Value.relocate]

/-- What follows a cell does not depend on the note. -/
theorem next_bare (cls : Class) (cell : Nat) : two.field (.object cls cell) "next" = bare.field (.object cls cell) "next" := by
  match cell with
  | 0 => cbv
  | 1 => cbv
  | cell + 2 => simp [two, bare, Heap.field, Heap.fields]

end Ring

/-- The cells of the ring of two have the outcome of the cell that follows itself, with the note and without it, and one text
has the outcome of another. -/
theorem validate_eq_of_alike_ring :
    let outcome := fun (h : Heap) (v : Value) => Validator.validate ⟨h, LinkedList.store, none⟩ v (.node LinkedList.cell)
    outcome Ring.two (.object .object 0) = outcome Ring.one (.object .object 0) ∧
      outcome Ring.two (.object .object 1) = outcome Ring.one (.object .object 0) ∧
      outcome Ring.two (.object .object 0) = outcome Ring.bare (.object .object 0) ∧
      outcome Ring.two (.string "first") = outcome Ring.one (.string "second") := by
  intro outcome
  have hnext : ∀ cls cell, ∀ key ∈ LinkedList.store.declaredKeys (.node LinkedList.cell),
      (Ring.two.field (.object cls cell) key).relocate id Ring.rolled =
        Ring.one.field (.object cls (Ring.rolled cell)) key := by
    intro cls cell key hkey
    rw [LinkedList.eq_of_mem_declaredKeys hkey]
    exact Ring.next_two cls cell
  have helements : ∀ cell, (Ring.two.elements cell).map (Value.relocate id Ring.rolled) = Ring.one.elements (id cell) := by
    intro cell
    rw [Ring.two, Ring.one, Ring.elements_eq_nil, Ring.elements_eq_nil, List.map_nil]
  obtain ⟨halike, hscalar, _, hcopy⟩ := validate_eq_of_alike LinkedList.store (.node LinkedList.cell) Ring.two Ring.one none
  obtain ⟨_, _, hfields, _⟩ := validate_eq_of_alike LinkedList.store (.node LinkedList.cell) Ring.two Ring.bare none
  refine ⟨halike _ _ (alike_relocate helements hnext (.object .object 0)), hcopy id Ring.rolled helements hnext (.object .object 1),
    hfields (fun cell => ?_) (fun cls cell key hkey => ?_) (.object .object 0), hscalar _ _ rfl rfl rfl⟩
  · rw [Ring.two, Ring.bare, Ring.elements_eq_nil, Ring.elements_eq_nil]
  · rw [LinkedList.eq_of_mem_declaredKeys hkey]
    exact Ring.next_bare cls cell

end Conform
