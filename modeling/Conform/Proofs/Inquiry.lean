import Conform.Judgement

/-!
# Judging as an inquiry

Whatever a value is judged by, judging comes to questions put one after the other until one of them is answered decisively: a
tuple, a bounded array and a shape want every question answered with yes, a union wants one. `Node.judge_eq_run` states this of
the parts of a node. Two facts about a run follow from the answers to its questions: which answer it comes to (`run_iff_holds`),
and where an error comes from (`exists_puts_of_run_error`). What the questions not put would have been answered with plays no
part (`run_eq_of_puts`).
-/

namespace Conform

/-- Questions to be put one after the other, and the answer that settles the matter at once. -/
structure Inquiry (κ : Type) where
  decisive : Bool
  questions : List κ

namespace Inquiry

variable {κ ι : Type}

/-- The matter is settled without a question. -/
def settled (b : Bool) : Inquiry κ := ⟨!b, []⟩

/-- Every question must be answered with yes. -/
def all (questions : List κ) : Inquiry κ := ⟨false, questions⟩

/-- One question must be answered with yes. -/
def any (questions : List κ) : Inquiry κ := ⟨true, questions⟩

/-- The inquiry with every question replaced. -/
def map (f : κ → ι) (q : Inquiry κ) : Inquiry ι := ⟨q.decisive, q.questions.map f⟩

/-- What is logged when a question is answered decisively: the index and the label, if one yes was wanted. -/
def note (label : κ → String) (decisive : Bool) (index : Nat) (k : κ) : List Event :=
  if decisive then [.unionMatched index (label k)] else []

/-- Puts questions, the first one with the given index, until one is answered decisively. -/
def runFrom (ask : κ → Outcome Bool) (label : κ → String) (decisive : Bool) (index : Nat) : List κ → Outcome Bool
  | [] => Outcome.answer !decisive
  | k :: rest => do
    if (← ask k) = decisive then ⟨note label decisive index k, .ok decisive⟩
    else runFrom ask label decisive (index + 1) rest

/-- Runs an inquiry. -/
def run (ask : κ → Outcome Bool) (label : κ → String) (q : Inquiry κ) : Outcome Bool :=
  runFrom ask label q.decisive 0 q.questions

/-- Whether a question is put: all questions before it are answered, and none of them decisively. -/
def Puts (ask : κ → Outcome Bool) (q : Inquiry κ) (k : κ) : Prop :=
  ∃ before after, q.questions = before ++ k :: after ∧ ∀ p ∈ before, (ask p).result = .ok !q.decisive

/-- What the answer should be when yes to a question should mean `P`. -/
def Holds (P : κ → Prop) (q : Inquiry κ) : Prop :=
  if q.decisive then ∃ k ∈ q.questions, P k else ∀ k ∈ q.questions, P k

/-- The first question is put, and those after it are when it is not answered decisively. -/
theorem puts_cons {ask : κ → Outcome Bool} {decisive : Bool} {k p : κ} {rest : List κ} :
    (mk decisive (k :: rest)).Puts ask p ↔ p = k ∨ (ask k).result = .ok (!decisive) ∧ (mk decisive rest).Puts ask p := by
  constructor
  · rintro ⟨before, after, hsplit, hbefore⟩
    cases before with
    | nil => exact Or.inl (List.cons.inj hsplit).1.symm
    | cons q before =>
      obtain ⟨rfl, hrest⟩ := List.cons.inj hsplit
      exact Or.inr ⟨hbefore k List.mem_cons_self, before, after, hrest, fun q hq => hbefore q (List.mem_cons_of_mem k hq)⟩
  · rintro (rfl | ⟨hother, before, after, hsplit, hbefore⟩)
    · exact ⟨[], rest, rfl, by simp⟩
    · exact ⟨k :: before, after, congrArg (k :: ·) hsplit, List.forall_mem_cons.2 ⟨hother, hbefore⟩⟩

/-! ### One question -/

section

variable {ask : κ → Outcome Bool} {label : κ → String} {decisive : Bool} {index : Nat} {k : κ} {rest : List κ}

/-- A question is answered decisively, or the other way, or not at all. -/
theorem result_cases (decisive : Bool) (o : Outcome Bool) :
    o.result = .ok decisive ∨ o.result = .ok (!decisive) ∨ ∃ defect, o.result = .error defect := by
  obtain ⟨events, _ | b⟩ := o
  · exact Or.inr (Or.inr ⟨_, rfl⟩)
  · cases b <;> cases decisive <;> simp

/-- A decisive answer ends the run. -/
theorem runFrom_cons_of_decisive (h : (ask k).result = .ok decisive) :
    runFrom ask label decisive index (k :: rest) = ⟨(ask k).events ++ note label decisive index k, .ok decisive⟩ := by
  show Outcome.andThen _ _ = _
  simp only [Outcome.andThen, h, if_true]

/-- Any other answer leads to the next question. -/
theorem runFrom_cons_of_other (h : (ask k).result = .ok !decisive) :
    runFrom ask label decisive index (k :: rest) =
      ⟨(ask k).events ++ (runFrom ask label decisive (index + 1) rest).events,
        (runFrom ask label decisive (index + 1) rest).result⟩ := by
  have hne : ¬ (!decisive) = decisive := by cases decisive <;> simp
  show Outcome.andThen _ _ = _
  simp only [Outcome.andThen, h, hne, if_false]

/-- A question that is not answered ends the run. -/
theorem runFrom_cons_of_error {defect : Defect} (h : (ask k).result = .error defect) :
    runFrom ask label decisive index (k :: rest) = ⟨(ask k).events, .error defect⟩ := by
  show Outcome.andThen _ _ = _
  simp only [Outcome.andThen, h]

end

/-! ### The run as a whole -/

section

variable {ask ask' : κ → Outcome Bool} {label : κ → String}

/-- A settled matter is answered without an event. -/
theorem run_settled (b : Bool) : (settled b).run ask label = Outcome.answer b := by
  simp [settled, run, runFrom]

/-- A single question is answered as it is asked. -/
theorem run_all_singleton (k : κ) : (all [k]).run ask label = ask k := by
  show runFrom ask label false 0 [k] = ask k
  rcases result_cases false (ask k) with hd | ho | ⟨defect, he⟩
  · rw [runFrom_cons_of_decisive hd, ← hd]
    simp [note]
  · have hyes : (ask k).result = .ok true := ho
    rw [runFrom_cons_of_other ho]
    show Outcome.mk ((ask k).events ++ []) (.ok true) = ask k
    rw [List.append_nil, ← hyes]
  · rw [runFrom_cons_of_error he, ← he]

/-- Questions that are replaced are put as what they are replaced by. -/
theorem runFrom_map (f : ι → κ) (decisive : Bool) : ∀ (index : Nat) (l : List ι),
    runFrom ask label decisive index (l.map f) = runFrom (fun k => ask (f k)) (fun k => label (f k)) decisive index l := by
  intro index l
  induction l generalizing index with
  | nil => rfl
  | cons k rest ih => simp only [List.map_cons, runFrom, note, ih]

/-- Running a replaced inquiry is asking what the questions are replaced by. -/
theorem run_map (f : ι → κ) (q : Inquiry ι) :
    (q.map f).run ask label = q.run (fun k => ask (f k)) (fun k => label (f k)) :=
  runFrom_map f q.decisive 0 q.questions

/-- When a yes to a question means `P`, the answer of the run means what it should. -/
theorem run_iff_holds {P : κ → Prop} {q : Inquiry κ}
    (h : ∀ k ∈ q.questions, ∀ b, (ask k).result = .ok b → (b = true ↔ P k)) {b : Bool}
    (hb : (q.run ask label).result = .ok b) : b = true ↔ q.Holds P := by
  obtain ⟨decisive, questions⟩ := q
  have key : ∀ (l : List κ) (index : Nat), (∀ k ∈ l, ∀ b, (ask k).result = .ok b → (b = true ↔ P k)) →
      (runFrom ask label decisive index l).result = .ok b → (b = true ↔ (mk decisive l).Holds P) := by
    intro l
    induction l with
    | nil =>
      intro index _ hl
      cases decisive <;> simp_all [runFrom, Outcome.answer, Holds]
    | cons k rest ih =>
      intro index hP hl
      have hk := hP k List.mem_cons_self
      have hrest := ih (index + 1) fun k' hk' => hP k' (List.mem_cons_of_mem k hk')
      rcases result_cases decisive (ask k) with hd | ho | ⟨defect, he⟩
      · rw [runFrom_cons_of_decisive hd] at hl
        have := hk _ hd
        cases decisive <;> simp_all [Holds]
      · rw [runFrom_cons_of_other ho] at hl
        have := hk _ ho
        have := hrest hl
        cases decisive <;> simp_all [Holds]
      · rw [runFrom_cons_of_error he] at hl
        simp at hl
  exact key questions 0 h hb

/-- The error of a run is the error of a question that is put. -/
theorem exists_puts_of_run_error {q : Inquiry κ} {defect : Defect} (h : (q.run ask label).result = .error defect) :
    ∃ k, q.Puts ask k ∧ (ask k).result = .error defect := by
  obtain ⟨decisive, questions⟩ := q
  have key : ∀ (l : List κ) (index : Nat), (runFrom ask label decisive index l).result = .error defect →
      ∃ k, (mk decisive l).Puts ask k ∧ (ask k).result = .error defect := by
    intro l
    induction l with
    | nil => intro index hl; simp [runFrom, Outcome.answer] at hl
    | cons k rest ih =>
      intro index hl
      rcases result_cases decisive (ask k) with hd | ho | ⟨defect', he⟩
      · rw [runFrom_cons_of_decisive hd] at hl
        simp at hl
      · rw [runFrom_cons_of_other ho] at hl
        obtain ⟨k', hputs, he⟩ := ih (index + 1) hl
        exact ⟨k', puts_cons.2 (Or.inr ⟨ho, hputs⟩), he⟩
      · rw [runFrom_cons_of_error he] at hl
        simp only [Except.error.injEq] at hl
        subst hl
        exact ⟨k, puts_cons.2 (Or.inl rfl), he⟩
  exact key questions 0 h

/-- A run depends on the outcomes of the questions that are put and on no others. -/
theorem run_eq_of_puts {q : Inquiry κ} (h : ∀ k, q.Puts ask k → ask' k = ask k) : q.run ask' label = q.run ask label := by
  obtain ⟨decisive, questions⟩ := q
  have key : ∀ (l : List κ) (index : Nat), (∀ k, (mk decisive l).Puts ask k → ask' k = ask k) →
      runFrom ask' label decisive index l = runFrom ask label decisive index l := by
    intro l
    induction l with
    | nil => intro index _; rfl
    | cons k rest ih =>
      intro index hl
      have hk : ask' k = ask k := hl k (puts_cons.2 (Or.inl rfl))
      rcases result_cases decisive (ask k) with hd | ho | ⟨defect, he⟩
      · rw [runFrom_cons_of_decisive hd, runFrom_cons_of_decisive (hk ▸ hd), hk]
      · have hrest := ih (index + 1) fun k' hputs => hl k' (puts_cons.2 (Or.inr ⟨ho, hputs⟩))
        rw [runFrom_cons_of_other ho, runFrom_cons_of_other (hk ▸ ho), hk, hrest]
      · rw [runFrom_cons_of_error he, runFrom_cons_of_error (hk ▸ he), hk]
  exact key questions 0 h

/-- A question that is put is one of the questions. -/
theorem Puts.mem {q : Inquiry κ} {k : κ} (h : q.Puts ask k) : k ∈ q.questions := by
  obtain ⟨before, after, hsplit, _⟩ := h
  rw [hsplit]
  exact List.mem_append_right before List.mem_cons_self

/-- When a run comes to an answer, every question that is put comes to one. -/
theorem Puts.exists_ok {q : Inquiry κ} {k : κ} (h : q.Puts ask k) {b : Bool} (hb : (q.run ask label).result = .ok b) :
    ∃ c, (ask k).result = .ok c := by
  obtain ⟨before, after, hsplit, hbefore⟩ := h
  obtain ⟨decisive, questions⟩ := q
  have key : ∀ (l : List κ) (index : Nat), (∀ p ∈ l, (ask p).result = .ok !decisive) →
      (runFrom ask label decisive index (l ++ k :: after)).result = .ok b → ∃ c, (ask k).result = .ok c := by
    intro l
    induction l with
    | nil =>
      intro index _ hl
      rcases result_cases decisive (ask k) with hd | ho | ⟨defect, he⟩
      · exact ⟨_, hd⟩
      · exact ⟨_, ho⟩
      · rw [List.nil_append, runFrom_cons_of_error he] at hl
        simp at hl
    | cons p rest ih =>
      intro index hp hl
      rw [List.cons_append, runFrom_cons_of_other (hp p List.mem_cons_self)] at hl
      exact ih (index + 1) (fun p' hp' => hp p' (List.mem_cons_of_mem p hp')) hl
  simp only at hsplit hbefore
  subst hsplit
  exact key before 0 hbefore hb

end

end Inquiry

/-! ### The questions of a node -/

/-- The elements paired with the parts of a tuple at their positions; a missing element is undefined. -/
def positions {δ : Type} : List Value → List δ → List (Value × δ)
  | _, [] => []
  | [], d :: ds => (.undefined, d) :: positions [] ds
  | v :: vs, d :: ds => (v, d) :: positions vs ds

/-- What judging a value by a node comes to. -/
def Node.inquiry {δ : Type} (heap : Heap) (v : Value) : Node δ → Inquiry (Value × δ)
  | .tuple items =>
    match heap.elements? v with
    | none => .settled false
    | some elements => if items.length < elements.length then .settled false else .all (positions elements items)
  | .bounded element min max =>
    match heap.elements? v with
    | none => .settled false
    | some elements =>
      if admitsLength min max elements.length then .all (elements.map fun e => (e, element)) else .settled false
  | .union alternatives => .any (alternatives.map fun d => (v, d))
  | .shape fields => if v.isNonPrimitive then .all (fields.map fun f => (heap.field v f.1, f.2)) else .settled false

section

variable {δ : Type} {accepts : Value → δ → Outcome Bool}

/-- Going on after yes is stopping after no. -/
theorem ite_eq_true_eq_ite_eq_false {α : Type} (b : Bool) (x y : α) :
    (if b = true then x else y) = if b = false then y else x := by
  cases b <;> rfl

/-- Judging by position is asking for every element in turn. -/
theorem everyPosition_eq_runFrom (label : Value × δ → String) :
    ∀ (ds : List δ) (vs : List Value) (index : Nat),
      everyPosition accepts vs ds = Inquiry.runFrom (fun q => accepts q.1 q.2) label false index (positions vs ds) := by
  intro ds
  induction ds with
  | nil => intro vs index; cases vs <;> rfl
  | cons d ds ih =>
    intro vs index
    cases vs with
    | nil =>
      simp only [everyPosition, positions, Inquiry.runFrom, ite_eq_true_eq_ite_eq_false, ih [] (index + 1)]
      rfl
    | cons v vs =>
      simp only [everyPosition, positions, Inquiry.runFrom, ite_eq_true_eq_ite_eq_false, ih vs (index + 1)]
      rfl

/-- Accepting every item is an inquiry that no settles. -/
theorem every_eq_runFrom {α : Type} (ask : α → Outcome Bool) (label : α → String) :
    ∀ (l : List α) (index : Nat), Outcome.every ask l = Inquiry.runFrom ask label false index l := by
  intro l
  induction l with
  | nil => intro index; rfl
  | cons a rest ih =>
    intro index
    simp only [Outcome.every, Inquiry.runFrom, ite_eq_true_eq_ite_eq_false, ih (index + 1)]
    rfl

/-- Accepting a first item is an inquiry that yes settles. -/
theorem firstOf_eq_runFrom {α : Type} (ask : α → Outcome Bool) (label : α → String) :
    ∀ (l : List α) (index : Nat), Outcome.firstOf ask label index l = Inquiry.runFrom ask label true index l := by
  intro l
  induction l with
  | nil => intro index; rfl
  | cons a rest ih =>
    intro index
    simp only [Outcome.firstOf, Inquiry.runFrom, ih (index + 1)]
    rfl

/-- Judging a value by a node is running the inquiry that it comes to. -/
theorem Node.judge_eq_run (heap : Heap) (accepts : Value → δ → Outcome Bool) (label : δ → String) (v : Value) (n : Node δ) :
    n.judge heap accepts label v = (n.inquiry heap v).run (fun q => accepts q.1 q.2) (fun q => label q.2) := by
  cases n with
  | tuple items =>
    cases he : heap.elements? v with
    | none => simp only [Node.judge, Node.inquiry, he, Inquiry.run_settled]
    | some elements =>
      by_cases hlen : items.length < elements.length
      · simp only [Node.judge, Node.inquiry, he, hlen, if_true, Inquiry.run_settled]
      · simp only [Node.judge, Node.inquiry, he, hlen, if_false]
        exact everyPosition_eq_runFrom _ items elements 0
  | bounded element min max =>
    cases he : heap.elements? v with
    | none => simp only [Node.judge, Node.inquiry, he, Inquiry.run_settled]
    | some elements =>
      by_cases hlen : admitsLength min max elements.length = true
      · simp only [Node.judge, Node.inquiry, he, hlen, if_true]
        show _ = (Inquiry.map (fun e => (e, element)) (.all elements)).run _ _
        rw [Inquiry.run_map]
        exact every_eq_runFrom _ _ elements 0
      · simp only [Node.judge, Node.inquiry, he, hlen]
        exact (Inquiry.run_settled false).symm
  | union alternatives =>
    show _ = (Inquiry.map (fun d => (v, d)) (.any alternatives)).run _ _
    rw [Inquiry.run_map]
    exact firstOf_eq_runFrom _ _ alternatives 0
  | shape fields =>
    by_cases hv : v.isNonPrimitive = true
    · simp only [Node.judge, Node.inquiry, hv, if_true]
      show _ = (Inquiry.map (fun f => (heap.field v f.1, f.2)) (.all fields)).run _ _
      rw [Inquiry.run_map]
      exact every_eq_runFrom _ _ fields 0
    · simp only [Node.judge, Node.inquiry, hv]
      exact (Inquiry.run_settled false).symm

end

end Conform
