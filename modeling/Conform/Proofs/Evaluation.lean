import Conform.Proofs.Trace

/-!
# The evaluations of a run

`Validator.evaluations` lists the calls of a run in the order in which they finish, each once for every time it is made: first
those that its questions open, one question after the other, and last the call itself. The events of a run are read off this
list. Every evaluation of a union that says yes logs one event when it finishes, with the first alternative that accepts the
value (`Validator.taken?`), whether or not the branch it stands in is given up later; nothing else is logged but the defect that
ends the run (`Validator.events_eq`, `trace_law`).
-/

namespace Conform

namespace Inquiry

variable {κ : Type} {ask : κ → Outcome Bool} {label : κ → String}

/-- The questions that are put, in order: up to the first one that is not answered, or is answered decisively. -/
def askedFrom (ask : κ → Outcome Bool) (decisive : Bool) : List κ → List κ
  | [] => []
  | k :: rest => if (ask k).result = .ok !decisive then k :: askedFrom ask decisive rest else [k]

/-- The questions of an inquiry that are put, in order. -/
def asked (ask : κ → Outcome Bool) (q : Inquiry κ) : List κ := askedFrom ask q.decisive q.questions

/-- The questions listed are those that are put. -/
theorem mem_asked_iff {q : Inquiry κ} {k : κ} : k ∈ q.asked ask ↔ q.Puts ask k := by
  obtain ⟨decisive, questions⟩ := q
  simp only [asked]
  induction questions with
  | nil =>
    constructor
    · intro h
      exact absurd h List.not_mem_nil
    · intro h
      exact absurd h.mem List.not_mem_nil
  | cons p rest ih =>
    rw [puts_cons, askedFrom]
    split
    · rename_i hother
      rw [List.mem_cons, ih]
      simp only [hother, true_and]
    · rename_i hother
      rw [List.mem_singleton]
      simp only [hother, false_and, or_false]

/-- What a run logs on its own account: which question was answered with yes, where one yes was wanted. -/
def noteFrom (ask : κ → Outcome Bool) (label : κ → String) (decisive : Bool) (index : Nat) (l : List κ) : List Event :=
  if (runFrom ask label decisive index l).result = .ok true ∧ decisive = true then
    (((l.zipIdx index).find? fun e => (ask e.1).result = .ok true).map fun e => .unionMatched e.2 (label e.1)).toList
  else []

/-- Questions that log alternatives taken, and a defect if they end with one, make a run that logs those of the questions put,
one after the other, then its own, and then the defect. -/
theorem events_runFrom {taken : κ → List Event} (label : κ → String) (decisive : Bool) (index : Nat) (l : List κ)
    (h : ∀ k ∈ askedFrom ask decisive l, (ask k).events = taken k ++ Outcome.closing (ask k).result) :
    (runFrom ask label decisive index l).events =
      (askedFrom ask decisive l).flatMap taken ++ noteFrom ask label decisive index l ++
        Outcome.closing (runFrom ask label decisive index l).result := by
  induction l generalizing index with
  | nil => cases decisive <;> rfl
  | cons k rest ih =>
    rcases result_cases decisive (ask k) with hd | ho | ⟨defect, he⟩
    · have hlast : askedFrom ask decisive (k :: rest) = [k] := by cases decisive <;> simp [askedFrom, hd]
      have hk := h k (by simp [hlast])
      rw [runFrom_cons_of_decisive hd, hlast, hk, hd, noteFrom, runFrom_cons_of_decisive hd]
      cases decisive <;> simp [note, Outcome.closing, hd]
    · have hmore : askedFrom ask decisive (k :: rest) = k :: askedFrom ask decisive rest := by simp [askedFrom, ho]
      have hk := h k (by simp [hmore])
      have hrest := ih (index + 1) fun p hp => h p (by simp [hmore, hp])
      have hnote : noteFrom ask label decisive index (k :: rest) = noteFrom ask label decisive (index + 1) rest := by
        simp only [noteFrom, runFrom_cons_of_other ho]
        cases decisive <;> simp [List.zipIdx_cons, ho]
      rw [runFrom_cons_of_other ho, hmore, hnote, hk, ho, hrest]
      simp [Outcome.closing]
    · have hlast : askedFrom ask decisive (k :: rest) = [k] := by simp [askedFrom, he]
      have hk := h k (by simp [hlast])
      rw [runFrom_cons_of_error he, hlast, hk, he, noteFrom, runFrom_cons_of_error he]
      simp

end Inquiry

/-- The alternatives of a union; other nodes have none. -/
def Node.alternatives? {δ : Type} : Node δ → Option (List δ)
  | .union alternatives => some alternatives
  | _ => none

/-- The alternatives of a subject that is a union: a node of the store, or what an optional token abbreviates. -/
def Subject.alternatives? (store : Store) : Subject → Option (List Definition)
  | .definition (.node ref) => (store.node ref).alternatives?
  | .definition _ => none
  | .expansion n => n.alternatives?

namespace Validator

variable {vd : Validator}

/-- The calls that are made when a call is, in the order in which they finish. -/
def evaluations (vd : Validator) (c : Call) : List Call :=
  match _h : vd.obstacle? c with
  | some _ => [c]
  | none => (((vd.inquiry c).asked (vd.answerBelow c)).attach.flatMap fun q => vd.evaluations (c.below q.1)) ++ [c]
termination_by (wellFounded_canOpen vd).wrap c
decreasing_by exact ⟨_h, q.1, (Inquiry.mem_asked_iff.1 q.2).mem, rfl⟩

/-- A call finishes after the calls that its questions open, which finish one after the other. -/
theorem evaluations_eq (vd : Validator) (c : Call) :
    vd.evaluations c =
      match vd.obstacle? c with
      | some _ => [c]
      | none => (((vd.inquiry c).asked (vd.answerBelow c)).flatMap fun q => vd.evaluations (c.below q)) ++ [c] := by
  rw [evaluations]
  split
  · rename_i h
    rw [h]
  · rename_i h
    rw [h]
    simp only [List.flatMap_subtype, List.unattach_attach]

/-- The calls that finish are those that are made. -/
theorem mem_evaluations_iff {c c' : Call} : c' ∈ vd.evaluations c ↔ vd.Reached c c' := by
  induction c using vd.call_induction with
  | step c ih =>
    rw [evaluations_eq]
    cases hobstacle : vd.obstacle? c with
    | some defect =>
      constructor
      · intro h
        rw [List.mem_singleton.1 h]
        exact Relation.ReflTransGen.refl
      · intro h
        rcases Relation.ReflTransGen.cases_head h with rfl | ⟨next, hopens, _⟩
        · exact List.mem_singleton_self c
        · rw [hopens.1] at hobstacle
          cases hobstacle
    | none =>
      simp only [List.mem_append, List.mem_flatMap, List.mem_singleton]
      constructor
      · rintro (⟨q, hq, hc'⟩ | rfl)
        · have hopens : vd.Opens c (c.below q) := ⟨hobstacle, q, Inquiry.mem_asked_iff.1 hq, rfl⟩
          exact Relation.ReflTransGen.head hopens ((ih _ hopens.canOpen).1 hc')
        · exact Relation.ReflTransGen.refl
      · intro h
        rcases Relation.ReflTransGen.cases_head h with rfl | ⟨next, hopens, hrest⟩
        · exact Or.inr rfl
        · obtain ⟨_, q, hputs, rfl⟩ := id hopens
          exact Or.inl ⟨q, Inquiry.mem_asked_iff.2 hputs, (ih _ hopens.canOpen).2 hrest⟩

/-! ### What an evaluation logs -/

/-- A union comes to the question for each of its alternatives whether it accepts the value. -/
theorem inquiry_of_alternatives? {heap : Heap} {store : Store} {s : Subject} {alternatives : List Definition}
    (h : s.alternatives? store = some alternatives) (v : Value) :
    s.inquiry heap store v = .any (alternatives.map fun d => (v, .definition d)) := by
  have hunion : ∀ {n : Node Definition}, n.alternatives? = some alternatives →
      (n.inquiry heap v).map (fun q => (q.1, Subject.definition q.2)) = .any (alternatives.map fun d => (v, .definition d)) := by
    intro n hn
    cases n with
    | union l =>
      cases Option.some.inj hn
      simp [Node.inquiry, Inquiry.map, Inquiry.any]
    | _ => simp [Node.alternatives?] at hn
  cases s with
  | expansion n => exact hunion h
  | definition d =>
    cases d with
    | node ref => exact hunion h
    | _ => simp [Subject.alternatives?] at h

/-- A subject that is no union wants no single yes, unless it has no question. -/
theorem questions_of_alternatives?_eq_none {heap : Heap} {store : Store} {s : Subject} (h : s.alternatives? store = none)
    (v : Value) (hyes : (s.inquiry heap store v).decisive = true) : (s.inquiry heap store v).questions = [] := by
  have hnode : ∀ {n : Node Definition}, n.alternatives? = none → (n.inquiry heap v).decisive = true →
      (n.inquiry heap v).questions = [] := by
    intro n hn hd
    cases n with
    | union l => simp [Node.alternatives?] at hn
    | tuple items =>
      simp only [Node.inquiry] at hd ⊢
      split at hd
      · rfl
      · split at hd
        · simp [*, Inquiry.settled]
        · simp [Inquiry.all] at hd
    | bounded element min max =>
      simp only [Node.inquiry] at hd ⊢
      split at hd
      · rfl
      · split at hd
        · simp [Inquiry.all] at hd
        · simp [*, Inquiry.settled]
    | shape fields =>
      simp only [Node.inquiry] at hd ⊢
      split at hd
      · simp [Inquiry.all] at hd
      · simp [*, Inquiry.settled]
  cases s with
  | expansion n => simpa [Subject.inquiry, Inquiry.map] using hnode h hyes
  | definition d =>
    cases d with
    | node ref => simpa [Subject.inquiry, Inquiry.map] using hnode h hyes
    | token text =>
      simp only [Subject.inquiry] at hyes ⊢
      split at hyes
      · rfl
      · split at hyes
        · rfl
        · simp [Inquiry.all] at hyes
    | _ => rfl

/-- What the evaluation of a call logs when it finishes: when the call is about a union and says yes, the first alternative that
accepts the value, with its index and its label. -/
def taken? (vd : Validator) (c : Call) : Option Event :=
  match c.subject.alternatives? vd.store with
  | none => none
  | some alternatives =>
    if (vd.answer c).result = .ok true then
      (alternatives.zipIdx.find? fun e => (vd.answerBelow c (c.value, .definition e.1)).result = .ok true).map
        fun e => .unionMatched e.2 (vd.label e.1)
    else none

/-- The run of a call that nothing is in the way of logs on its own account what the evaluation of the call logs. -/
theorem noteFrom_eq_taken? {c : Call} (hclear : vd.obstacle? c = none) :
    Inquiry.noteFrom (vd.answerBelow c) (fun q => q.2.label vd.store) (vd.inquiry c).decisive 0 (vd.inquiry c).questions =
      (vd.taken? c).toList := by
  have hrun : (vd.answer c).result = ((vd.inquiry c).run (vd.answerBelow c) fun q => q.2.label vd.store).result := by
    rw [answer_of_obstacle?_eq_none hclear]
  cases halternatives : c.subject.alternatives? vd.store with
  | none =>
    have hnone : vd.taken? c = none := by simp only [taken?, halternatives]
    rw [hnone, Inquiry.noteFrom]
    split
    · rename_i hnote
      have hquestions : (vd.inquiry c).questions = [] := questions_of_alternatives?_eq_none halternatives c.value hnote.2
      rw [hquestions]
      rfl
    · rfl
  | some alternatives =>
    have hinquiry : vd.inquiry c = .any (alternatives.map fun d => (c.value, .definition d)) :=
      inquiry_of_alternatives? halternatives c.value
    simp only [taken?, halternatives, hrun, hinquiry, Inquiry.noteFrom, Inquiry.run, Inquiry.any, and_true]
    split
    · rw [List.zipIdx_map, List.find?_map, Option.map_map]
      rfl
    · rfl

/-- The events of a call are what its evaluations log when they finish, and then its defect, if it ends with one. -/
theorem events_eq (c : Call) (hdepth : ∀ n, vd.limit = some n → c.depth ≤ n + 1) :
    (vd.answer c).events = (vd.evaluations c).filterMap vd.taken? ++ Outcome.closing (vd.answer c).result := by
  induction c using vd.call_induction with
  | step c ih =>
    rw [evaluations_eq]
    cases hobstacle : vd.obstacle? c with
    | some defect =>
      have hnone : vd.taken? c = none := by
        simp only [taken?, answer_of_obstacle?_eq_some hobstacle, Outcome.stop]
        split <;> simp
      simp only [List.filterMap_cons, hnone, List.filterMap_nil, List.nil_append]
      exact events_of_obstacle?_eq_some hobstacle hdepth
    | none =>
      have hclear := (obstacle?_eq_none_iff.1 hobstacle).2
      have hbelow : ∀ q ∈ (vd.inquiry c).asked (vd.answerBelow c), (vd.answerBelow c q).events =
          (vd.evaluations (c.below q)).filterMap vd.taken? ++ Outcome.closing (vd.answerBelow c q).result := by
        intro q hq
        have hopen : vd.CanOpen c (c.below q) := ⟨hobstacle, q, (Inquiry.mem_asked_iff.1 hq).mem, rfl⟩
        refine ih (c.below q) hopen fun n hn => ?_
        rw [Call.depth_below]
        exact Nat.succ_le_succ (hclear n hn)
      rw [answer_of_obstacle?_eq_none hobstacle]
      have hevents := Inquiry.events_runFrom (fun q => q.2.label vd.store) (vd.inquiry c).decisive 0 _ hbelow
      rw [noteFrom_eq_taken? hobstacle] at hevents
      rw [List.filterMap_append, List.filterMap_flatMap, List.filterMap_cons, List.filterMap_nil]
      refine hevents.trans ?_
      cases vd.taken? c <;> rfl

/-- Whether an alternative is the one that a call about a union takes: it accepts the value, and no alternative before it does. -/
structure Takes (vd : Validator) (c : Call) (alternatives : List Definition) (i : Nat) (d : Definition) : Prop where
  /-- It stands at the index. -/
  getElem : alternatives[i]? = some d
  /-- It accepts the value. -/
  accepts : (vd.answerBelow c (c.value, .definition d)).result = .ok true
  /-- No alternative with a smaller index does. -/
  least : ∀ j < i, ∀ e, alternatives[j]? = some e → (vd.answerBelow c (c.value, .definition e)).result ≠ .ok true

/-- The first member of a row that passes a test, with its index, is the one before which no member passes. -/
theorem find?_zipIdx_eq_some_iff {α : Type} {p : α → Bool} {l : List α} {a : α} {i : Nat} :
    l.zipIdx.find? (fun e => p e.1) = some (a, i) ↔ l[i]? = some a ∧ p a = true ∧ ∀ j < i, ∀ b, l[j]? = some b → p b = false := by
  rw [List.find?_eq_some_iff_getElem]
  constructor
  · rintro ⟨hp, k, hk, hsame, hbefore⟩
    rw [List.getElem_zipIdx, Prod.mk.injEq, Nat.zero_add] at hsame
    obtain ⟨rfl, rfl⟩ := hsame
    rw [List.length_zipIdx] at hk
    refine ⟨List.getElem?_eq_getElem hk, hp, fun j hj b hb => ?_⟩
    obtain ⟨_, rfl⟩ := List.getElem?_eq_some_iff.1 hb
    simpa using hbefore j hj
  · rintro ⟨hi, hp, hbefore⟩
    obtain ⟨hlt, rfl⟩ := List.getElem?_eq_some_iff.1 hi
    refine ⟨hp, i, by rwa [List.length_zipIdx], by simp, fun j hj => ?_⟩
    have hj' : j < l.length := hj.trans hlt
    simpa using hbefore j hj l[j] (List.getElem?_eq_getElem hj')

/-- What an evaluation logs is the alternative that its call takes. -/
theorem taken?_eq_some_iff {c : Call} {event : Event} :
    vd.taken? c = some event ↔ (vd.answer c).result = .ok true ∧ ∃ alternatives i d,
      c.subject.alternatives? vd.store = some alternatives ∧ vd.Takes c alternatives i d ∧
        event = .unionMatched i (vd.label d) := by
  cases halternatives : c.subject.alternatives? vd.store with
  | none => simp [taken?, halternatives]
  | some alternatives =>
    simp only [taken?, halternatives]
    constructor
    · intro h
      split at h
      · rename_i hyes
        obtain ⟨⟨d, i⟩, hfind, rfl⟩ := Option.map_eq_some_iff.1 h
        have hfirst := (find?_zipIdx_eq_some_iff
          (p := fun e => (vd.answerBelow c (c.value, .definition e)).result = .ok true)).1 hfind
        simp only [decide_eq_true_eq, decide_eq_false_iff_not] at hfirst
        exact ⟨hyes, alternatives, i, d, rfl, ⟨hfirst.1, hfirst.2.1, hfirst.2.2⟩, rfl⟩
      · cases h
    · rintro ⟨hyes, l, i, d, hsame, htakes, rfl⟩
      cases Option.some.inj hsame
      rw [if_pos hyes]
      have hfirst := (find?_zipIdx_eq_some_iff
        (p := fun e => (vd.answerBelow c (c.value, .definition e)).result = .ok true) (l := alternatives) (a := d) (i := i)).2
      simp only [decide_eq_true_eq, decide_eq_false_iff_not] at hfirst
      rw [hfirst ⟨htakes.getElem, htakes.accepts, htakes.least⟩]
      rfl

/-- The evaluation of a union logs something exactly when it says yes. -/
theorem isSome_taken?_iff {c : Call} :
    (vd.taken? c).isSome ↔ (c.subject.alternatives? vd.store).isSome ∧ (vd.answer c).result = .ok true := by
  constructor
  · intro h
    obtain ⟨event, hevent⟩ := Option.isSome_iff_exists.1 h
    obtain ⟨hyes, alternatives, _, _, halternatives, _, _⟩ := taken?_eq_some_iff.1 hevent
    exact ⟨Option.isSome_iff_exists.2 ⟨alternatives, halternatives⟩, hyes⟩
  · rintro ⟨hunion, hyes⟩
    obtain ⟨alternatives, halternatives⟩ := Option.isSome_iff_exists.1 hunion
    have hclear := obstacle?_eq_none_of_ok hyes
    have hinquiry : vd.inquiry c = .any (alternatives.map fun d => (c.value, .definition d)) :=
      inquiry_of_alternatives? halternatives c.value
    have hrun := hyes
    rw [answer_of_obstacle?_eq_none hclear, hinquiry] at hrun
    -- A union says yes only when one of its alternatives does.
    have hholds := (Inquiry.run_iff_holds (P := fun q => (vd.answerBelow c q).result = .ok true)
      (fun q _ b hb => by simp [hb]) hrun).1 rfl
    simp only [Inquiry.Holds, Inquiry.any, if_true] at hholds
    obtain ⟨_, hq, haccepts⟩ := hholds
    obtain ⟨d, hd, rfl⟩ := List.mem_map.1 hq
    obtain ⟨i, hi, rfl⟩ := List.mem_iff_getElem.1 hd
    simp only [taken?, halternatives, hyes, if_true, Option.isSome_map, List.find?_isSome]
    exact ⟨(alternatives[i], i), by simp [List.mem_zipIdx_iff_getElem?, hi], by simpa using haccepts⟩

end Validator

/-- What a run logs, in five parts.
1. It logs what its evaluations log when they finish, in that order, and then the defect, if it ends with one: nothing comes
   after an answer.
2. The calls that are evaluated are those that the run makes.
3. The evaluation of a call logs something exactly when the call is about a union, be it a node of the store or what an optional
   token abbreviates, and says yes.
4. What it logs is the first alternative that accepts the value, by its index and its label.
5. When the definition is a union that says yes, the last event is the one of this union. -/
theorem trace_law (vd : Validator) (v : Value) (d : Definition) :
    (vd.validate v d).events =
        (vd.evaluations (.root v d)).filterMap vd.taken? ++ Outcome.closing (vd.validate v d).result ∧
      (∀ c, c ∈ vd.evaluations (.root v d) ↔ vd.Reached (.root v d) c) ∧
      (∀ c, (vd.taken? c).isSome ↔ (c.subject.alternatives? vd.store).isSome ∧ (vd.answer c).result = .ok true) ∧
      (∀ c event, vd.taken? c = some event → ∃ alternatives i alternative,
        c.subject.alternatives? vd.store = some alternatives ∧ vd.Takes c alternatives i alternative ∧
          event = .unionMatched i (vd.label alternative)) ∧
      (∀ alternatives, (Subject.definition d).alternatives? vd.store = some alternatives → (vd.validate v d).result = .ok true →
        ∃ before i alternative, vd.Takes (.root v d) alternatives i alternative ∧
          (vd.validate v d).events = before ++ [.unionMatched i (vd.label alternative)]) := by
  have hevents : (vd.validate v d).events =
      (vd.evaluations (.root v d)).filterMap vd.taken? ++ Outcome.closing (vd.validate v d).result :=
    Validator.events_eq (.root v d) fun _ _ => Nat.zero_le _
  refine ⟨hevents, fun c => Validator.mem_evaluations_iff, fun c => Validator.isSome_taken?_iff, ?_, ?_⟩
  · intro c event hevent
    exact (Validator.taken?_eq_some_iff.1 hevent).2
  · intro alternatives halternatives hyes
    have hsome : (vd.taken? (.root v d)).isSome :=
      Validator.isSome_taken?_iff.2 ⟨Option.isSome_iff_exists.2 ⟨alternatives, halternatives⟩, hyes⟩
    obtain ⟨event, hevent⟩ := Option.isSome_iff_exists.1 hsome
    obtain ⟨_, _, i, alternative, hsame, htakes, rfl⟩ := Validator.taken?_eq_some_iff.1 hevent
    have hunion : alternatives = _ := Option.some.inj (halternatives.symm.trans hsame)
    subst hunion
    have hclear : vd.obstacle? (.root v d) = none := Validator.obstacle?_eq_none_of_ok hyes
    rw [hyes, Validator.evaluations_eq, hclear, List.filterMap_append, List.filterMap_cons, hevent] at hevents
    exact ⟨_, i, alternative, htakes, hevents.trans (List.append_nil _)⟩

/-! ### A union in a union -/

namespace Nested

/-- Null, or what is undefined or an object. -/
def store : Store := ⟨#[.row [.null, .node ⟨.union, 1⟩], .row [.undefined, .nominal .object]]⟩

/-- The outer union. -/
def outer : Definition := .node ⟨.union, 0⟩

/-- An empty object. -/
def heap : Heap := ⟨#[], #[[]], 0⟩

end Nested

/-- An object is taken by the second alternative of the inner union, which is the second alternative of the outer one. -/
theorem trace_law_nested :
    let vd : Validator := ⟨Nested.heap, Nested.store, none⟩
    (vd.validate (.object .object 0) Nested.outer).events =
        [.unionMatched 1 "nominal Object", .unionMatched 1 "union of 2"] ∧
      ∃ before i alternative, vd.Takes (.root (.object .object 0) Nested.outer) [.null, .node ⟨.union, 1⟩] i alternative ∧
        (vd.validate (.object .object 0) Nested.outer).events = before ++ [.unionMatched i (vd.label alternative)] := by
  intro vd
  have hyes : (vd.validate (.object .object 0) Nested.outer).result = .ok true := by cbv
  obtain ⟨_, _, _, _, hroot⟩ := trace_law vd (.object .object 0) Nested.outer
  exact ⟨by cbv, hroot [.null, .node ⟨.union, 1⟩] rfl hyes⟩

end Conform
