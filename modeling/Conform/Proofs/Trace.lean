import Conform.Proofs.Call

/-!
# What a run logs

A run logs that unions took alternatives and nothing else, until it ends with a defect, which it logs last
(`Validator.traced_answer`). The event says what the defect says; a limit is always exceeded on the level right below it.
-/

namespace Conform

/-- Whether an event says that a union took an alternative; any other event says that a defect was met. -/
def Event.isMatch : Event → Bool
  | .unionMatched _ _ => true
  | _ => false

/-- The event that a run logs when it ends with a defect. -/
def Defect.last : Defect → Event
  | .circular node depth => .circular node depth
  | .tooDeep limit => .tooDeep (limit + 1) limit

/-- What is logged when a run has come to a result: nothing after an answer, and a defect. -/
def Outcome.closing : Except Defect Bool → List Event
  | .ok _ => []
  | .error defect => [defect.last]

/-- An outcome logs alternatives taken, and at the end the defect if there is one. -/
def Outcome.Traced (o : Outcome Bool) : Prop :=
  ∃ taken, (∀ e ∈ taken, e.isMatch = true) ∧ o.events = taken ++ closing o.result

/-- What logs alternatives taken and ends with a defect logs the defect last. -/
theorem Outcome.Traced.eq_of_error {o : Outcome Bool} {defect : Defect} (h : o.Traced) (herror : o.result = .error defect) :
    ∃ taken, (∀ e ∈ taken, e.isMatch = true) ∧ o = ⟨taken ++ [defect.last], .error defect⟩ := by
  obtain ⟨taken, htaken, hevents⟩ := h
  obtain ⟨events, result⟩ := o
  simp only at herror hevents
  subst herror hevents
  exact ⟨taken, htaken, rfl⟩

/-- What logs alternatives taken and ends with an answer logs nothing else. -/
theorem Outcome.Traced.eq_of_ok {o : Outcome Bool} {b : Bool} (h : o.Traced) (hok : o.result = .ok b) :
    ∃ taken, (∀ e ∈ taken, e.isMatch = true) ∧ o = ⟨taken, .ok b⟩ := by
  obtain ⟨taken, htaken, hevents⟩ := h
  obtain ⟨events, result⟩ := o
  simp only at hok hevents
  subst hok hevents
  exact ⟨taken, htaken, congrArg (Outcome.mk · _) (List.append_nil taken)⟩

/-- A run logs alternatives taken and a defect at the end when its questions do. -/
theorem Inquiry.traced_run {κ : Type} {ask : κ → Outcome Bool} {label : κ → String} {q : Inquiry κ}
    (h : ∀ k, q.Puts ask k → (ask k).Traced) : (q.run ask label).Traced := by
  obtain ⟨decisive, questions⟩ := q
  have key : ∀ (l : List κ) (index : Nat), (∀ k, (mk decisive l).Puts ask k → (ask k).Traced) →
      (runFrom ask label decisive index l).Traced := by
    intro l
    induction l with
    | nil => exact fun index _ => ⟨[], nofun, rfl⟩
    | cons k rest ih =>
      intro index hl
      obtain ⟨taken, htaken, hevents⟩ := hl k (puts_cons.2 (Or.inl rfl))
      rcases result_cases decisive (ask k) with hd | ho | ⟨defect, he⟩
      · rw [runFrom_cons_of_decisive hd, hevents, hd]
        refine ⟨taken ++ note label decisive index k, fun e he => ?_, by simp [Outcome.closing]⟩
        rcases List.mem_append.1 he with he | he
        · exact htaken e he
        · cases decisive <;> simp_all [note, Event.isMatch]
      · obtain ⟨more, hmore, hrest⟩ := ih (index + 1) fun p hp => hl p (puts_cons.2 (Or.inr ⟨ho, hp⟩))
        rw [runFrom_cons_of_other ho, hevents, ho, hrest]
        refine ⟨taken ++ more, fun e he => ?_, by simp [Outcome.closing]⟩
        exact (List.mem_append.1 he).elim (htaken e) (hmore e)
      · rw [runFrom_cons_of_error he, hevents, he]
        exact ⟨taken, htaken, rfl⟩
  exact key questions 0 h

/-- A call that meets an obstacle logs the defect alone, unless it stands more than one level below the limit. -/
theorem Validator.events_of_obstacle?_eq_some {vd : Validator} {c : Call} {defect : Defect}
    (hobstacle : vd.obstacle? c = some defect) (hdepth : ∀ n, vd.limit = some n → c.depth ≤ n + 1) :
    (vd.answer c).events = Outcome.closing (vd.answer c).result := by
  rw [answer_of_obstacle?_eq_some hobstacle]
  rcases obstacle?_cases hobstacle with ⟨_, _, _, rfl⟩ | ⟨n, hn, hdeep, rfl⟩
  · rfl
  · have hlevel : c.depth = n + 1 := Nat.le_antisymm (hdepth n hn) hdeep
    simp [Outcome.stop, Outcome.closing, Defect.event, Defect.last, hlevel]

/-- A call logs alternatives taken and a defect at the end, unless it stands more than one level below the limit. -/
theorem Validator.traced_answer {vd : Validator} (c : Call) (hdepth : ∀ n, vd.limit = some n → c.depth ≤ n + 1) :
    (vd.answer c).Traced := by
  induction c using vd.call_induction with
  | step c ih =>
    cases hobstacle : vd.obstacle? c with
    | some defect =>
      exact ⟨[], nofun, events_of_obstacle?_eq_some hobstacle hdepth⟩
    | none =>
      rw [answer_of_obstacle?_eq_none hobstacle]
      have hclear := (obstacle?_eq_none_iff.1 hobstacle).2
      exact Inquiry.traced_run fun q hputs =>
        ih (c.below q) ⟨hobstacle, q, hputs.mem, rfl⟩ fun n hn => Nat.succ_le_succ (hclear n hn)

end Conform
