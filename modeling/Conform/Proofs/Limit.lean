import Conform.Proofs.Depth

/-!
# The limit of depth

A run with a limit goes as the run without one does, up to the first call that would look at its value on a level below the
limit. If there is no such call, both runs have the same outcome (`Validator.answer_eq_of_shallow`). If there is one, the run
with the limit logs a beginning of the events of the other run, then the defect, and ends with it
(`Validator.cutShort_of_deep`). What decides is how deep the calls stand that get past the guard against cycles
(`limit_eq_or_cutShort`).
-/

namespace Conform

/-- An outcome stops short of another one: it logs a beginning of the events, then one event of its own, and ends with a
defect. -/
def Outcome.CutShort (e : Event) (defect : Defect) (o o' : Outcome Bool) : Prop :=
  ∃ before, before <+: o.events ∧ o' = ⟨before ++ [e], .error defect⟩

namespace Inquiry

variable {κ : Type} {ask ask' : κ → Outcome Bool} {label : κ → String}

/-- A run begins with the events of its first question. -/
theorem events_prefix_runFrom_cons (decisive : Bool) (index : Nat) (k : κ) (rest : List κ) :
    (ask k).events <+: (runFrom ask label decisive index (k :: rest)).events := by
  rcases result_cases decisive (ask k) with hd | ho | ⟨defect, he⟩
  · rw [runFrom_cons_of_decisive hd]
    exact List.prefix_append _ _
  · rw [runFrom_cons_of_other ho]
    exact List.prefix_append _ _
  · rw [runFrom_cons_of_error he]

/-- A run whose questions are answered as before or stop short, one of those that are put among the latter, stops short. -/
theorem cutShort_run {e : Event} {defect : Defect} {q : Inquiry κ}
    (h : ∀ k, q.Puts ask k → ask' k = ask k ∨ (ask k).CutShort e defect (ask' k))
    (hcut : ∃ k, q.Puts ask k ∧ (ask k).CutShort e defect (ask' k)) :
    (q.run ask label).CutShort e defect (q.run ask' label) := by
  obtain ⟨decisive, questions⟩ := q
  have key : ∀ (l : List κ) (index : Nat),
      (∀ k, (mk decisive l).Puts ask k → ask' k = ask k ∨ (ask k).CutShort e defect (ask' k)) →
      (∃ k, (mk decisive l).Puts ask k ∧ (ask k).CutShort e defect (ask' k)) →
      (runFrom ask label decisive index l).CutShort e defect (runFrom ask' label decisive index l) := by
    intro l
    induction l with
    | nil =>
      rintro index _ ⟨k, hputs, _⟩
      exact absurd hputs.mem List.not_mem_nil
    | cons k rest ih =>
      intro index hl hcut
      by_cases hk : (ask k).CutShort e defect (ask' k)
      · obtain ⟨before, hbefore, hk⟩ := hk
        have herror : (ask' k).result = .error defect := by rw [hk]
        refine ⟨before, hbefore.trans (events_prefix_runFrom_cons decisive index k rest), ?_⟩
        rw [runFrom_cons_of_error herror, hk]
      · -- The first question is answered as before, so the one that stops short is put after it.
        have hsame : ask' k = ask k := (hl k (puts_cons.2 (Or.inl rfl))).resolve_right hk
        obtain ⟨k', hputs, hk'⟩ := hcut
        rcases puts_cons.1 hputs with rfl | ⟨hother, hputs⟩
        · exact absurd hk' hk
        · have hrest : ∀ p, (mk decisive rest).Puts ask p → ask' p = ask p ∨ (ask p).CutShort e defect (ask' p) :=
            fun p hp => hl p (puts_cons.2 (Or.inr ⟨hother, hp⟩))
          obtain ⟨before, hbefore, hrun⟩ := ih (index + 1) hrest ⟨k', hputs, hk'⟩
          rw [runFrom_cons_of_other hother, runFrom_cons_of_other (hsame ▸ hother), hrun, hsame]
          exact ⟨(ask k).events ++ before, (List.prefix_append_right_inj _).2 hbefore, by rw [List.append_assoc]⟩
  exact key questions 0 h hcut

end Inquiry

namespace Validator

variable {vd : Validator}

/-- The validator with another limit. -/
def withLimit (vd : Validator) (limit : Option Nat) : Validator := { vd with limit := limit }

/-- Whether a call that is made when another one is gets past its obstacles and looks at its value. -/
def Enters (vd : Validator) (c c' : Call) : Prop := vd.Reached c c' ∧ vd.obstacle? c' = none

/-- A call without an obstacle is entered. -/
theorem enters_self {c : Call} (h : vd.obstacle? c = none) : vd.Enters c c := ⟨Relation.ReflTransGen.refl, h⟩

/-- What a call enters, so does the call that opens it. -/
theorem Enters.head {c c' c'' : Call} (hopens : vd.Opens c c') (h : vd.Enters c' c'') : vd.Enters c c'' :=
  ⟨Relation.ReflTransGen.head hopens h.1, h.2⟩

/-- What a call enters is the call itself or entered by a call that it opens, and there is no obstacle to the call. -/
theorem Enters.cases_head {c c' : Call} (h : vd.Enters c c') :
    vd.obstacle? c = none ∧ (c = c' ∨ ∃ next, vd.Opens c next ∧ vd.Enters next c') := by
  obtain ⟨hreached, hclear⟩ := h
  rcases Relation.ReflTransGen.cases_head hreached with rfl | ⟨next, hopens, hrest⟩
  · exact ⟨hclear, Or.inl rfl⟩
  · exact ⟨hopens.1, Or.inr ⟨next, hopens, hrest, hclear⟩⟩

/-! ### Two limits -/

/-- What is an obstacle without a limit is one with a limit: cycles are looked for first. -/
theorem obstacle?_withLimit_of_some {c : Call} {defect : Defect} (limit : Option Nat)
    (h : (vd.withLimit none).obstacle? c = some defect) : (vd.withLimit limit).obstacle? c = some defect := by
  simp only [obstacle?, withLimit, defect?] at h ⊢
  split at h
  · rename_i hcircular
    rw [if_pos hcircular]
    exact h
  · simp at h

/-- Where there is no obstacle without a limit, the limit is one when the call stands below it. -/
theorem obstacle?_withLimit_of_none {c : Call} (n : Nat) (h : (vd.withLimit none).obstacle? c = none) :
    (vd.withLimit (some n)).obstacle? c = if n < c.depth then some (.tooDeep n) else none := by
  simp only [obstacle?, withLimit, defect?] at h ⊢
  split at h
  · simp at h
  · rename_i hcircular
    rw [if_neg hcircular]
    rfl

/-- A limit that no entered call stands below changes nothing. -/
theorem answer_eq_of_shallow {n : Nat} (c : Call) (h : ∀ c', (vd.withLimit none).Enters c c' → c'.depth ≤ n) :
    (vd.withLimit (some n)).answer c = (vd.withLimit none).answer c := by
  induction c using (vd.withLimit none).call_induction with
  | step c ih =>
    cases hobstacle : (vd.withLimit none).obstacle? c with
    | some defect =>
      rw [answer_of_obstacle?_eq_some hobstacle, answer_of_obstacle?_eq_some (obstacle?_withLimit_of_some _ hobstacle)]
    | none =>
      have hdepth : ¬n < c.depth := Nat.not_lt.2 (h c (enters_self hobstacle))
      have hclear : (vd.withLimit (some n)).obstacle? c = none := by
        rw [obstacle?_withLimit_of_none n hobstacle, if_neg hdepth]
      rw [answer_of_obstacle?_eq_none hobstacle, answer_of_obstacle?_eq_none hclear]
      refine Inquiry.run_eq_of_puts fun q hputs => ?_
      have hopens : (vd.withLimit none).Opens c (c.below q) := ⟨hobstacle, q, hputs, rfl⟩
      exact ih (c.below q) hopens.canOpen fun c' hc' => h c' (hc'.head hopens)

/-- A limit that an entered call stands below stops the run short, one level below the limit. -/
theorem cutShort_of_deep {n : Nat} (c : Call) (hdepth : c.depth ≤ n + 1)
    (h : ∃ c', (vd.withLimit none).Enters c c' ∧ n < c'.depth) :
    ((vd.withLimit none).answer c).CutShort (.tooDeep (n + 1) n) (.tooDeep n) ((vd.withLimit (some n)).answer c) := by
  induction c using (vd.withLimit none).call_induction with
  | step c ih =>
    obtain ⟨c', hc', hdeep⟩ := h
    obtain ⟨hobstacle, hcases⟩ := hc'.cases_head
    by_cases hlimit : n < c.depth
    · -- The call is the first one below the limit.
      have hlevel : c.depth = n + 1 := by omega
      have htooDeep : (vd.withLimit (some n)).obstacle? c = some (.tooDeep n) := by
        rw [obstacle?_withLimit_of_none n hobstacle, if_pos hlimit]
      refine ⟨[], List.nil_prefix, ?_⟩
      rw [answer_of_obstacle?_eq_some htooDeep, hlevel]
      rfl
    · have hclear : (vd.withLimit (some n)).obstacle? c = none := by
        rw [obstacle?_withLimit_of_none n hobstacle, if_neg hlimit]
      have hbelow : ∀ q, (c.below q).depth ≤ n + 1 := fun q => by
        rw [Call.depth_below]
        omega
      rw [answer_of_obstacle?_eq_none hobstacle, answer_of_obstacle?_eq_none hclear]
      refine Inquiry.cutShort_run (fun q hputs => ?_) ?_
      · have hopens : (vd.withLimit none).Opens c (c.below q) := ⟨hobstacle, q, hputs, rfl⟩
        by_cases hq : ∃ c', (vd.withLimit none).Enters (c.below q) c' ∧ n < c'.depth
        · exact Or.inr (ih (c.below q) hopens.canOpen (hbelow q) hq)
        · exact Or.inl (answer_eq_of_shallow (c.below q) fun c' hc' => Nat.not_lt.1 fun hlt => hq ⟨c', hc', hlt⟩)
      · -- The entered call below the limit is not this one, so one of the questions leads to it.
        obtain ⟨next, hopens, hnext⟩ := hcases.resolve_left fun hsame => hlimit (hsame ▸ hdeep)
        obtain ⟨q, hputs, rfl⟩ := hopens.2
        exact ⟨q, hputs, ih (c.below q) hopens.canOpen (hbelow q) ⟨c', hnext, hdeep⟩⟩

/-! ### The deepest level entered -/

/-- The levels on which the calls stand that a run without a limit enters. -/
def enteredDepths (vd : Validator) (v : Value) (d : Definition) : Set Nat :=
  {depth | ∃ c, (vd.withLimit none).Enters (.root v d) c ∧ c.depth = depth}

/-- There is nothing in the way of the first call, unless it is a limit. -/
theorem obstacle?_root (vd : Validator) (v : Value) (d : Definition) : (vd.withLimit none).obstacle? (.root v d) = none := by
  simp [obstacle?, withLimit, defect?, Call.root]

/-- One of the levels on which calls are entered is the deepest one. -/
theorem exists_isGreatest_enteredDepths (vd : Validator) (v : Value) (d : Definition) :
    ∃ deepest, IsGreatest (vd.enteredDepths v d) deepest := by
  have hfinite : (vd.enteredDepths v d).Finite := by
    refine (((vd.withLimit none).finite_reached (.root v d)).image Call.depth).subset ?_
    rintro depth ⟨c, hc, rfl⟩
    exact ⟨c, hc.1, rfl⟩
  have hroot : 0 ∈ vd.enteredDepths v d := ⟨.root v d, enters_self (obstacle?_root vd v d), rfl⟩
  obtain ⟨deepest, hmem, hmax⟩ := hfinite.exists_maximal ⟨0, hroot⟩
  exact ⟨deepest, hmem, fun depth hdepth => le_of_not_gt fun hlt => absurd (hmax hdepth hlt.le) (not_le_of_gt hlt)⟩

/-- Without a limit no run ends with the defect that a level is below the limit. -/
theorem result_ne_tooDeep (vd : Validator) (v : Value) (d : Definition) (n : Nat) :
    ((vd.withLimit none).validate v d).result ≠ .error (.tooDeep n) := by
  intro herror
  obtain ⟨_, _, hlimit, _⟩ := exists_reached_of_tooDeep (c := .root v d) herror
  simp [withLimit] at hlimit

end Validator

/-- What a limit of depth does to a run, in four parts.
1. The run with a limit has the outcome of the run without one, or it logs a beginning of the same events, then that a level is
   one below the limit, and ends with that defect.
2. It has the same outcome exactly when the deepest level that the run without a limit enters is not below the limit.
3. When a limit changes nothing, no larger limit does.
4. A limit never turns an answer into the other one. -/
theorem limit_eq_or_cutShort (vd : Validator) (v : Value) (d : Definition) :
    (∀ n, (vd.withLimit (some n)).validate v d = (vd.withLimit none).validate v d ∨
      ((vd.withLimit none).validate v d).CutShort (.tooDeep (n + 1) n) (.tooDeep n)
        ((vd.withLimit (some n)).validate v d)) ∧
    (∃ deepest, IsGreatest (vd.enteredDepths v d) deepest ∧
      ∀ n, (vd.withLimit (some n)).validate v d = (vd.withLimit none).validate v d ↔ deepest ≤ n) ∧
    (∀ n m, n ≤ m → (vd.withLimit (some n)).validate v d = (vd.withLimit none).validate v d →
      (vd.withLimit (some m)).validate v d = (vd.withLimit none).validate v d) ∧
    (∀ n b b', ((vd.withLimit (some n)).validate v d).result = .ok b → ((vd.withLimit none).validate v d).result = .ok b' →
      b = b') := by
  obtain ⟨deepest, hdeepest⟩ := vd.exists_isGreatest_enteredDepths v d
  have hshallow : ∀ n, deepest ≤ n → (vd.withLimit (some n)).validate v d = (vd.withLimit none).validate v d :=
    fun n hn => Validator.answer_eq_of_shallow (.root v d) fun c hc => (hdeepest.2 ⟨c, hc, rfl⟩).trans hn
  have hdeep : ∀ n, n < deepest → ((vd.withLimit none).validate v d).CutShort (.tooDeep (n + 1) n) (.tooDeep n)
      ((vd.withLimit (some n)).validate v d) := by
    intro n hn
    obtain ⟨c, hc, hdepth⟩ := hdeepest.1
    exact Validator.cutShort_of_deep (.root v d) (Nat.zero_le _) ⟨c, hc, hdepth ▸ hn⟩
  have hiff : ∀ n, (vd.withLimit (some n)).validate v d = (vd.withLimit none).validate v d ↔ deepest ≤ n := by
    refine fun n => ⟨fun hsame => Nat.not_lt.1 fun hn => ?_, hshallow n⟩
    obtain ⟨before, _, hcut⟩ := hdeep n hn
    exact vd.result_ne_tooDeep v d n (congrArg Outcome.result (hsame.symm.trans hcut))
  have heither := fun n => (Nat.lt_or_ge n deepest).symm.imp (hshallow n) (hdeep n)
  refine ⟨heither, ⟨deepest, hdeepest, hiff⟩, fun n m hnm hn => (hiff m).2 (((hiff n).1 hn).trans hnm), ?_⟩
  intro n b b' hb hb'
  rcases heither n with hsame | ⟨before, _, hcut⟩
  · rw [hsame] at hb
    exact Except.ok.inj (hb.symm.trans hb')
  · rw [hcut] at hb
    exact absurd hb nofun

/-- The second object of the linked list leads into a cycle two levels down, and every limit of two or more levels leaves it at
that. A limit of two levels lets the first object through, so whatever a run without a limit answers is the same. -/
theorem limit_eq_or_cutShort_linkedList :
    let vd : Validator := ⟨LinkedList.heap, LinkedList.store, none⟩
    (∀ n, 2 ≤ n → (vd.withLimit (some n)).validate (.object .object 1) (.node LinkedList.cell) =
      ⟨[.circular "shape \x7bnext\x7d" 2], .error (.circular "shape \x7bnext\x7d" 2)⟩) ∧
    ((vd.withLimit (some 2)).validate (.object .object 0) (.node LinkedList.cell)).result = .ok true ∧
    ∀ b, ((vd.withLimit none).validate (.object .object 0) (.node LinkedList.cell)).result = .ok b → true = b := by
  intro vd
  have hfree : (vd.withLimit none).validate (.object .object 1) (.node LinkedList.cell) =
      ⟨[.circular "shape \x7bnext\x7d" 2], .error (.circular "shape \x7bnext\x7d" 2)⟩ := by cbv
  have htwo : (vd.withLimit (some 2)).validate (.object .object 1) (.node LinkedList.cell) =
      (vd.withLimit none).validate (.object .object 1) (.node LinkedList.cell) := by cbv
  have hlimited : ((vd.withLimit (some 2)).validate (.object .object 0) (.node LinkedList.cell)).result = .ok true := by cbv
  obtain ⟨_, _, hlarger, _⟩ := limit_eq_or_cutShort vd (.object .object 1) (.node LinkedList.cell)
  obtain ⟨_, _, _, hanswer⟩ := limit_eq_or_cutShort vd (.object .object 0) (.node LinkedList.cell)
  exact ⟨fun n hn => (hlarger 2 n hn htwo).trans hfree, hlimited, fun b => hanswer 2 true b hlimited⟩

end Conform
