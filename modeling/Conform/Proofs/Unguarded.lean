import Conform.Proofs.Depth

/-!
# The judge without guards

`unguarded` judges as `Validator.judge` does, but it looks neither for ancestors nor for a limit, so that on a cyclic graph it
may go on for ever; fuel ends it. Whenever a run comes to an answer, the judge without guards comes to the same answer with the
same events, provided it has fuel for as many levels as a run can have (`unguarded_eq_of_ok`). So guards only ever replace an
answer by an error.
-/

namespace Conform

/-- Judges a value by a subject without looking for a defect, and gives up when the fuel for another level is missing. -/
def unguarded (heap : Heap) (store : Store) (exhausted : Outcome Bool) : Nat → Value → Subject → Outcome Bool
  | 0, _, _ => exhausted
  | fuel + 1, v, .expansion n => n.judge heap (fun w e => unguarded heap store exhausted fuel w (.definition e)) store.describe v
  | fuel + 1, v, .definition d =>
    match d with
    | .null => Outcome.answer v.isNull
    | .undefined => Outcome.answer v.isUndefined
    | .nominal cls => Outcome.answer (v.isNonPrimitive && v.instanceOf cls)
    | .other _ => Outcome.answer false
    | .node ref =>
      (store.node ref).judge heap (fun w e => unguarded heap store exhausted fuel w (.definition e)) store.describe v
    | .token text =>
      match TypeToken.parse? text with
      | none => Outcome.answer false
      | some t =>
        match t.expansion? with
        | none => Outcome.answer (t.admits v)
        | some n => unguarded heap store exhausted fuel v (.expansion n)

/-- Without guards, one level runs the inquiry that the subject comes to. -/
theorem unguarded_succ (heap : Heap) (store : Store) (exhausted : Outcome Bool) (fuel : Nat) (v : Value) (s : Subject) :
    unguarded heap store exhausted (fuel + 1) v s =
      (s.inquiry heap store v).run (fun q => unguarded heap store exhausted fuel q.1 q.2) fun q => q.2.label store := by
  rw [Subject.run_inquiry]
  cases s with
  | expansion n => rfl
  | definition d => cases d <;> rfl

/-- A call of a run that comes to an answer is answered without guards in the same way, given fuel for the levels that are left
below the deepest one a call can stand on. -/
theorem Validator.unguarded_eq_answer {vd : Validator} {v : Value} {d : Definition} (exhausted : Outcome Bool) (c : Call)
    (hreached : vd.Reached (.root v d) c) {b : Bool} (hb : (vd.answer c).result = .ok b) {fuel : Nat}
    (hfuel : (vd.store.reachable d).ncard + 5 ≤ c.depth + fuel) :
    unguarded vd.heap vd.store exhausted fuel c.value c.subject = vd.answer c := by
  -- A call with an obstacle has no answer, so a call that has one runs its inquiry, and every question that is put opens a call
  -- one level below, for which one unit of fuel less is needed.
  induction c using vd.call_induction generalizing b fuel with
  | step c ih =>
    have hdepth := depth_le_of_reached hreached
    obtain ⟨fuel, rfl⟩ : ∃ rest, fuel = rest + 1 := Nat.exists_eq_succ_of_ne_zero (by omega)
    have hclear := obstacle?_eq_none_of_ok hb
    rw [answer_of_obstacle?_eq_none hclear] at hb ⊢
    rw [unguarded_succ]
    refine Inquiry.run_eq_of_puts fun q hputs => ?_
    have hopens : vd.Opens c (c.below q) := ⟨hclear, q, hputs, rfl⟩
    obtain ⟨b', hb'⟩ := hputs.exists_ok hb
    refine ih (c.below q) hopens.canOpen (hreached.tail hopens) hb' ?_
    rw [Call.depth_below]
    omega

/-- Guards never change an answer, in two parts.
1. When a run comes to an answer, the judge without guards comes to the same answer with the same events, whatever it would have
   come to for want of fuel, as soon as the fuel is five more than the number of nodes that the root reaches.
2. Whatever the judge without guards comes to with enough fuel, a run comes to the same or ends with an error. -/
theorem unguarded_eq_of_ok (vd : Validator) (v : Value) (d : Definition) :
    (∀ events b, vd.validate v d = ⟨events, .ok b⟩ → ∀ exhausted fuel, (vd.store.reachable d).ncard + 5 ≤ fuel →
      unguarded vd.heap vd.store exhausted fuel v (.definition d) = ⟨events, .ok b⟩) ∧
    (∀ exhausted o n, (∀ fuel, n ≤ fuel → unguarded vd.heap vd.store exhausted fuel v (.definition d) = o) →
      vd.validate v d = o ∨ ∃ defect, (vd.validate v d).result = .error defect) := by
  have hagree : ∀ b, (vd.validate v d).result = .ok b → ∀ exhausted fuel, (vd.store.reachable d).ncard + 5 ≤ fuel →
      unguarded vd.heap vd.store exhausted fuel v (.definition d) = vd.validate v d := by
    intro b hb exhausted fuel hfuel
    refine Validator.unguarded_eq_answer exhausted (.root v d) Relation.ReflTransGen.refl hb ?_
    exact hfuel.trans (Nat.le_add_left fuel _)
  constructor
  · intro events b hrun exhausted fuel hfuel
    rw [← hrun]
    exact hagree b (congrArg Outcome.result hrun) exhausted fuel hfuel
  · intro exhausted o n ho
    cases hresult : (vd.validate v d).result with
    | error defect => exact Or.inr ⟨defect, rfl⟩
    | ok b =>
      have hrun := hagree b hresult exhausted (max n ((vd.store.reachable d).ncard + 5)) (Nat.le_max_right _ _)
      exact Or.inl (hrun.symm.trans (ho _ (Nat.le_max_left _ _)))

/-- The first object of the linked list is judged alike with a guard and without one, though the definition reaches itself. -/
theorem unguarded_eq_of_ok_linkedList :
    ∀ exhausted, unguarded LinkedList.heap LinkedList.store exhausted 7 (.object .object 0) (.definition (.node LinkedList.cell)) =
      ⟨[.unionMatched 0 "null"], .ok true⟩ := by
  have hrun : Validator.validate ⟨LinkedList.heap, LinkedList.store, none⟩ (.object .object 0) (.node LinkedList.cell) =
      ⟨[.unionMatched 0 "null"], .ok true⟩ := by cbv
  intro exhausted
  refine (unguarded_eq_of_ok _ _ _).1 _ _ hrun exhausted 7 ?_
  show (LinkedList.store.reachable (.node LinkedList.cell)).ncard + 5 ≤ 7
  rw [LinkedList.reachable_eq, Set.ncard_pair (by decide)]

end Conform
