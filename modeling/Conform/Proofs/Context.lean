import Conform.Proofs.Limit
import Conform.Proofs.Position
import Conform.Proofs.Trace

/-!
# The path above a call

How a call is answered depends on the path above it in two ways only: an ancestor on it may turn the answer into a defect, and
it takes levels away from the limit. So a call that comes to an answer comes to it wherever it stands
(`Validator.answer_of_append`), and where no ancestor is in the way, a call logs and answers as it does alone, with every level
raised by the length of the path (`Validator.answer_append`). `context_independent` puts both together for the calls of a run.
-/

namespace Conform

/-! ### Raising the levels -/

/-- The event as it is logged some levels further down. -/
def Event.raise (levels : Nat) : Event → Event
  | .unionMatched index alternative => .unionMatched index alternative
  | .circular node depth => .circular node (depth + levels)
  | .tooDeep depth limit => .tooDeep (depth + levels) (limit + levels)

/-- The defect as it is met some levels further down. -/
def Defect.raise (levels : Nat) : Defect → Defect
  | .circular node depth => .circular node (depth + levels)
  | .tooDeep limit => .tooDeep (limit + levels)

/-- The outcome as a run has it some levels further down. -/
def Outcome.raise (levels : Nat) (o : Outcome Bool) : Outcome Bool :=
  ⟨o.events.map (Event.raise levels), o.result.mapError (Defect.raise levels)⟩

/-- That unions took alternatives is logged alike on every level. -/
theorem map_raise_of_isMatch {levels : Nat} {events : List Event} (h : ∀ e ∈ events, e.isMatch = true) :
    events.map (Event.raise levels) = events := by
  have hsame : ∀ e ∈ events, Event.raise levels e = e := by
    intro e he
    have := h e he
    cases e <;> simp_all [Event.isMatch, Event.raise]
  rw [List.map_congr_left hsame, List.map_id']

/-- A defect met further down is logged as the event further down. -/
theorem stop_raise (levels depth : Nat) (defect : Defect) :
    (Outcome.stop depth defect : Outcome Bool).raise levels = Outcome.stop (depth + levels) (defect.raise levels) := by
  cases defect <;> rfl

/-- A limit exceeded further down is one exceeded as many levels further up. -/
theorem raise_result_eq_tooDeep_iff {levels n : Nat} {o : Outcome Bool} :
    (o.raise levels).result = .error (.tooDeep n) ↔ ∃ m, m + levels = n ∧ o.result = .error (.tooDeep m) := by
  obtain ⟨events, (_ | m) | b⟩ := o <;> simp [Outcome.raise, Except.mapError, Defect.raise]

/-- A run whose questions are answered as further down goes as it does further down. -/
theorem Inquiry.run_eq_raise {κ : Type} {ask ask' : κ → Outcome Bool} {label : κ → String} {levels : Nat} {q : Inquiry κ}
    (h : ∀ k ∈ q.questions, ask' k = (ask k).raise levels) : q.run ask' label = (q.run ask label).raise levels := by
  obtain ⟨decisive, questions⟩ := q
  have key : ∀ (l : List κ) (index : Nat), (∀ k ∈ l, ask' k = (ask k).raise levels) →
      runFrom ask' label decisive index l = (runFrom ask label decisive index l).raise levels := by
    intro l
    induction l with
    | nil => exact fun _ _ => rfl
    | cons k rest ih =>
      intro index hl
      obtain ⟨hk, hrest⟩ := List.forall_mem_cons.1 hl
      rcases result_cases decisive (ask k) with hd | ho | ⟨defect, he⟩
      · have hd' : (ask' k).result = .ok decisive := by simp [hk, Outcome.raise, hd, Except.mapError]
        rw [runFrom_cons_of_decisive hd, runFrom_cons_of_decisive hd', hk]
        cases decisive <;> simp [Outcome.raise, note, Event.raise, Except.mapError]
      · have ho' : (ask' k).result = .ok !decisive := by simp [hk, Outcome.raise, ho, Except.mapError]
        rw [runFrom_cons_of_other ho, runFrom_cons_of_other ho', ih _ hrest, hk]
        simp [Outcome.raise]
      · have he' : (ask' k).result = .error (defect.raise levels) := by simp [hk, Outcome.raise, he, Except.mapError]
        rw [runFrom_cons_of_error he, runFrom_cons_of_error he', hk]
        simp [Outcome.raise, Except.mapError]
  exact key questions 0 h

namespace Validator

variable {vd : Validator}

/-- The validator with the limit that is left some levels further down. -/
def lower (vd : Validator) (levels : Nat) : Validator := vd.withLimit (vd.limit.map (· - levels))

/-! ### A longer path -/

/-- There is no obstacle to a call below a part of its path when there is none below the path. -/
theorem obstacle?_eq_none_of_append {inner outer : Path} {v : Value} {s : Subject}
    (h : vd.obstacle? ⟨inner ++ outer, v, s⟩ = none) : (vd.lower outer.length).obstacle? ⟨inner, v, s⟩ = none := by
  obtain ⟨hpath, hlimit⟩ := obstacle?_eq_none_iff.1 h
  refine obstacle?_eq_none_iff.2 ⟨fun a ha hmem => hpath a ha (List.mem_append_left outer hmem), fun n hn => ?_⟩
  simp only [lower, withLimit, Option.map_eq_some_iff] at hn
  obtain ⟨m, hm, rfl⟩ := hn
  have hdepth := hlimit m hm
  simp only [Call.depth, List.length_append] at hdepth ⊢
  omega

/-- A call that comes to an answer logs and answers the same below a part of its path, with the limit that is left. -/
theorem answer_of_append {outer : Path} (c : Call) {inner : Path} (hc : c.path = inner ++ outer) {b : Bool}
    (hb : (vd.answer c).result = .ok b) : (vd.lower outer.length).answer ⟨inner, c.value, c.subject⟩ = vd.answer c := by
  induction c using vd.call_induction generalizing inner b with
  | step c ih =>
    obtain ⟨path, v, s⟩ := c
    simp only at hc
    subst hc
    have hclear := obstacle?_eq_none_of_ok hb
    rw [answer_of_obstacle?_eq_none hclear] at hb ⊢
    rw [answer_of_obstacle?_eq_none (obstacle?_eq_none_of_append hclear)]
    refine Inquiry.run_eq_of_puts fun q hputs => ?_
    obtain ⟨b', hb'⟩ := hputs.exists_ok hb
    exact ih (Call.below ⟨inner ++ outer, v, s⟩ q) ⟨hclear, q, hputs.mem, rfl⟩ List.cons_append hb'

/-- What is an obstacle to a call further down is the same obstacle, raised, unless an ancestor further up is one. -/
theorem obstacle?_append {inner outer : Path} {v : Value} {s : Subject} (hlimit : ∀ n, vd.limit = some n → outer.length ≤ n)
    (houter : ∀ a, s.identity = some a → some a ∉ outer) :
    vd.obstacle? ⟨inner ++ outer, v, s⟩ =
      ((vd.lower outer.length).obstacle? ⟨inner, v, s⟩).map (Defect.raise outer.length) := by
  have hmem : (s.identity.isSome ∧ s.identity ∈ inner ++ outer) ↔ (s.identity.isSome ∧ s.identity ∈ inner) := by
    refine and_congr_right fun hsome => ?_
    obtain ⟨a, ha⟩ := Option.isSome_iff_exists.1 hsome
    simp [ha, houter a ha]
  simp only [obstacle?, defect?, hmem]
  split
  · simp [Defect.raise, lower, withLimit]
  · cases hn : vd.limit with
    | none => simp [lower, withLimit, hn]
    | some n =>
      have hle := hlimit n hn
      have hiff : n < inner.length + outer.length ↔ n - outer.length < inner.length := by omega
      simp only [lower, withLimit, hn, Option.map_some, List.length_append, hiff]
      split <;> simp [Defect.raise, Nat.sub_add_cancel hle]

/-- Where no ancestor further up is in the way, a call logs and answers as it does alone with the limit that is left, only
further down. What keeps ancestors out of the way is a property that calls hand on to the calls they can open. -/
theorem answer_append {outer : Path} {P : Call → Prop} (hlimit : ∀ n, vd.limit = some n → outer.length ≤ n)
    (hstep : ∀ c c', P c → vd.CanOpen c c' → P c')
    (houter : ∀ inner v s, P ⟨inner ++ outer, v, s⟩ → ∀ a, s.identity = some a → some a ∉ outer) (c : Call) (hP : P c)
    {inner : Path} (hc : c.path = inner ++ outer) :
    vd.answer c = ((vd.lower outer.length).answer ⟨inner, c.value, c.subject⟩).raise outer.length := by
  induction c using vd.call_induction generalizing inner with
  | step c ih =>
    obtain ⟨path, v, s⟩ := c
    simp only at hc
    subst hc
    have hboth : vd.obstacle? ⟨inner ++ outer, v, s⟩ = _ := obstacle?_append hlimit (houter inner v s hP)
    cases hobstacle : (vd.lower outer.length).obstacle? ⟨inner, v, s⟩ with
    | some defect =>
      rw [hobstacle] at hboth
      rw [answer_of_obstacle?_eq_some hobstacle, answer_of_obstacle?_eq_some hboth, stop_raise]
      simp [Call.depth]
    | none =>
      rw [hobstacle] at hboth
      rw [answer_of_obstacle?_eq_none hobstacle, answer_of_obstacle?_eq_none hboth]
      refine Inquiry.run_eq_raise fun q hq => ?_
      have hopen : vd.CanOpen ⟨inner ++ outer, v, s⟩ (Call.below ⟨inner ++ outer, v, s⟩ q) := ⟨hboth, q, hq, rfl⟩
      exact ih _ hopen (hstep _ _ hP hopen) List.cons_append

/-! ### The calls of a run -/

/-- On an acyclic definition a call of a run logs and answers as a run of its own with the limit that is left, only further
down. -/
theorem answer_eq_raise_validate {v w : Value} {d e : Definition} {path : Path} (hacyclic : vd.store.AcyclicFrom d)
    (hreached : vd.Reached (.root v d) ⟨path, w, .definition e⟩) (hlimit : ∀ n, vd.limit = some n → path.length ≤ n) :
    vd.answer ⟨path, w, .definition e⟩ = ((vd.lower path.length).validate w e).raise path.length := by
  refine answer_append (P := fun c => Position vd.store d c.path c.subject) hlimit (fun c c' hc hopen => hopen.position hc) ?_
    ⟨path, w, .definition e⟩ (position_of_reached hreached) (List.nil_append path).symm
  intro inner w' s hposition a ha hmem
  exact hposition.notMem_of_acyclicFrom hacyclic ha (List.mem_append_right inner hmem)

end Validator

/-- The calls that a run makes against definitions, compared with runs of their own: the limit of these is what the call has
left. In two parts.
1. When a call comes to an answer, the run of its own has the same outcome, with the same events.
2. On an acyclic definition either both stop at their limit or neither does, and if they do, both have logged the same
   alternatives before. -/
theorem context_independent (vd : Validator) (v w : Value) (d e : Definition) (path : Path)
    (hreached : vd.Reached (.root v d) ⟨path, w, .definition e⟩) (hlimit : ∀ n, vd.limit = some n → path.length ≤ n) :
    (∀ b, (vd.answer ⟨path, w, .definition e⟩).result = .ok b →
      (vd.lower path.length).validate w e = vd.answer ⟨path, w, .definition e⟩) ∧
    (vd.store.AcyclicFrom d →
      ((∃ n, (vd.answer ⟨path, w, .definition e⟩).result = .error (.tooDeep n)) ↔
        ∃ n, ((vd.lower path.length).validate w e).result = .error (.tooDeep n)) ∧
      ∀ n, (vd.answer ⟨path, w, .definition e⟩).result = .error (.tooDeep n) →
        ∃ taken, (∀ event ∈ taken, event.isMatch = true) ∧
          vd.answer ⟨path, w, .definition e⟩ = ⟨taken ++ [.tooDeep (n + 1) n], .error (.tooDeep n)⟩ ∧
          (vd.lower path.length).validate w e =
            ⟨taken ++ [.tooDeep (n - path.length + 1) (n - path.length)], .error (.tooDeep (n - path.length))⟩) := by
  refine ⟨fun b hb => Validator.answer_of_append ⟨path, w, .definition e⟩ (List.nil_append path).symm hb, fun hacyclic => ?_⟩
  have hraise := Validator.answer_eq_raise_validate hacyclic hreached hlimit
  refine ⟨⟨fun ⟨n, hn⟩ => ?_, fun ⟨m, hm⟩ => ?_⟩, fun n hn => ?_⟩
  · obtain ⟨m, _, hm⟩ := raise_result_eq_tooDeep_iff.1 (hraise ▸ hn)
    exact ⟨m, hm⟩
  · exact ⟨m + path.length, hraise ▸ raise_result_eq_tooDeep_iff.2 ⟨m, rfl, hm⟩⟩
  · obtain ⟨m, rfl, hm⟩ := raise_result_eq_tooDeep_iff.1 (hraise ▸ hn)
    have htraced : ((vd.lower path.length).validate w e).Traced :=
      Validator.traced_answer (.root w e) fun _ _ => Nat.zero_le _
    obtain ⟨taken, htaken, halone⟩ := htraced.eq_of_error hm
    refine ⟨taken, htaken, ?_, ?_⟩
    · rw [hraise, halone]
      simp [Outcome.raise, map_raise_of_isMatch htaken, Event.raise, Defect.last, Except.mapError, Defect.raise, Nat.add_right_comm]
    · rw [halone, Nat.add_sub_cancel]
      rfl

/-! ### A union one level down -/

namespace OwnField

/-- The union of what is missing and an object. -/
def itself : Ref := ⟨.union, 1⟩

/-- An object whose field self is missing, null or an object. -/
def store : Store := ⟨#[.shape [("self", .node itself)], .row [.undefined, .null, .nominal .object]]⟩

/-- An object that is its own field. -/
def heap : Heap := ⟨#[], #[[("self", .object .object 0)]], 0⟩

/-- The shape holds the union, which holds no node. -/
theorem acyclicFrom : store.AcyclicFrom (.node ⟨.shape, 0⟩) := Store.acyclicFrom_of_lt (by decide) _

/-- The field of the object is held against the union. -/
theorem reached_union {limit : Nat} :
    (Validator.mk heap store (some limit)).Reached (.root (.object .object 0) (.node ⟨.shape, 0⟩))
      ⟨[some (.node 0)], .object .object 0, .definition (.node itself)⟩ := by
  refine Relation.ReflTransGen.single ⟨?_, (.object .object 0, .definition (.node itself)), ?_, rfl⟩
  · exact Validator.obstacle?_eq_none_iff.2 ⟨fun a _ => List.not_mem_nil, fun n _ => Nat.zero_le n⟩
  · exact ⟨[], [], by cbv, nofun⟩

end OwnField

/-- With two levels the field of the object is accepted by the union, and it is so alone with one level. With one level the
union has no level left for its alternatives, and alone it has none with a limit of no level. -/
theorem context_independent_ownField :
    Validator.validate ⟨OwnField.heap, OwnField.store, some 1⟩ (.object .object 0) (.node OwnField.itself) =
        Validator.answer ⟨OwnField.heap, OwnField.store, some 2⟩
          ⟨[some (.node 0)], .object .object 0, .definition (.node OwnField.itself)⟩ ∧
      ∃ n, (Validator.validate ⟨OwnField.heap, OwnField.store, some 0⟩ (.object .object 0) (.node OwnField.itself)).result =
        .error (.tooDeep n) := by
  have haccepted : (Validator.answer ⟨OwnField.heap, OwnField.store, some 2⟩
      ⟨[some (.node 0)], .object .object 0, .definition (.node OwnField.itself)⟩).result = .ok true := by cbv
  have hstopped : (Validator.answer ⟨OwnField.heap, OwnField.store, some 1⟩
      ⟨[some (.node 0)], .object .object 0, .definition (.node OwnField.itself)⟩).result = .error (.tooDeep 1) := by cbv
  have hlimit : ∀ limit n, some (limit + 1) = some n → [some (Identity.node 0)].length ≤ n := by
    intro limit n hn
    cases Option.some.inj hn
    exact Nat.succ_le_succ (Nat.zero_le limit)
  obtain ⟨hanswer, _⟩ :=
    context_independent ⟨OwnField.heap, OwnField.store, some 2⟩ _ _ _ _ _ OwnField.reached_union (hlimit 1)
  obtain ⟨_, hacyclic⟩ :=
    context_independent ⟨OwnField.heap, OwnField.store, some 1⟩ _ _ _ _ _ OwnField.reached_union (hlimit 0)
  exact ⟨hanswer true haccepted, (hacyclic OwnField.acyclicFrom).1.1 ⟨1, hstopped⟩⟩

end Conform
