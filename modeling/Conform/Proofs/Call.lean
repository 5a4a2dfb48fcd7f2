import Mathlib
import Conform.Proofs.Inquiry

/-!
# The calls of a run

A call of the judge holds a value against a subject below a path: against a definition, or against the node that a token
abbreviates, which stands on a level of its own. `Validator.answer_eq` states what a call does: unless there is an obstacle, it
runs the inquiry that its subject comes to, and every question put opens a call one level below, whose path carries the identity
of the subject. A call can open others only finitely often in a row (`wellFounded_canOpen`), which is the induction for
statements about runs, and an error of a run is the obstacle of a call that the run reaches (`exists_reached_of_error`).
-/

namespace Conform

/-- What a call holds a value against: a definition, or the node that a token abbreviates. -/
inductive Subject where
  | definition (d : Definition)
  | expansion (n : Node Definition)

namespace Subject

/-- The identity of a subject. What a token abbreviates has none. -/
def identity : Subject → Option Identity
  | .definition d => d.identity
  | .expansion _ => none

/-- The label of a subject. -/
def label (store : Store) : Subject → String
  | .definition d => store.describe d
  | .expansion n => n.describe

/-- What judging a value by a subject comes to. -/
def inquiry (heap : Heap) (store : Store) (v : Value) : Subject → Inquiry (Value × Subject)
  | .definition .null => .settled v.isNull
  | .definition .undefined => .settled v.isUndefined
  | .definition (.nominal cls) => .settled (v.isNonPrimitive && v.instanceOf cls)
  | .definition (.other _) => .settled false
  | .definition (.node ref) => ((store.node ref).inquiry heap v).map fun q => (q.1, .definition q.2)
  | .definition (.token text) =>
    match TypeToken.parse? text with
    | none => .settled false
    | some t =>
      match t.expansion? with
      | none => .settled (t.admits v)
      | some n => .all [(v, .expansion n)]
  | .expansion n => (n.inquiry heap v).map fun q => (q.1, .definition q.2)

/-- What the questions of a subject are about: the parts of a node, or what a token abbreviates. -/
inductive Part (store : Store) : Subject → Subject → Prop where
  | held {ref : Ref} {e : Definition} (h : e ∈ (store.node ref).children) : Part store (.definition (.node ref)) (.definition e)
  | abbreviated {text : String} {t : TypeToken} {n : Node Definition} (ht : TypeToken.parse? text = some t)
      (hn : t.expansion? = some n) : Part store (.definition (.token text)) (.expansion n)
  | unfolded {n : Node Definition} {e : Definition} (h : e ∈ n.children) : Part store (.expansion n) (.definition e)

end Subject

/-- The questions of a tuple are about its parts. -/
theorem mem_of_mem_positions {δ : Type} {q : Value × δ} :
    ∀ {ds : List δ} {vs : List Value}, q ∈ positions vs ds → q.2 ∈ ds := by
  intro ds
  induction ds with
  | nil => intro vs h; cases vs <;> simp [positions] at h
  | cons d ds ih =>
    intro vs h
    cases vs with
    | nil =>
      rcases List.mem_cons.1 h with rfl | h
      · exact List.mem_cons_self
      · exact List.mem_cons_of_mem d (ih h)
    | cons v vs =>
      rcases List.mem_cons.1 h with rfl | h
      · exact List.mem_cons_self
      · exact List.mem_cons_of_mem d (ih h)

/-- The questions of a node are about its parts. -/
theorem mem_children_of_mem_questions {δ : Type} {heap : Heap} {v : Value} {n : Node δ} {q : Value × δ}
    (h : q ∈ (n.inquiry heap v).questions) : q.2 ∈ n.children := by
  cases n with
  | tuple items =>
    simp only [Node.inquiry] at h
    split at h
    · simp [Inquiry.settled] at h
    · split at h
      · simp [Inquiry.settled] at h
      · exact mem_of_mem_positions h
  | bounded element min max =>
    simp only [Node.inquiry] at h
    split at h
    · simp [Inquiry.settled] at h
    · split at h
      · obtain ⟨w, _, rfl⟩ := List.mem_map.1 h
        exact List.mem_singleton_self element
      · simp [Inquiry.settled] at h
  | union alternatives =>
    obtain ⟨d, hd, rfl⟩ := List.mem_map.1 h
    exact hd
  | shape fields =>
    simp only [Node.inquiry] at h
    split at h
    · obtain ⟨f, hf, rfl⟩ := List.mem_map.1 h
      exact List.mem_map_of_mem hf
    · simp [Inquiry.settled] at h

/-- The questions of a subject are about its parts. -/
theorem Subject.part_of_mem_questions {heap : Heap} {store : Store} {v : Value} {s : Subject} {q : Value × Subject}
    (h : q ∈ (s.inquiry heap store v).questions) : s.Part store q.2 := by
  cases s with
  | expansion n =>
    obtain ⟨p, hp, rfl⟩ := List.mem_map.1 h
    exact .unfolded (mem_children_of_mem_questions hp)
  | definition d =>
    cases d with
    | node ref =>
      obtain ⟨p, hp, rfl⟩ := List.mem_map.1 h
      exact .held (mem_children_of_mem_questions hp)
    | token text =>
      simp only [Subject.inquiry] at h
      split at h
      · simp [Inquiry.settled] at h
      · rename_i t ht
        split at h
        · simp [Inquiry.settled] at h
        · rename_i n hn
          rw [List.mem_singleton.1 h]
          exact .abbreviated ht hn
    | _ => simp [Subject.inquiry, Inquiry.settled] at h

/-- Running the questions of the subject that a node stands for is judging by the node. -/
theorem Inquiry.run_definitions (heap : Heap) (store : Store) (v : Value) (n : Node Definition)
    (ask : Value × Subject → Outcome Bool) :
    ((n.inquiry heap v).map fun q => (q.1, Subject.definition q.2)).run ask (fun q => q.2.label store) =
      n.judge heap (fun w e => ask (w, .definition e)) store.describe v := by
  rw [Node.judge_eq_run, Inquiry.run_map]
  rfl

/-- What running the inquiry of a subject comes to. -/
theorem Subject.run_inquiry (heap : Heap) (store : Store) (v : Value) (s : Subject) (ask : Value × Subject → Outcome Bool) :
    (s.inquiry heap store v).run ask (fun q => q.2.label store) =
      match s with
      | .definition .null => Outcome.answer v.isNull
      | .definition .undefined => Outcome.answer v.isUndefined
      | .definition (.nominal cls) => Outcome.answer (v.isNonPrimitive && v.instanceOf cls)
      | .definition (.other _) => Outcome.answer false
      | .definition (.node ref) => (store.node ref).judge heap (fun w e => ask (w, .definition e)) store.describe v
      | .definition (.token text) =>
        match TypeToken.parse? text with
        | none => Outcome.answer false
        | some t =>
          match t.expansion? with
          | none => Outcome.answer (t.admits v)
          | some n => ask (v, .expansion n)
      | .expansion n => n.judge heap (fun w e => ask (w, .definition e)) store.describe v := by
  cases s with
  | expansion n => exact Inquiry.run_definitions heap store v n ask
  | definition d =>
    cases d with
    | node ref => exact Inquiry.run_definitions heap store v _ ask
    | token text =>
      cases ht : TypeToken.parse? text with
      | none =>
        simp only [Subject.inquiry, ht]
        exact Inquiry.run_settled _
      | some t =>
        cases hn : t.expansion? with
        | none =>
          simp only [Subject.inquiry, ht, hn]
          exact Inquiry.run_settled _
        | some n =>
          simp only [Subject.inquiry, ht, hn]
          exact Inquiry.run_all_singleton _
    | _ => exact Inquiry.run_settled _

/-- A call: a value to be held against a subject below a path. -/
structure Call where
  path : Path
  value : Value
  subject : Subject

namespace Call

/-- The call that a run begins with. -/
def root (v : Value) (d : Definition) : Call := ⟨[], v, .definition d⟩

/-- The level of a call. The first call is on level 0. -/
def depth (c : Call) : Nat := c.path.length

/-- The call that a question opens. -/
def below (c : Call) (q : Value × Subject) : Call := ⟨c.subject.identity :: c.path, q.1, q.2⟩

/-- A question opens a call one level below. -/
theorem depth_below (c : Call) (q : Value × Subject) : (c.below q).depth = c.depth + 1 := List.length_cons

end Call

namespace Validator

variable {vd : Validator}

/-- What keeps a call from looking at its value, if anything does. -/
def obstacle? (vd : Validator) (c : Call) : Option Defect :=
  defect? vd.limit c.path c.subject.identity fun _ => c.subject.label vd.store

/-- The inquiry that a call comes to. -/
def inquiry (vd : Validator) (c : Call) : Inquiry (Value × Subject) := c.subject.inquiry vd.heap vd.store c.value

/-- The outcome of a call. -/
def answer (vd : Validator) (c : Call) : Outcome Bool :=
  match c.subject with
  | .definition d => vd.judge c.path c.value d
  | .expansion n =>
    match defect? vd.limit c.path none (fun _ => n.describe) with
    | some defect => Outcome.stop c.path.length defect
    | none => n.judge vd.heap (vd.judge (none :: c.path)) vd.label c.value

/-- The outcome of the call that a question of a call opens. -/
def answerBelow (vd : Validator) (c : Call) (q : Value × Subject) : Outcome Bool := vd.answer (c.below q)

/-- What a call does: it stops at an obstacle, and otherwise runs the inquiry that it comes to. -/
theorem answer_eq (vd : Validator) (c : Call) :
    vd.answer c =
      match vd.obstacle? c with
      | some defect => Outcome.stop c.depth defect
      | none => (vd.inquiry c).run (vd.answerBelow c) fun q => q.2.label vd.store := by
  obtain ⟨path, v, s⟩ := c
  rw [inquiry, Subject.run_inquiry]
  cases s with
  | expansion n => rfl
  | definition d =>
    show vd.judge path v d = _
    rw [judge_eq]
    simp only [obstacle?, Subject.identity, Subject.label, Validator.label]
    cases defect? vd.limit path d.identity (fun _ => vd.store.describe d) with
    | some defect => rfl
    | none => cases d <;> rfl

/-- Without an obstacle a call runs the inquiry that it comes to. -/
theorem answer_of_obstacle?_eq_none {c : Call} (h : vd.obstacle? c = none) :
    vd.answer c = (vd.inquiry c).run (vd.answerBelow c) fun q => q.2.label vd.store := by
  rw [answer_eq, h]

/-- An obstacle stops a call. -/
theorem answer_of_obstacle?_eq_some {c : Call} {defect : Defect} (h : vd.obstacle? c = some defect) :
    vd.answer c = Outcome.stop c.depth defect := by
  rw [answer_eq, h]

/-- An obstacle is a definition that is its own ancestor, or a level below the limit. -/
theorem obstacle?_cases {c : Call} {defect : Defect} (h : vd.obstacle? c = some defect) :
    (∃ a, c.subject.identity = some a ∧ some a ∈ c.path ∧ defect = .circular (c.subject.label vd.store) c.depth) ∨
      ∃ n, vd.limit = some n ∧ n < c.depth ∧ defect = .tooDeep n := by
  simp only [obstacle?, defect?] at h
  split at h
  · rename_i hcircular
    obtain ⟨a, ha⟩ := Option.isSome_iff_exists.1 hcircular.1
    exact Or.inl ⟨a, ha, ha ▸ hcircular.2, (Option.some.inj h).symm⟩
  · split at h
    · rename_i n hlimit
      split at h
      · rename_i hdeep
        exact Or.inr ⟨n, hlimit, hdeep, (Option.some.inj h).symm⟩
      · simp at h
    · simp at h

/-- There is no obstacle when the subject is not its own ancestor and the level is not below the limit. -/
theorem obstacle?_eq_none_iff {c : Call} :
    vd.obstacle? c = none ↔
      (∀ a, c.subject.identity = some a → some a ∉ c.path) ∧ ∀ n, vd.limit = some n → c.depth ≤ n := by
  constructor
  · intro h
    refine ⟨fun a ha hmem => ?_, fun n hn => ?_⟩
    · simp [obstacle?, defect?, ha, hmem] at h
    · simp only [obstacle?, defect?, hn] at h
      split at h
      · simp at h
      · simpa [Call.depth] using h
  · rintro ⟨hpath, hlimit⟩
    cases hobstacle : vd.obstacle? c with
    | none => rfl
    | some defect =>
      rcases obstacle?_cases hobstacle with ⟨a, ha, hmem, _⟩ | ⟨n, hn, hdeep, _⟩
      · exact absurd hmem (hpath a ha)
      · exact absurd (hlimit n hn) (Nat.not_le.2 hdeep)

/-- A call that comes to an answer has no obstacle. -/
theorem obstacle?_eq_none_of_ok {c : Call} {b : Bool} (h : (vd.answer c).result = .ok b) : vd.obstacle? c = none := by
  cases hobstacle : vd.obstacle? c with
  | none => rfl
  | some defect =>
    rw [answer_of_obstacle?_eq_some hobstacle] at h
    simp [Outcome.stop] at h

/-- A run is the call at its root. -/
theorem validate_eq_answer (vd : Validator) (v : Value) (d : Definition) : vd.validate v d = vd.answer (.root v d) := rfl

/-! ### Which calls open which -/

/-- Whether a call opens another one directly: nothing is in its way, and its run puts the question that the other one answers. -/
def Opens (vd : Validator) (c c' : Call) : Prop :=
  vd.obstacle? c = none ∧ ∃ q, (vd.inquiry c).Puts (vd.answerBelow c) q ∧ c' = c.below q

/-- Whether a call could open another one directly, whatever the other questions are answered with. -/
def CanOpen (vd : Validator) (c c' : Call) : Prop :=
  vd.obstacle? c = none ∧ ∃ q ∈ (vd.inquiry c).questions, c' = c.below q

/-- Whether a call is made, directly or through others, when another one is. -/
def Reached (vd : Validator) : Call → Call → Prop := Relation.ReflTransGen vd.Opens

/-- What a call opens, it can open. -/
theorem Opens.canOpen {c c' : Call} (h : vd.Opens c c') : vd.CanOpen c c' := by
  obtain ⟨hclear, q, hq, rfl⟩ := h
  exact ⟨hclear, q, hq.mem, rfl⟩

/-- A call that can be opened stands one level below, with the identity of the subject on its path, and is about a part of it. -/
theorem CanOpen.part {c c' : Call} (h : vd.CanOpen c c') :
    c'.path = c.subject.identity :: c.path ∧ c.subject.Part vd.store c'.subject := by
  obtain ⟨_, q, hq, rfl⟩ := h
  exact ⟨rfl, Subject.part_of_mem_questions hq⟩

/-- A call against a definition can open others only finitely often in a row. -/
theorem acc_definition (vd : Validator) (path : Path) (v : Value) (d : Definition) :
    Acc (fun c' c => vd.CanOpen c c') ⟨path, v, .definition d⟩ := by
  refine Acc.intro _ fun c' hopen => ?_
  obtain ⟨hpath, hpart⟩ := hopen.part
  have hclear := hopen.1
  obtain ⟨path', w, s⟩ := c'
  simp only at hpath hpart
  subst hpath
  cases hpart with
  | @held ref e hmem => exact acc_definition vd _ w e
  | @abbreviated text t n ht hn =>
    refine Acc.intro _ fun c'' hopen' => ?_
    obtain ⟨hpath', hpart'⟩ := hopen'.part
    obtain ⟨path'', w', s'⟩ := c''
    simp only at hpath' hpart'
    subst hpath'
    cases hpart' with
    | @unfolded n e hmem => exact acc_definition vd _ w' e
termination_by (vd.store.vacant path, d.rank)
decreasing_by
  · subst_vars
    exact Prod.Lex.left _ _ (Store.vacant_node_lt (Store.lt_size_of_mem_children ‹_›) (not_mem_of_defect?_eq_none hclear))
  · subst_vars
    show Prod.Lex _ _ (vd.store.vacant (none :: some (.token text) :: path), e.rank) _
    rw [Store.vacant_token]
    exact Prod.Lex.right _ (rank_lt_of_mem_expansion ht hn hmem)

/-- A call can open others only finitely often in a row. -/
theorem wellFounded_canOpen (vd : Validator) : WellFounded fun c' c => vd.CanOpen c c' := by
  refine ⟨fun ⟨path, v, s⟩ => ?_⟩
  cases s with
  | definition d => exact acc_definition vd path v d
  | expansion n =>
    refine Acc.intro _ fun c' hopen => ?_
    obtain ⟨_, q, hq, rfl⟩ := hopen
    obtain ⟨p, _, rfl⟩ := List.mem_map.1 hq
    exact acc_definition vd _ _ _

/-- What holds of a call when it holds of all calls that it can open holds of every call. -/
theorem call_induction (vd : Validator) {motive : Call → Prop}
    (step : ∀ c, (∀ c', vd.CanOpen c c' → motive c') → motive c) (c : Call) : motive c :=
  (wellFounded_canOpen vd).induction c step

/-- An error is the obstacle of a call that is reached. -/
theorem exists_reached_of_error (vd : Validator) {defect : Defect} (c : Call) (h : (vd.answer c).result = .error defect) :
    ∃ c', vd.Reached c c' ∧ vd.obstacle? c' = some defect := by
  induction c using vd.call_induction with
  | step c ih =>
    cases hobstacle : vd.obstacle? c with
    | some defect' =>
      rw [answer_of_obstacle?_eq_some hobstacle] at h
      have hsame : defect' = defect := Except.error.inj h
      exact ⟨c, Relation.ReflTransGen.refl, hsame ▸ hobstacle⟩
    | none =>
      rw [answer_of_obstacle?_eq_none hobstacle] at h
      obtain ⟨q, hputs, herror⟩ := Inquiry.exists_puts_of_run_error h
      have hopens : vd.Opens c (c.below q) := ⟨hobstacle, q, hputs, rfl⟩
      obtain ⟨c', hreached, hc'⟩ := ih _ hopens.canOpen herror
      exact ⟨c', Relation.ReflTransGen.head hopens hreached, hc'⟩

/-- The error that a level is below the limit comes from a call that is reached and stands there. -/
theorem exists_reached_of_tooDeep {c : Call} {n : Nat} (h : (vd.answer c).result = .error (.tooDeep n)) :
    ∃ c', vd.Reached c c' ∧ vd.limit = some n ∧ n < c'.depth := by
  obtain ⟨c', hreached, hobstacle⟩ := vd.exists_reached_of_error c h
  rcases obstacle?_cases hobstacle with ⟨_, _, _, hdefect⟩ | ⟨m, hlimit, hdeep, hdefect⟩
  · simp at hdefect
  · cases Defect.tooDeep.inj hdefect
    exact ⟨c', hreached, hlimit, hdeep⟩

end Validator

/-! ### A definition that reaches itself -/

namespace LinkedList

/-- The definition of a cell. -/
def cell : Ref := ⟨.shape, 0⟩

/-- The cell of a list is an object whose field next holds null or a cell. -/
def store : Store := ⟨#[.shape [("next", .node ⟨.union, 1⟩)], .row [.null, .node cell]]⟩

/-- Two objects: nothing follows the first one, and the first one follows the second one. -/
def heap : Heap := ⟨#[], #[[("next", .null)], [("next", .object .object 0)]], 0⟩

end LinkedList

end Conform
