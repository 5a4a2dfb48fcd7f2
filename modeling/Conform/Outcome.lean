/-!
# Outcomes

What judging a value leads to: the events logged on the way, in order, and an answer or the defect of the definition that stopped
it. Outcomes are run one after the other: what comes first has logged first, and after a defect nothing follows.
-/

namespace Conform

/-- A defect of a definition. That a value does not fit is no defect. -/
inductive Defect where
  | circular (node : String) (depth : Nat)
  | tooDeep (limit : Nat)
  deriving DecidableEq, Repr

/-- The text of a defect. -/
def Defect.message : Defect → String
  | .circular node depth => s!"circular definition: {node} is its own ancestor (depth {depth})"
  | .tooDeep limit => s!"definition nesting exceeds the configured limit of {limit}"

/-- What is logged: a union took one of its alternatives, or a defect was met. -/
inductive Event where
  | unionMatched (index : Nat) (alternative : String)
  | circular (node : String) (depth : Nat)
  | tooDeep (depth limit : Nat)
  deriving DecidableEq, Repr

/-- The event logged for a defect met at a depth. -/
def Defect.event (depth : Nat) : Defect → Event
  | .circular node at_ => .circular node at_
  | .tooDeep limit => .tooDeep depth limit

/-- The events logged and the answer. -/
structure Outcome (α : Type) where
  events : List Event
  result : Except Defect α

namespace Outcome

variable {α β : Type}

/-- An answer without any event. -/
def answer (a : α) : Outcome α := ⟨[], .ok a⟩

/-- Logs an event. -/
def log (e : Event) : Outcome Unit := ⟨[e], .ok ()⟩

/-- Stops at a defect met at a depth, which is logged. -/
def stop (depth : Nat) (d : Defect) : Outcome α := ⟨[d.event depth], .error d⟩

/-- Runs an outcome and then what its answer leads to. -/
def andThen (o : Outcome α) (f : α → Outcome β) : Outcome β :=
  match o.result with
  | .error d => ⟨o.events, .error d⟩
  | .ok a => ⟨o.events ++ (f a).events, (f a).result⟩

instance : Monad Outcome where
  pure := answer
  bind := andThen

/-- Whether all items are accepted; the first one that is not ends the run. -/
def every (accepts : α → Outcome Bool) : List α → Outcome Bool
  | [] => answer true
  | a :: rest => do if ← accepts a then every accepts rest else answer false

/-- Whether any item is accepted; the first one that is ends the run and is logged with its index. -/
def firstOf (accepts : α → Outcome Bool) (label : α → String) (index : Nat) : List α → Outcome Bool
  | [] => answer false
  | a :: rest => do
    if ← accepts a then
      log (.unionMatched index (label a))
      answer true
    else firstOf accepts label (index + 1) rest

end Outcome

end Conform
