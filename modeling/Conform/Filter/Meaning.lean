import Conform.Filter.Expression

/-!
# What filters give

A filter gives a row of outputs for an item, and each of them is an item or a failure: a failure does not end the row. Where an
operator has outputs on both sides, the right side runs through its outputs for each output of the left side.
-/

namespace Conform.Filter

/-- Why a filter fails on an item. -/
inductive Failure where
  | raised (value : Item)
  | undefined (name : String)
  | noElements (item : Item)
  | noIndex (item index : Item)
  | noSlice (item : Item)
  | noResult (op : Arithmetic) (left right : Item)
  | noNegative (item : Item)
  | noLength (item : Item)
  | noKeys (item : Item)
  | keyNotString (key : Item)

/-- A row of outputs. -/
abbrev Outputs (α : Type) : Type := List (Except Failure α)

/-- What a filter gives for each item. -/
abbrev Meaning : Type := Item → Outputs Item

namespace Outputs

variable {α β : Type}

/-- A single output. -/
def one (a : α) : Outputs α := [.ok a]

/-- A failure alone. -/
def fail (e : Failure) : Outputs α := [.error e]

/-- An output if there is one, and else a failure. -/
def oneOr (e : Failure) : Option α → Outputs α
  | some a => one a
  | none => fail e

/-- The outputs that the outputs of a row lead to, one after the other. -/
def andThen (outputs : Outputs α) (f : α → Outputs β) : Outputs β :=
  outputs.flatMap fun output =>
    match output with
    | .ok a => f a
    | .error e => fail e

/-- The outputs that are no failures. -/
def successes (outputs : Outputs α) : Outputs α := outputs.filter Except.isOk

/-- All outputs as one, or the first failure. -/
def gather (outputs : Outputs α) : Except Failure (List α) := outputs.mapM id

end Outputs

open Outputs

/-! ### Paths -/

/-- The place of an index in a row of so many: a negative index counts from the end. None for a place in front of the row. -/
def place? (n : Int) (length : Nat) : Option Nat :=
  if 0 ≤ n then some n.toNat else if n.natAbs ≤ length then some (length - n.natAbs) else none

/-- The place of a bound in a row of so many, with what stands for a missing bound. None when the bound is no integer. -/
def bound? (length missing : Nat) : Option Item → Option Nat
  | none => some missing
  | some (.number (.integer n)) => some (min ((place? n length).getD 0) length)
  | some _ => none

/-- The part of a row between two bounds. -/
def slice? {α : Type} (items : List α) (start stop : Option Item) : Option (List α) := do
  let low ← bound? items.length 0 start
  let high ← bound? items.length items.length stop
  some ((items.drop low).take (high - low))

/-- What a step leads to from an item. -/
def Item.access (i : Item) : Access Item → Outputs Item
  | .each =>
    match i with
    | .array items => items.map .ok
    | .object fields => fields.map fun f => .ok f.2
    | i => fail (.noElements i)
  | .index key =>
    match i, key with
    | .array items, .number (.integer n) => one (((place? n items.length).bind fun k => items[k]?).getD .null)
    | .object fields, .string name => one ((Fields.get? fields name).getD .null)
    | i, key => fail (.noIndex i key)
  | .slice start stop =>
    match i with
    | .array items => oneOr (.noSlice i) ((slice? items start stop).map .array)
    | .string text => oneOr (.noSlice i) ((slice? text.toList start stop).map fun cs => .string (String.ofList cs))
    | i => fail (.noSlice i)

/-- What a row of steps leads to from an item. From where a lenient step is not possible, nothing is reached. -/
def Item.walk : List (Access Item × Bool) → Item → Outputs Item
  | [], i => one i
  | (step, lenient) :: steps, i =>
    let reached := i.access step
    (if lenient then successes reached else reached).andThen (walk steps)

/-! ### Named filters and operators -/

/-- The number of elements, entries or characters of an item, or the size of a number. Null has length zero. -/
def Item.length? : Item → Option Item
  | .null => some (.number (.integer 0))
  | .bool _ => none
  | .number n => some (.number n.abs)
  | .string text => some (.number (.integer text.length))
  | .array items => some (.number (.integer items.length))
  | .object fields => some (.number (.integer fields.length))

/-- The names of an object in order, or the indices of a list. -/
def Item.keys? : Item → Option Item
  | .array items => some (.array ((List.range items.length).map fun k => .number (.integer (Int.ofNat k))))
  | .object fields => some (.array ((Fields.keys (Item.sortFields fields)).map .string))
  | _ => none

/-- What a named filter gives, with the filter that is its argument if it has one. -/
def Named.apply (f : Named) (argument : Meaning) (i : Item) : Outputs Item :=
  match f with
  | .null => one .null
  | .true => one (.bool .true)
  | .false => one (.bool .false)
  | .empty => []
  | .not => one (.bool !i.isTrue)
  | .length => oneOr (.noLength i) i.length?
  | .keys => oneOr (.noKeys i) i.keys?
  | .type => one (.string i.kindName)
  | .first => i.access (.index (.number (.integer 0)))
  | .error => fail (.raised i)
  | .map => [((i.access .each).andThen argument).gather.map .array]
  | .select => (argument i).andThen fun b => if b.isTrue then one i else []
  | .firstOf => (argument i).take 1
  | .raise => (argument i).andThen fun value => fail (.raised value)

/-- What an operator makes of two filters. -/
def Operator.apply (op : Operator) (left right : Meaning) (i : Item) : Outputs Item :=
  match op with
  | .pipe => (left i).andThen right
  | .comma => left i ++ right i
  | .alternative =>
    match (left i).filter fun output => output.toOption.all Item.isTrue with
    | [] => right i
    | outputs => outputs
  | .or => (left i).andThen fun a => if a.isTrue then one (.bool true) else (right i).andThen fun b => one (.bool b.isTrue)
  | .and => (left i).andThen fun a => if a.isTrue then (right i).andThen fun b => one (.bool b.isTrue) else one (.bool false)
  | .compare c => (left i).andThen fun a => (right i).andThen fun b => one (.bool (c.holds a b))
  | .arithmetic op =>
    (left i).andThen fun a => (right i).andThen fun b => oneOr (.noResult op a b) (Item.arithmetic? op a b)

/-! ### Expressions -/

mutual

/-- What an expression gives. -/
def Expression.meaning : Expression → Item → Outputs Item
  | .identity, i => one i
  | .number spelling, _ => one (.number (.ofText spelling))
  | .string text, _ => one (.string text)
  | .path base steps, i => (base.meaning i).andThen fun start => (stepsMeaning steps i).andThen fun path => start.walk path
  | .binary op left right, i => op.apply left.meaning right.meaning i
  | .negate e, i => (e.meaning i).andThen fun a =>
    match a with
    | .number n => one (.number n.negate)
    | a => fail (.noNegative a)
  | .collect e, i => [(e.meaning i).gather.map .array]
  | .emptyObject, _ => one (.object [])
  | .entry key value, i => (key.meaning i).andThen fun k => (value.meaning i).andThen fun v =>
    match k with
    | .string name => one (.object [(name, v)])
    | k => fail (.keyNotString k)
  | .conditional test yes no, i => (test.meaning i).andThen fun b => if b.isTrue then yes.meaning i else no.meaning i
  | .attempt e, i => successes (e.meaning i)
  | .call name arguments, i =>
    match Named.find? name arguments.length with
    | none => fail (.undefined name)
    | some f => f.apply ((argumentsMeaning arguments).headD one) i
  | .variable name, _ => fail (.undefined name)

/-- The rows of steps that a row of steps as written stands for, its indices and bounds being taken of an item. -/
def stepsMeaning : List PathStep → Item → Outputs (List (Access Item × Bool))
  | [], _ => one []
  | .each lenient :: steps, i => (stepsMeaning steps i).andThen fun path => one ((.each, lenient) :: path)
  | .index e lenient :: steps, i => (e.meaning i).andThen fun key =>
    (stepsMeaning steps i).andThen fun path => one ((.index key, lenient) :: path)
  | .slice start stop lenient :: steps, i => (boundMeaning start i).andThen fun low => (boundMeaning stop i).andThen fun high =>
    (stepsMeaning steps i).andThen fun path => one ((.slice low high, lenient) :: path)

/-- What a bound of a slice gives; a missing one gives that it is missing. -/
def boundMeaning : Option Expression → Item → Outputs (Option Item)
  | none, _ => one none
  | some e, i => (e.meaning i).andThen fun a => one (some a)

/-- What the arguments of a call give. -/
def argumentsMeaning : List Expression → List Meaning
  | [] => []
  | e :: es => e.meaning :: argumentsMeaning es

end

end Conform.Filter
