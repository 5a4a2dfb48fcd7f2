import Conform.Proofs.Expressible
import Conform.Proofs.PointerNames

/-!
# The faults of a definition

A JSON value is malformed as a definition when a directive somewhere in it takes a value of another form (`Json.HasFault`). The
directives that count are those in the place of a definition: the value itself, the items of a list and of a union, what is
optional, the element of an array directive, and the fields of a shape (`Json.Part`). A fault has a place, the names that lead to
the value at fault (`Json.HasFault.leads`), and the places are in the order in which they are read (`Json.Earlier`), of two places
at most one before the other (`Json.Earlier.asymm`).
-/

namespace Conform

/-! ### Faults -/

/-- Whether the keys of an object mark a form: one key and nothing beside it, the bounds of an array directive apart. -/
def ObjectForm.Marked (keys : List String) : ObjectForm → Prop
  | .undefined => HoldsOnly keys "$undefined" []
  | .union => HoldsOnly keys "$union" []
  | .optional => HoldsOnly keys "$optional" []
  | .arrayOf => HoldsOnly keys "$arrayOf" ["$min", "$max"]
  | .instanceOf => HoldsOnly keys "$instanceOf" []
  | .shape => ¬Directive keys

/-- Whether a value can stand for a bound of an array directive: null, or an integer that fits an unsigned word. -/
inductive Json.IsBound : Json → Prop where
  | null : IsBound .null
  | natural (n : Nat) (h : n < 0x10000000000000000) : IsBound (Json.natural n h)

/-- The faults of an object of a form itself, each with the value that is at fault: the value of a directive, or for a range
without room the object. -/
inductive FormFault (fields : List (String × Json)) : ObjectForm → Malformed → Json → Prop where
  | undefinedFlag {j : Json} (hget : Fields.get? fields "$undefined" = some j) (hflag : j ≠ .bool true) :
      FormFault fields .undefined ⟨["$undefined"], .undefinedFlag⟩ j
  | unionList {j : Json} (hget : Fields.get? fields "$union" = some j) (hlist : ∀ items, j ≠ .array items) :
      FormFault fields .union ⟨["$union"], .unionList⟩ j
  | bound {key : String} {j : Json} (hkey : key ∈ ["$min", "$max"]) (hget : Fields.get? fields key = some j)
      (hbound : ¬j.IsBound) : FormFault fields .arrayOf ⟨[key], .bound⟩ j
  | emptyRange {min max : Nat} {hmin : min < 0x10000000000000000} {hmax : max < 0x10000000000000000}
      (hlower : Fields.get? fields "$min" = some (Json.natural min hmin))
      (hupper : Fields.get? fields "$max" = some (Json.natural max hmax)) (hroom : max < min) :
      FormFault fields .arrayOf ⟨[], .emptyRange max min⟩ (.object fields)
  | classText {j : Json} (hget : Fields.get? fields "$instanceOf" = some j) (htext : ∀ name, j ≠ .string name) :
      FormFault fields .instanceOf ⟨["$instanceOf"], .classText⟩ j
  | unknownClass {name : String} (hget : Fields.get? fields "$instanceOf" = some (.string name))
      (hname : name ∉ ["Object", "Array", "Error"]) :
      FormFault fields .instanceOf ⟨["$instanceOf"], .unknownClass name⟩ (.string name)

/-- The parts of an object of a form that are read as definitions, with the names that lead to them. -/
inductive FormPart (fields : List (String × Json)) : ObjectForm → List String → Json → Prop where
  | alternative {items : List Json} {i : Nat} {k : Json} (hget : Fields.get? fields "$union" = some (.array items))
      (hitem : items[i]? = some k) : FormPart fields .union ["$union", toString i] k
  | optional {k : Json} (hget : Fields.get? fields "$optional" = some k) : FormPart fields .optional ["$optional"] k
  | element {k : Json} (hget : Fields.get? fields "$arrayOf" = some k) : FormPart fields .arrayOf ["$arrayOf"] k
  | field {key : String} {k : Json} (hget : Fields.get? fields key = some k) : FormPart fields .shape [key] k

/-- The order in which the places in an object of a form are read: alternatives and fields as they stand, in an array directive
the element before the two bounds, and last the range of the directive itself. -/
inductive FormOrder (fields : List (String × Json)) : ObjectForm → List String → List String → Prop where
  | alternative {i k : Nat} (h : i < k) (p q : List String) :
      FormOrder fields .union ("$union" :: toString i :: p) ("$union" :: toString k :: q)
  | arrayOf {p q : List String} (h : [p.head?, q.head?].Sublist [some "$arrayOf", some "$min", some "$max", none]) :
      FormOrder fields .arrayOf p q
  | field {key key' : String} (h : [key, key'].Sublist (Fields.keys fields)) (p q : List String) :
      FormOrder fields .shape (key :: p) (key' :: q)

namespace Json

/-- The parts of a value that are read as definitions of their own, with the names that lead to them. -/
inductive Part : Json → List String → Json → Prop where
  | item {items : List Json} {i : Nat} {k : Json} (hitem : items[i]? = some k) : Part (.array items) [toString i] k
  | ofForm {fields : List (String × Json)} {form : ObjectForm} {names : List String} {k : Json}
      (hform : form.Marked (Fields.keys fields)) (h : FormPart fields form names k) : Part (.object fields) names k

/-- The faults of a value that is read as a definition: where they are, what they are, and the value that is at fault. -/
inductive HasFault : Json → Malformed → Json → Prop where
  | own {fields : List (String × Json)} {form : ObjectForm} {e : Malformed} {node : Json}
      (hform : form.Marked (Fields.keys fields)) (h : FormFault fields form e node) : HasFault (.object fields) e node
  | inside {j k : Json} {names : List String} {e : Malformed} {node : Json} (hpart : Part j names k) (h : HasFault k e node) :
      HasFault j ⟨names ++ e.path, e.fault⟩ node

/-- Whether of two places in a value the first one is read before the second one. -/
inductive Earlier : Json → List String → List String → Prop where
  | item {items : List Json} {i k : Nat} (h : i < k) (p q : List String) :
      Earlier (.array items) (toString i :: p) (toString k :: q)
  | ofForm {fields : List (String × Json)} {form : ObjectForm} {p q : List String}
      (hform : form.Marked (Fields.keys fields)) (h : FormOrder fields form p q) : Earlier (.object fields) p q
  | inside {j k : Json} {names p q : List String} (hpart : Part j names k) (h : Earlier k p q) :
      Earlier j (names ++ p) (names ++ q)

/-- Whether a value has a fault. -/
def Faulty (j : Json) (e : Malformed) : Prop := ∃ node, j.HasFault e node

end Json

/-! ### The form of an object -/

section

variable {keys : List String} {form form' : ObjectForm}

/-- The keys of an object mark no two forms. -/
theorem ObjectForm.Marked.unique (h : form.Marked keys) (h' : form'.Marked keys) : form = form' := by
  by_cases hnone : Directive keys
  · -- The key of the one directive is a key of the other one.
    have hkey : ∀ {a b : String} {as bs : List String}, HoldsOnly keys a as → HoldsOnly keys b bs → a ∈ b :: bs :=
      fun ha hb => hb.2 _ ha.1
    cases form with
    | shape => exact absurd hnone h
    | _ =>
      cases form' with
      | shape => exact absurd hnone h'
      | _ =>
        have hmem := hkey h h'
        revert hmem
        decide
  · have hshape : ∀ {form : ObjectForm}, form.Marked keys → form = .shape := by
      intro form hform
      cases form with
      | shape => rfl
      | undefined => exact absurd (directive_iff.2 (.inl hform)) hnone
      | union => exact absurd (directive_iff.2 (.inr (.inl hform))) hnone
      | optional => exact absurd (directive_iff.2 (.inr (.inr (.inl hform)))) hnone
      | arrayOf => exact absurd (directive_iff.2 (.inr (.inr (.inr (.inl hform))))) hnone
      | instanceOf => exact absurd (directive_iff.2 (.inr (.inr (.inr (.inr hform))))) hnone
    rw [hshape h, hshape h']

/-- An object is read as the form that its keys mark. -/
theorem ObjectForm.marked_ofKeys (keys : List String) : (ObjectForm.ofKeys keys).Marked keys := by
  by_cases hnone : Directive keys
  · simp only [directive_iff, ← holdsOnly_iff] at hnone
    unfold ObjectForm.ofKeys
    dsimp only
    split_ifs with hundefined hunion hoptional harray hinstance
    · exact holdsOnly_iff.1 hundefined
    · exact holdsOnly_iff.1 hunion
    · exact holdsOnly_iff.1 hoptional
    · exact holdsOnly_iff.1 harray
    · exact holdsOnly_iff.1 hinstance
    · rcases hnone with h | h | h | h | h
      · exact absurd h hundefined
      · exact absurd h hunion
      · exact absurd h hoptional
      · exact absurd h harray
      · exact absurd h hinstance
  · rw [ofKeys_eq_shape_iff.2 hnone]
    exact hnone

end

/-- The faults of an object are those of its form itself and those of the parts of the form. -/
theorem Json.faulty_object_iff {fields : List (String × Json)} {form : ObjectForm} (hform : form.Marked (Fields.keys fields))
    {e : Malformed} :
    (Json.object fields).Faulty e ↔ (∃ node, FormFault fields form e node) ∨
      ∃ names k e₀, FormPart fields form names k ∧ k.Faulty e₀ ∧ e = ⟨names ++ e₀.path, e₀.fault⟩ := by
  constructor
  · rintro ⟨node, hfault⟩
    cases hfault with
    | own hform' h =>
      cases hform'.unique hform
      exact .inl ⟨node, h⟩
    | inside hpart h =>
      cases hpart with
      | ofForm hform' hpart =>
        cases hform'.unique hform
        exact .inr ⟨_, _, _, hpart, ⟨node, h⟩, rfl⟩
  · rintro (⟨node, h⟩ | ⟨names, k, e₀, hpart, ⟨node, h⟩, rfl⟩)
    · exact ⟨node, .own hform h⟩
    · exact ⟨node, .inside (.ofForm hform hpart) h⟩

/-- The faults of a list are those of its items. -/
theorem Json.faulty_array_iff {items : List Json} {e : Malformed} :
    (Json.array items).Faulty e ↔
      ∃ (i : Nat) (k : Json) (e₀ : Malformed), items[i]? = some k ∧ k.Faulty e₀ ∧ e = e₀.within (toString i) := by
  constructor
  · rintro ⟨node, hfault⟩
    cases hfault with
    | inside hpart h =>
      cases hpart with
      | item hitem => exact ⟨_, _, _, hitem, ⟨node, h⟩, rfl⟩
  · rintro ⟨i, k, e₀, hitem, ⟨node, h⟩, rfl⟩
    exact ⟨node, .inside (.item hitem) h⟩

/-- A place of a fault leads to the value that is at fault. -/
theorem Json.HasFault.leads {j node : Json} {e : Malformed} (h : j.HasFault e node) : Pointer.Leads e.path j node := by
  induction h with
  | own hform h =>
    cases h with
    | undefinedFlag hget hflag => exact .field hget (.here _)
    | unionList hget hlist => exact .field hget (.here _)
    | bound hkey hget hbound => exact .field hget (.here _)
    | emptyRange hlower hupper hroom => exact .here _
    | classText hget htext => exact .field hget (.here _)
    | unknownClass hget hname => exact .field hget (.here _)
  | inside hpart h ih =>
    refine Pointer.Leads.append ?_ ih
    cases hpart with
    | item hitem => exact .element hitem (.here _)
    | ofForm hform hpart =>
      cases hpart with
      | alternative hget hitem => exact .field hget (.element hitem (.here _))
      | optional hget => exact .field hget (.here _)
      | element hget => exact .field hget (.here _)
      | field hget => exact .field hget (.here _)

/-! ### The order of the places -/

/-- In a row without repetitions two members stand in one order only. -/
theorem not_sublist_swap {α : Type} {l : List α} (hl : l.Nodup) {a b : α} (h : [a, b].Sublist l) : ¬[b, a].Sublist l := by
  induction l with
  | nil => cases h
  | cons c l ih =>
    obtain ⟨hfresh, hrest⟩ := List.nodup_cons.1 hl
    intro h'
    cases h with
    | cons _ h =>
      cases h' with
      | cons _ h' => exact ih hrest h h'
      | cons_cons _ h' => exact hfresh (h.subset (by simp))
    | cons_cons _ h =>
      cases h' with
      | cons _ h' => exact hfresh (h'.subset (by simp))
      | cons_cons _ h' => exact hfresh (h'.subset (by simp))

section

variable {fields : List (String × Json)} {form : ObjectForm} {names names' p q : List String} {j k : Json}

/-- The names of two parts of an object do not begin the same place, unless the parts are one. -/
theorem FormPart.unique (h : FormPart fields form names j) (h' : FormPart fields form names' k)
    (heq : names ++ p = names' ++ q) : names = names' ∧ j = k := by
  cases h with
  | @alternative items i _ hget hitem =>
    cases h' with
    | @alternative items' i' _ hget' hitem' =>
      simp only [List.cons_append, List.nil_append, List.cons.injEq, true_and] at heq
      obtain rfl : i = i' := Nat.repr_inj.1 heq.1
      rw [hget, Option.some.injEq, Json.array.injEq] at hget'
      subst hget'
      exact ⟨rfl, Option.some.inj (hitem.symm.trans hitem')⟩
  | optional hget =>
    cases h' with
    | optional hget' => exact ⟨rfl, Option.some.inj (hget.symm.trans hget')⟩
  | element hget =>
    cases h' with
    | element hget' => exact ⟨rfl, Option.some.inj (hget.symm.trans hget')⟩
  | @field key _ hget =>
    cases h' with
    | @field key' _ hget' =>
      simp only [List.cons_append, List.nil_append, List.cons.injEq] at heq
      obtain rfl : key = key' := heq.1
      exact ⟨rfl, Option.some.inj (hget.symm.trans hget')⟩

/-- Two places within one part of an object are not ordered by the form of the object. -/
theorem FormPart.not_formOrder (hkeys : (Fields.keys fields).Nodup) (h : FormPart fields form names k) :
    ¬FormOrder fields form (names ++ p) (names ++ q) := by
  intro horder
  generalize hp : names ++ p = a at horder
  generalize hq : names ++ q = b at horder
  cases h with
  | alternative hget hitem =>
    cases horder with
    | alternative hlt =>
      simp only [List.cons_append, List.nil_append, List.cons.injEq, true_and] at hp hq
      exact hlt.ne (Nat.repr_inj.1 (hp.1.symm.trans hq.1))
  | optional => cases horder
  | element =>
    cases horder with
    | arrayOf hsublist =>
      subst hp hq
      exact List.nodup_iff_sublist.1 (by decide) _ hsublist
  | field =>
    cases horder with
    | field hsublist =>
      simp only [List.cons_append, List.nil_append, List.cons.injEq] at hp hq
      rw [← hp.1, ← hq.1] at hsublist
      exact List.nodup_iff_sublist.1 hkeys _ hsublist

/-- The form of an object does not order two places in both ways. -/
theorem FormOrder.asymm (hkeys : (Fields.keys fields).Nodup) (h : FormOrder fields form p q) : ¬FormOrder fields form q p := by
  intro h'
  cases h with
  | @alternative i k hlt p q =>
    generalize hp : "$union" :: toString (i : Nat) :: p = a at h'
    generalize hq : "$union" :: toString (k : Nat) :: q = b at h'
    cases h' with
    | alternative hlt' =>
      simp only [List.cons.injEq, true_and] at hp hq
      have hfirst := Nat.repr_inj.1 hp.1
      have hsecond := Nat.repr_inj.1 hq.1
      omega
  | arrayOf hsublist =>
    cases h' with
    | arrayOf hsublist' => exact not_sublist_swap (by decide) hsublist hsublist'
  | field hsublist =>
    cases h' with
    | field hsublist' => exact not_sublist_swap hkeys hsublist hsublist'

end

namespace Json

variable {p q : List String}

/-- Two places in a list that are one begin with one position. -/
theorem numeral_cons_inj {i k : Nat} (h : toString i :: p = toString k :: q) : i = k ∧ p = q := by
  obtain ⟨hnumeral, htail⟩ := List.cons.inj h
  exact ⟨Nat.repr_inj.1 hnumeral, htail⟩

/-- Places in a list are in the order of their items, or in one item. -/
theorem earlier_array {items : List Json} (h : (Json.array items).Earlier p q) :
    (∃ (i k : Nat) (p' q' : List String), i < k ∧ p = toString i :: p' ∧ q = toString k :: q') ∨
      ∃ (i : Nat) (k : Json) (p' q' : List String), items[i]? = some k ∧ k.Earlier p' q' ∧
        p = toString i :: p' ∧ q = toString i :: q' := by
  cases h with
  | item hlt p q => exact .inl ⟨_, _, p, q, hlt, rfl, rfl⟩
  | inside hpart h =>
    cases hpart with
    | item hitem => exact .inr ⟨_, _, _, _, hitem, h, rfl, rfl⟩

/-- Places in an object are in the order that its form gives, or in one part. -/
theorem earlier_object {fields : List (String × Json)} {form : ObjectForm} (hform : form.Marked (Fields.keys fields))
    (h : (Json.object fields).Earlier p q) :
    FormOrder fields form p q ∨
      ∃ names k p' q', FormPart fields form names k ∧ k.Earlier p' q' ∧ p = names ++ p' ∧ q = names ++ q' := by
  cases h with
  | ofForm hform' h =>
    cases hform'.unique hform
    exact .inl h
  | inside hpart h =>
    cases hpart with
    | ofForm hform' hpart =>
      cases hform'.unique hform
      exact .inr ⟨_, _, _, _, hpart, h, rfl, rfl⟩

/-- Of two places in a value without repeated keys at most one is read before the other. -/
theorem Earlier.asymm {j : Json} (hj : j.KeysDistinct) (h : j.Earlier p q) : ¬j.Earlier q p := by
  intro h'
  induction hj generalizing p q with
  | @array items hitems ih =>
    rcases earlier_array h with ⟨i, k, p', q', hlt, rfl, rfl⟩ | ⟨i, k, p', q', hitem, hk, rfl, rfl⟩
    · -- The positions of the two places differ, and the other way around they would be equal or in the other order.
      rcases earlier_array h' with ⟨i', k', _, _, hlt', hq, hp⟩ | ⟨i', _, _, _, _, _, hq, hp⟩
      · have hsecond : k = i' := (numeral_cons_inj hq).1
        have hfirst : i = k' := (numeral_cons_inj hp).1
        omega
      · have hsecond : k = i' := (numeral_cons_inj hq).1
        have hfirst : i = i' := (numeral_cons_inj hp).1
        omega
    · rcases earlier_array h' with ⟨i', k', _, _, hlt', hq, hp⟩ | ⟨i', k', q'', p'', hitem', hk', hq, hp⟩
      · have hsecond : i = i' := (numeral_cons_inj hq).1
        have hfirst : i = k' := (numeral_cons_inj hp).1
        omega
      · obtain ⟨rfl, rfl⟩ := numeral_cons_inj hq
        obtain ⟨-, rfl⟩ := numeral_cons_inj hp
        cases hitem.symm.trans hitem'
        exact ih k (List.mem_of_getElem? hitem) hk hk'
  | @object fields hkeys hfields ih =>
    obtain ⟨form, hform⟩ : ∃ form : ObjectForm, form.Marked (Fields.keys fields) := ⟨_, ObjectForm.marked_ofKeys _⟩
    rcases earlier_object hform h with horder | ⟨names, k, p', q', hpart, hk, rfl, rfl⟩
    · rcases earlier_object hform h' with horder' | ⟨names, k, q', p', hpart, _, rfl, rfl⟩
      · exact horder.asymm hkeys horder'
      · exact hpart.not_formOrder hkeys horder
    · rcases earlier_object hform h' with horder' | ⟨names', k', q'', p'', hpart', hk', hq, hp⟩
      · exact hpart.not_formOrder hkeys horder'
      · obtain ⟨rfl, rfl⟩ := hpart.unique hpart' hq
        rw [List.append_cancel_left hq, List.append_cancel_left hp] at hk
        cases hpart with
        | alternative hget hitem =>
          -- The list of a union is no part of its own, so the hypothesis for the list is taken, further down.
          exact ih _ (Fields.mem_of_get? hget) (.inside (.item hitem) hk) (.inside (.item hitem) hk')
        | optional hget => exact ih _ (Fields.mem_of_get? hget) hk hk'
        | element hget => exact ih _ (Fields.mem_of_get? hget) hk hk'
        | field hget => exact ih _ (Fields.mem_of_get? hget) hk hk'
  | _ =>
    cases h with
    | inside hpart => cases hpart

end Json

end Conform
