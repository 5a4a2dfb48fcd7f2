import Conform.Json.Reader

/-!
# Keys of a JSON value

The objects of a JSON value are rows of named entries, which could repeat a name. Whatever is read from a text repeats none, at
any depth: the reader builds every object by inserting one field after the other (`Json.keysDistinct_of_first?`).
-/

namespace Conform

namespace Fields

variable {α : Type}

/-- What is held after an insertion was held before or is the entry inserted. -/
theorem eq_or_mem_of_mem_insert {fields : List (String × α)} {key : String} {entry : α} {f : String × α}
    (h : f ∈ insert fields key entry) : f.2 = entry ∨ f ∈ fields := by
  induction fields with
  | nil =>
    rw [List.mem_singleton.1 h]
    exact Or.inl rfl
  | cons g rest ih =>
    obtain ⟨k, a⟩ := g
    unfold insert at h
    split at h
    · rcases List.mem_cons.1 h with rfl | hrest
      · exact Or.inl rfl
      · exact Or.inr (List.mem_cons_of_mem _ hrest)
    · rcases List.mem_cons.1 h with rfl | hrest
      · exact Or.inr List.mem_cons_self
      · exact (ih hrest).imp_right (List.mem_cons_of_mem _)

/-- A name that is held has an entry. -/
theorem exists_get?_of_mem_keys {fields : List (String × α)} {key : String} (h : key ∈ keys fields) :
    ∃ a, get? fields key = some a := by
  induction fields with
  | nil => exact absurd h List.not_mem_nil
  | cons f rest ih =>
    obtain ⟨k, a⟩ := f
    by_cases hk : k = key
    · exact ⟨a, if_pos hk⟩
    · rcases List.mem_cons.1 h with heq | hrest
      · exact absurd heq.symm hk
      · rw [get?, if_neg hk]
        exact ih hrest

/-- The entry found under a name is held. -/
theorem mem_of_get? {fields : List (String × α)} {key : String} {a : α} (h : get? fields key = some a) : (key, a) ∈ fields := by
  induction fields with
  | nil => cases h
  | cons f rest ih =>
    obtain ⟨k, b⟩ := f
    by_cases hk : k = key
    · rw [get?, if_pos hk, Option.some.injEq] at h
      rw [hk, h]
      exact List.mem_cons_self
    · rw [get?, if_neg hk] at h
      exact List.mem_cons_of_mem _ (ih h)

/-- When the names are distinct, every entry is found under its name. -/
theorem get?_of_mem {fields : List (String × α)} {key : String} {a : α} (hkeys : (keys fields).Nodup) (h : (key, a) ∈ fields) :
    get? fields key = some a := by
  induction fields with
  | nil => exact absurd h List.not_mem_nil
  | cons f rest ih =>
    obtain ⟨hfresh, hrest⟩ := List.nodup_cons.1 hkeys
    rcases List.mem_cons.1 h with rfl | hmem
    · exact if_pos rfl
    · have hne : f.1 ≠ key := fun heq => hfresh (heq ▸ List.mem_map_of_mem hmem)
      rw [get?, if_neg hne]
      exact ih hrest hmem

/-- A name that is not held has no entry. -/
theorem get?_eq_none {fields : List (String × α)} {key : String} (h : key ∉ keys fields) : get? fields key = none := by
  cases hget : get? fields key with
  | none => rfl
  | some a => exact absurd (List.mem_map_of_mem (mem_of_get? hget)) h

/-- When the names are distinct, what is found does not depend on their order. -/
theorem get?_eq_of_perm {fields fields' : List (String × α)} (hkeys : (keys fields).Nodup) (h : fields.Perm fields')
    (key : String) : get? fields' key = get? fields key := by
  have hperm : (keys fields).Perm (keys fields') := h.map Prod.fst
  by_cases hkey : key ∈ keys fields
  · obtain ⟨a, ha⟩ := exists_get?_of_mem_keys hkey
    rw [ha]
    exact get?_of_mem (hperm.nodup_iff.1 hkeys) (h.mem_iff.1 (mem_of_get? ha))
  · rw [get?_eq_none hkey, get?_eq_none (mt hperm.mem_iff.2 hkey)]

/-- Rows with the same names, perhaps in another order, hold an entry under a name both or neither. -/
theorem get?_of_perm_keys {β : Type} {fields : List (String × α)} {fields' : List (String × β)}
    (h : (keys fields).Perm (keys fields')) (key : String) :
    (get? fields key = none ∧ get? fields' key = none) ∨ ∃ a b, get? fields key = some a ∧ get? fields' key = some b := by
  by_cases hkey : key ∈ keys fields
  · obtain ⟨a, ha⟩ := exists_get?_of_mem_keys hkey
    obtain ⟨b, hb⟩ := exists_get?_of_mem_keys (h.mem_iff.1 hkey)
    exact .inr ⟨a, b, ha, hb⟩
  · exact .inl ⟨get?_eq_none hkey, get?_eq_none (mt h.mem_iff.2 hkey)⟩

end Fields

namespace Json

/-- Whether every object of a value, at any depth, holds each key once. -/
inductive KeysDistinct : Json → Prop where
  | null : KeysDistinct .null
  | bool (b : Bool) : KeysDistinct (.bool b)
  | number (n : JsonNumber) : KeysDistinct (.number n)
  | string (text : String) : KeysDistinct (.string text)
  | array {items : List Json} (hitems : ∀ j ∈ items, KeysDistinct j) : KeysDistinct (.array items)
  | object {fields : List (String × Json)} (hkeys : (Fields.keys fields).Nodup)
      (hfields : ∀ f ∈ fields, KeysDistinct f.2) : KeysDistinct (.object fields)

theorem KeysDistinct.single {key : String} {j : Json} (hj : j.KeysDistinct) : (Json.object [(key, j)]).KeysDistinct :=
  .object (by simp [Fields.keys]) fun f hf => List.mem_singleton.1 hf ▸ hj

/-! ### What a reading yields -/

namespace Reading

variable {α β : Type} {P : α → Prop} {Q : β → Prop}

/-- Whether the value that is read, if any is, has a property. -/
def Yields (P : α → Prop) (r : Reading α) : Prop := ∀ a rest, r = .ok (a, rest) → P a

theorem yields_error (e : Failure) : Yields P (.error e) := by
  intro a rest h
  cases h

theorem yields_ok {a : α} (h : P a) (rest : List Char) : Yields P (.ok (a, rest)) := by
  intro a' rest' heq
  cases heq
  exact h

theorem Yields.within {r : Reading α} (h : Yields P r) (step : Step) : Yields P (r.within step) := by
  cases r with
  | error e => exact yields_error _
  | ok a => exact h

theorem Yields.map {r : Reading α} (h : Yields P r) {f : α → β} (hf : ∀ a, P a → Q (f a)) :
    Yields Q (r.map fun r => (f r.1, r.2)) := by
  cases r with
  | error e => exact yields_error _
  | ok a => exact yields_ok (hf a.1 (h a.1 a.2 rfl)) a.2

/-- What holds of a value whatever it is made from holds of the value that is read. -/
theorem yields_map (r : Reading α) {f : α → β} (hf : ∀ a, Q (f a)) : Yields Q (r.map fun r => (f r.1, r.2)) :=
  Yields.map (P := fun _ => True) (fun _ _ _ => trivial) fun a _ => hf a

end Reading

open Reading

/-! ### The reader -/

variable {read : List Char → Reading Json}

theorem readName_yields {j : Json} (h : j.KeysDistinct) (name cs : List Char) : Yields KeysDistinct (readName j name cs) := by
  induction name generalizing cs with
  | nil => exact yields_ok h cs
  | cons n name ih =>
    cases cs with
    | nil => exact yields_error _
    | cons c cs =>
      unfold readName
      split
      · exact ih cs
      · exact yields_error _

/-- The elements of a list are those read before and those read from here on. -/
theorem readItems_yields (hread : ∀ cs, Yields KeysDistinct (read cs)) (fuel : Nat) {done : List Json}
    (hdone : ∀ j ∈ done, j.KeysDistinct) (cs : List Char) :
    Yields (fun items => ∀ j ∈ items, j.KeysDistinct) (readItems read fuel done cs) := by
  induction fuel generalizing done cs with
  | zero => exact yields_error _
  | succ fuel ih =>
    unfold readItems
    split
    · exact yields_error _
    · rename_i item rest hitem
      have hmore : ∀ j ∈ item :: done, j.KeysDistinct := by
        intro j hj
        rcases List.mem_cons.1 hj with rfl | hj
        · exact (hread cs).within _ _ _ hitem
        · exact hdone j hj
      split
      · exact yields_error _
      · exact yields_ok (fun j hj => hmore j (List.mem_reverse.1 hj)) _
      · split
        · exact yields_error _
        · exact yields_error _
        · exact ih hmore _
      · exact yields_error _

theorem readList_yields (hread : ∀ cs, Yields KeysDistinct (read cs)) (cs : List Char) :
    Yields KeysDistinct (readList read cs) := by
  unfold readList
  split
  · exact yields_error _
  · exact yields_ok (.array (by simp)) _
  · exact (readItems_yields hread _ (by simp) _).map fun items hitems => .array hitems

theorem readMember_yields (hread : ∀ cs, Yields KeysDistinct (read cs)) (key : String) (cs : List Char) :
    Yields KeysDistinct (readMember read key cs) := by
  unfold readMember
  split
  · exact yields_error _
  · exact (hread _).within _
  · exact yields_error _

theorem readField_yields (hread : ∀ cs, Yields KeysDistinct (read cs)) (cs : List Char) :
    Yields (fun f => f.2.KeysDistinct) (readField read cs) := by
  unfold readField
  split
  · exact yields_error _
  · exact (readMember_yields hread _ _).map fun j hj => hj

/-- The fields of an object are inserted one after the other, which keeps their keys distinct. -/
theorem readFields_yields (hread : ∀ cs, Yields KeysDistinct (read cs)) (fuel : Nat) {done : List (String × Json)}
    (hdone : (Json.object done).KeysDistinct) (cs : List Char) :
    Yields (fun fields => (Json.object fields).KeysDistinct) (readFields read fuel done cs) := by
  induction fuel generalizing done cs with
  | zero => exact yields_error _
  | succ fuel ih =>
    unfold readFields
    split
    · exact yields_error _
    · rename_i key item rest hfield
      have hmore : (Json.object (Fields.insert done key item)).KeysDistinct := by
        cases hdone with
        | object hkeys hfields =>
          refine .object (Fields.nodup_keys_insert hkeys key item) fun f hf => ?_
          rcases Fields.eq_or_mem_of_mem_insert hf with heq | hf
          · rw [heq]
            exact readField_yields hread cs _ _ hfield
          · exact hfields f hf
      split
      · exact yields_error _
      · exact yields_ok (a := Fields.insert done key item) hmore _
      · split
        · exact yields_error _
        · exact yields_error _
        · exact ih hmore _
        · exact yields_error _
      · exact yields_error _

theorem readObject_yields (hread : ∀ cs, Yields KeysDistinct (read cs)) (cs : List Char) :
    Yields KeysDistinct (readObject read cs) := by
  have hempty : (Json.object []).KeysDistinct := .object List.nodup_nil (by simp)
  unfold readObject
  split
  · exact yields_error _
  · exact yields_ok hempty _
  · exact (readFields_yields hread _ hempty _).map fun fields hfields => hfields
  · exact yields_error _

/-- A value has distinct keys when the values inside it have. -/
theorem readWith_yields {nested : Option (List Char → Reading Json)}
    (hnested : ∀ read, nested = some read → ∀ cs, Yields KeysDistinct (read cs)) (cs : List Char) :
    Yields KeysDistinct (readWith nested cs) := by
  unfold readWith
  split
  · exact yields_error _
  · exact readName_yields .null _ _
  · exact readName_yields (.bool true) _ _
  · exact readName_yields (.bool false) _ _
  · exact yields_map _ .string
  · exact yields_map _ .number
  · cases nested with
    | none => exact yields_error _
    | some read => exact readList_yields (hnested read rfl) _
  · cases nested with
    | none => exact yields_error _
    | some read => exact readObject_yields (hnested read rfl) _
  · split
    · exact yields_map _ .number
    · exact yields_error _

theorem readValue_yields (levels : Nat) (cs : List Char) : Yields KeysDistinct (readValue levels cs) := by
  induction levels generalizing cs with
  | zero => exact readWith_yields (by simp) cs
  | succ levels ih =>
    refine readWith_yields ?_ cs
    rintro read ⟨⟩ cs
    exact ih cs

/-- The value at the start of a text repeats no key. -/
theorem keysDistinct_of_first? {text : String} {j : Json} {following : Option ReadError}
    (h : first? text = .ok (j, following)) : j.KeysDistinct := by
  unfold first? at h
  cases hvalue : readValue maxLevels text.toList with
  | error e => simp [hvalue] at h
  | ok r =>
    obtain ⟨j', rest⟩ := r
    have hj' : j'.KeysDistinct := readValue_yields maxLevels text.toList j' rest hvalue
    simp only [hvalue] at h
    split at h
    · cases h
      exact hj'
    · cases h
      exact hj'

end Json

end Conform
