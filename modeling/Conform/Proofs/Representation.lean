import Conform.Json.Pointer
import Conform.Proofs.Growth
import Conform.Proofs.Likeness

/-!
# Values that stand for JSON values

A value in a heap stands for a JSON value (`Heap.Represents`) when it is the same scalar, or an array or an object of the root
class over values that stand for the parts. The conversion makes such a value in new cells and leaves the cells that are there
(`Heap.represents_ofJson`). All values that stand for one JSON value are alike (`Heap.Represents.alike`), so it does not matter into
which heap it is converted. What a pointer selects by a name is what a property of the value under the same name stands for
(`Heap.Represents.field`).
-/

namespace Conform

namespace Fields

variable {α β : Type} {R : α → β → Prop} {fields : List (String × α)} {fields' : List (String × β)}

/-- In rows with the same names and related entries, the entries found under a name are related. -/
theorem related_of_get? (h : List.Forall₂ (fun f g => f.1 = g.1 ∧ R f.2 g.2) fields fields') {key : String} {a : α} {b : β}
    (ha : get? fields key = some a) (hb : get? fields' key = some b) : R a b := by
  induction h with
  | nil => cases ha
  | @cons f g _ _ hfg _ ih =>
    obtain ⟨k, a'⟩ := f
    obtain ⟨_, b'⟩ := g
    obtain ⟨rfl, hR⟩ := hfg
    by_cases hk : k = key
    · rw [get?, if_pos hk, Option.some.injEq] at ha hb
      exact ha ▸ hb ▸ hR
    · rw [get?, if_neg hk] at ha hb
      exact ih ha hb

end Fields

namespace Heap

/-- Whether a value in a heap stands for a JSON value. Its cells are cells of the heap. -/
inductive Represents (h : Heap) : Value → Json → Prop where
  | null : Represents h .null .null
  | bool (b : Bool) : Represents h (.bool b) (.bool b)
  | number (n : JsonNumber) : Represents h (.number n.toFloat) (.number n)
  | string (text : String) : Represents h (.string text) (.string text)
  | array {cell : Nat} {items : List Json} (hcell : cell < h.arrays.size) (hlength : (h.elements cell).length = items.length)
      (hitems : ∀ (i : Nat) v j, (h.elements cell)[i]? = some v → items[i]? = some j → Represents h v j) :
      Represents h (.array cell) (.array items)
  | object {cell : Nat} {fields : List (String × Json)} (hcell : cell < h.objects.size)
      (hkeys : Fields.keys (h.fields cell) = Fields.keys fields)
      (hvalues : ∀ key v j, Fields.get? (h.fields cell) key = some v → Fields.get? fields key = some j → Represents h v j) :
      Represents h (.object .object cell) (.object fields)

/-! ### New cells -/

/-- A heap has become another one by adding cells. -/
structure Grows (h h' : Heap) : Prop where
  arrays_le : h.arrays.size ≤ h'.arrays.size
  objects_le : h.objects.size ≤ h'.objects.size
  elements_eq : ∀ cell < h.arrays.size, h'.elements cell = h.elements cell
  fields_eq : ∀ cell < h.objects.size, h'.fields cell = h.fields cell

variable {h h' h'' : Heap} {v v' : Value} {j k : Json}

namespace Grows

theorem refl (h : Heap) : h.Grows h := ⟨Nat.le_refl _, Nat.le_refl _, fun _ _ => rfl, fun _ _ => rfl⟩

theorem trans (hg : h.Grows h') (hg' : h'.Grows h'') : h.Grows h'' where
  arrays_le := hg.arrays_le.trans hg'.arrays_le
  objects_le := hg.objects_le.trans hg'.objects_le
  elements_eq cell hcell := (hg'.elements_eq cell (hcell.trans_le hg.arrays_le)).trans (hg.elements_eq cell hcell)
  fields_eq cell hcell := (hg'.fields_eq cell (hcell.trans_le hg.objects_le)).trans (hg.fields_eq cell hcell)

theorem newArray (h : Heap) (items : List Value) : h.Grows (h.newArray items).1 where
  arrays_le := by simp [Heap.newArray]
  objects_le := Nat.le_refl _
  elements_eq cell hcell := by simp [Heap.newArray, elements, Array.getElem?_push, hcell.ne]
  fields_eq _ _ := rfl

theorem newObject (h : Heap) (cls : Class) (entries : List (String × Value)) : h.Grows (h.newObject cls entries).1 where
  arrays_le := Nat.le_refl _
  objects_le := by simp [Heap.newObject]
  elements_eq _ _ := rfl
  fields_eq cell hcell := by simp [Heap.newObject, fields, Array.getElem?_push, hcell.ne]

end Grows

/-- A value stands for the same when cells are added. -/
theorem Represents.grows (hv : h.Represents v j) (hg : h.Grows h') : h'.Represents v j := by
  induction hv with
  | null => exact .null
  | bool b => exact .bool b
  | number n => exact .number n
  | string text => exact .string text
  | array hcell hlength _ ih =>
    have hsame := hg.elements_eq _ hcell
    exact .array (hcell.trans_le hg.arrays_le) (hsame ▸ hlength) fun i v j hitem => ih i v j (hsame ▸ hitem)
  | object hcell hkeys _ ih =>
    have hsame := hg.fields_eq _ hcell
    exact .object (hcell.trans_le hg.objects_le) (hsame ▸ hkeys) fun key v j hget => ih key v j (hsame ▸ hget)

/-- A new array over values that stand for the items of a list stands for the list. -/
theorem represents_newArray {values : List Value} {items : List Json} (hrow : List.Forall₂ h.Represents values items) :
    (h.newArray values).1.Represents (h.newArray values).2 (.array items) := by
  have helements : (h.newArray values).1.elements h.arrays.size = values := by simp [newArray, elements]
  refine .array (by simp [newArray]) ((congrArg List.length helements).trans hrow.length_eq) fun i v j hv hj => ?_
  rw [helements] at hv
  obtain ⟨j', hj', hR⟩ := exists_getElem?_of_forall₂ hrow hv
  cases hj.symm.trans hj'
  exact hR.grows (.newArray h values)

/-- A new object over values that stand for the fields of an object without repeated keys stands for the object. -/
theorem represents_newObject {entries : List (String × Value)} {fields : List (String × Json)} (hkeys : (Fields.keys fields).Nodup)
    (hrow : List.Forall₂ (fun f g => f.1 = g.1 ∧ h.Represents f.2 g.2) entries fields) :
    (h.newObject .object entries).1.Represents (h.newObject .object entries).2 (.object fields) := by
  have hnames : Fields.keys entries = Fields.keys fields := Fields.keys_eq_of_forall₂ hrow
  have hfields : (h.newObject .object entries).1.fields h.objects.size = entries := by
    simp [newObject, Heap.fields, Fields.ofList_eq_self (hnames ▸ hkeys)]
  refine .object (by simp [newObject]) (hfields.symm ▸ hnames) fun key v j hv hj => ?_
  rw [hfields] at hv
  exact (Fields.related_of_get? hrow hv hj).grows (.newObject h .object entries)

/-! ### The conversion -/

/-- The values of a row stand for the row when each conversion makes a value that stands for its item. -/
theorem represents_ofJsonItems {items : List Json}
    (hitems : ∀ j ∈ items, ∀ h : Heap, h.Grows (h.ofJson j).1 ∧ (h.ofJson j).1.Represents (h.ofJson j).2 j) (h : Heap) :
    h.Grows (h.ofJsonItems items).1 ∧ List.Forall₂ (h.ofJsonItems items).1.Represents (h.ofJsonItems items).2 items := by
  induction items generalizing h with
  | nil => exact ⟨.refl h, .nil⟩
  | cons j js ih =>
    obtain ⟨hfirst, hrest⟩ := List.forall_mem_cons.1 hitems
    obtain ⟨hgrows, hj⟩ := hfirst h
    obtain ⟨hgrows', hjs⟩ := ih hrest (h.ofJson j).1
    exact ⟨hgrows.trans hgrows', .cons (hj.grows hgrows') hjs⟩

/-- The named values of fields stand for the fields when each conversion makes a value that stands for its field. -/
theorem represents_ofJsonFields {fields : List (String × Json)}
    (hfields : ∀ f ∈ fields, ∀ h : Heap, h.Grows (h.ofJson f.2).1 ∧ (h.ofJson f.2).1.Represents (h.ofJson f.2).2 f.2) (h : Heap) :
    h.Grows (h.ofJsonFields fields).1 ∧
      List.Forall₂ (fun f g => f.1 = g.1 ∧ (h.ofJsonFields fields).1.Represents f.2 g.2) (h.ofJsonFields fields).2 fields := by
  induction fields generalizing h with
  | nil => exact ⟨.refl h, .nil⟩
  | cons f fs ih =>
    obtain ⟨hfirst, hrest⟩ := List.forall_mem_cons.1 hfields
    obtain ⟨hgrows, hf⟩ := hfirst h
    obtain ⟨hgrows', hfs⟩ := ih hrest (h.ofJson f.2).1
    exact ⟨hgrows.trans hgrows', .cons ⟨rfl, hf.grows hgrows'⟩ hfs⟩

/-- A JSON value without repeated keys is converted to a value in new cells that stands for it. -/
theorem represents_ofJson (hj : j.KeysDistinct) (h : Heap) :
    h.Grows (h.ofJson j).1 ∧ (h.ofJson j).1.Represents (h.ofJson j).2 j := by
  induction hj generalizing h with
  | null => exact ⟨.refl h, .null⟩
  | bool b => exact ⟨.refl h, .bool b⟩
  | number n => exact ⟨.refl h, .number n⟩
  | string text => exact ⟨.refl h, .string text⟩
  | array _ ih =>
    obtain ⟨hgrows, hrow⟩ := represents_ofJsonItems ih h
    exact ⟨hgrows.trans (.newArray _ _), represents_newArray hrow⟩
  | object hkeys _ ih =>
    obtain ⟨hgrows, hrow⟩ := represents_ofJsonFields ih h
    exact ⟨hgrows.trans (.newObject _ _ _), represents_newObject hkeys hrow⟩

/-! ### Reading -/

/-- A property of an object stands for what the key finds, and is undefined when it finds nothing. -/
theorem Represents.property {cls : Class} {cell : Nat} {fields : List (String × Json)}
    (hv : h.Represents (.object cls cell) (.object fields)) (key : String) :
    (Fields.get? fields key = none ∧ h.field (.object cls cell) key = .undefined) ∨
      ∃ k, Fields.get? fields key = some k ∧ h.Represents (h.field (.object cls cell) key) k := by
  cases hv with
  | object _ hkeys hvalues =>
    rcases Fields.get?_of_perm_keys (.of_eq hkeys) key with ⟨hw, hk⟩ | ⟨w, k, hw, hk⟩
    · refine .inl ⟨hk, ?_⟩
      rw [Heap.field, hw, Option.getD_none]
    · refine .inr ⟨k, hk, ?_⟩
      rw [Heap.field, hw, Option.getD_some]
      exact hvalues key w k hw hk

/-- Values that stand for the same JSON value are alike. -/
theorem Represents.alike (hv : h.Represents v j) (hv' : h'.Represents v' j) (keys : Set String) : Alike keys h h' v v' := by
  refine ⟨fun a b => (a = .undefined ∧ b = .undefined) ∨ ∃ j, h.Represents a j ∧ h'.Represents b j, ?_, .inr ⟨j, hv, hv'⟩⟩
  rintro a b (⟨rfl, rfl⟩ | ⟨j, ha, hb⟩)
  · exact .undefined
  cases ha with
  | null =>
    cases hb
    exact .null
  | bool c =>
    cases hb
    exact .bool c c
  | number n =>
    cases hb
    exact .number _ _
  | string text =>
    cases hb
    exact .string text text
  | array _ hlength hitems =>
    cases hb with
    | array _ hlength' hitems' =>
      refine .array (List.forall₂_iff_get.2 ⟨hlength.trans hlength'.symm, fun i hi hi' => .inr ?_⟩)
      have hitem := List.getElem?_eq_getElem (hlength ▸ hi)
      exact ⟨_, hitems i _ _ (List.getElem?_eq_getElem hi) hitem, hitems' i _ _ (List.getElem?_eq_getElem hi') hitem⟩
  | object hcell hkeys hvalues =>
    have ha := Represents.object hcell hkeys hvalues
    cases hb with
    | object hcell' hkeys' hvalues' =>
      have hb := Represents.object hcell' hkeys' hvalues'
      refine .object fun key _ => ?_
      rcases ha.property key with ⟨hnone, hundefined⟩ | ⟨k, hk, hw⟩
      · rcases hb.property key with ⟨_, hundefined'⟩ | ⟨k, hk, _⟩
        · exact .inl ⟨hundefined, hundefined'⟩
        · cases hnone.symm.trans hk
      · rcases hb.property key with ⟨hnone, _⟩ | ⟨k', hk', hw'⟩
        · cases hnone.symm.trans hk
        · cases hk.symm.trans hk'
          exact .inr ⟨k, hw, hw'⟩

/-- What a pointer selects by a name stands under the name as a property. The length of an array is in the way of no element,
because no numeral is spelled like it. -/
theorem Represents.field (hv : h.Represents v j) {name : String} (hk : Pointer.step? name j = some k) :
    v.isNonPrimitive = true ∧ h.Represents (h.field v name) k := by
  cases hv with
  | array _ hlength hitems =>
    obtain ⟨i, hi, hitem⟩ := Option.bind_eq_some_iff.1 hk
    have hlt : i < (h.elements _).length := hlength ▸ (List.getElem?_eq_some_iff.1 hitem).1
    have hget := List.getElem?_eq_getElem hlt
    have hname : name ≠ "length" := by
      rintro rfl
      have hnone : Numeral.index? "length" = none := by decide
      cases hnone.symm.trans hi
    refine ⟨rfl, ?_⟩
    simp only [Heap.field, if_neg hname, hi, index, elements?, hget, Option.getD_some]
    exact hitems i _ _ hget hitem
  | object hcell hkeys hvalues =>
    rcases (Represents.object hcell hkeys hvalues).property name with ⟨hnone, _⟩ | ⟨k', hk', hw⟩
    · cases hnone.symm.trans hk
    · cases hk'.symm.trans hk
      exact ⟨rfl, hw⟩
  | _ => cases hk

end Heap

end Conform
