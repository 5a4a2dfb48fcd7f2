import Conform.Heap
import Conform.Proofs.PointerNames

/-!
# The properties of an array

An array has a property `length`, and one for every element, under the decimal numeral of its position; any other name reads as
undefined (`properties_read`). Which texts are numerals of positions is decided digit by digit, with an eye on leading zeros and
on the size of a word. It comes to this: a text is taken for a number exactly when it is the numeral that is written for the number
(`Numeral.index?_eq_some_iff`). So reading positions inverts writing them, and no long row of digits wraps around to a position.
-/

namespace Conform

namespace Numeral

variable {text : String} {n : Nat}

/-- A decimal digit is the digit of its value. -/
theorem digitChar_digitValue {c : Char} (h : c.isDigit = true) : (digitValue c).digitChar = c ∧ digitValue c < 10 := by
  simp only [Char.isDigit, Bool.and_eq_true, decide_eq_true_eq, UInt32.le_iff_toNat_le] at h
  obtain ⟨hlow, hhigh⟩ := h
  have hlow' : 48 ≤ c.toNat := hlow
  have hhigh' : c.toNat ≤ 57 := hhigh
  have hvalue : digitValue c = c.toNat - 48 := rfl
  have hten : digitValue c < 10 := by omega
  refine ⟨?_, hten⟩
  rw [← Char.toNat_inj, Nat.toNat_digitChar_of_lt_ten hten]
  omega

/-- The last digit of a row counts once, and what stands before it ten times. -/
theorem value_append_singleton (cs : List Char) (c : Char) : value (cs ++ [c]) = 10 * value cs + digitValue c := by
  rw [value, List.foldl_append]
  rfl

/-- A row of digits in which no zero stands in front of another digit is the numeral of its value. -/
theorem toDigits_value {cs : List Char} (hsome : cs ≠ []) (hdigits : ∀ c ∈ cs, c.isDigit = true)
    (hleading : ∀ rest, cs = '0' :: rest → rest = []) : Nat.toDigits 10 (value cs) = cs := by
  induction cs using List.reverseRecOn with
  | nil => exact absurd rfl hsome
  | append_singleton cs c ih =>
    obtain ⟨hchar, hten⟩ := digitChar_digitValue (hdigits c (by simp))
    rw [value_append_singleton]
    by_cases hfirst : cs = []
    · rw [hfirst]
      have hvalue : 10 * value [] + digitValue c = digitValue c := Nat.zero_add _
      rw [hvalue, Nat.toDigits_of_lt_base hten, hchar]
      rfl
    · have hfront : Nat.toDigits 10 (value cs) = cs := by
        refine ih hfirst (fun d hd => hdigits d (List.mem_append_left _ hd)) fun rest hrest => ?_
        have hnone := hleading (rest ++ [c]) (by rw [hrest, List.cons_append])
        exact (List.append_eq_nil_iff.1 hnone).1
      -- What stands before the last digit is no zero, so it goes on.
      have hpos : 0 < value cs := by
        refine Nat.pos_of_ne_zero fun hzero => ?_
        rw [hzero, Nat.toDigits_zero] at hfront
        have hnone := hleading [c] (by rw [← hfront]; rfl)
        exact List.cons_ne_nil c [] hnone
      rw [← Nat.toDigits_append_toDigits (by decide) hpos hten, hfront, Nat.toDigits_of_lt_base hten, hchar]

/-- A row of digits is read as its value when that fits a word. -/
theorem digits?_eq_some_iff {cs : List Char} :
    digits? cs = some n ↔ cs ≠ [] ∧ (∀ c ∈ cs, c.isDigit = true) ∧ value cs ≤ wordMax ∧ value cs = n := by
  unfold digits?
  split
  · rename_i h
    rw [List.all_eq_true] at h
    rw [Option.some.injEq]
    exact ⟨fun hn => ⟨h.1, h.2.1, h.2.2, hn⟩, fun hn => hn.2.2.2⟩
  · rename_i h
    rw [List.all_eq_true] at h
    constructor
    · intro hnone
      cases hnone
    · rintro ⟨hsome, hdigits, hword, _⟩
      exact absurd ⟨hsome, hdigits, hword⟩ h

/-- A text that is read as a position is the numeral of it, and the position fits a word. -/
theorem eq_toString_of_index? (h : index? text = some n) : text = toString n ∧ n ≤ wordMax := by
  unfold index? at h
  split at h
  · cases h
  · rename_i hleading
    obtain ⟨hsome, hdigits, hword, rfl⟩ := digits?_eq_some_iff.1 h
    have hnumeral : Nat.toDigits 10 (value text.toList) = text.toList := by
      refine toDigits_value hsome hdigits fun rest hrest => ?_
      cases rest with
      | nil => rfl
      | cons c rest => exact absurd hrest (hleading c rest)
    refine ⟨?_, hword⟩
    rw [← String.toList_inj, Nat.toString_eq_ofList_toDigits, String.toList_ofList, hnumeral]

/-- A text is read as a position exactly when it is the numeral of that position, which fits a word. -/
theorem index?_eq_some_iff : index? text = some n ↔ text = toString n ∧ n ≤ wordMax := by
  refine ⟨eq_toString_of_index?, ?_⟩
  rintro ⟨rfl, hword⟩
  exact index?_toString hword

/-- The digits of the numeral of a number come to the number again. -/
theorem value_toString (n : Nat) : value (toString n).toList = n := by
  rw [Nat.toString_eq_ofList_toDigits, String.toList_ofList]
  exact Nat.ofDigitChars_ten_toDigits

/-- The numeral of a number is no word. -/
theorem toString_ne_length (n : Nat) : toString n ≠ "length" := by
  intro h
  have hl : 'l' ∈ Nat.toDigits 10 n := by
    rw [← String.toList_ofList (l := Nat.toDigits 10 n), ← Nat.toString_eq_ofList_toDigits, h]
    decide
  have hdigit : 'l'.isDigit = true := Nat.isDigit_of_mem_toDigits (by decide) (by decide) hl
  revert hdigit
  decide

end Numeral

namespace Heap

/-- What the properties of an array are, given its elements: its length under that name, every element under the numeral of its
position, and undefined under all other names. Only a position that fits a word is asked for. -/
inductive ArrayProperty (items : List Value) : String → Value → Prop where
  | length : ArrayProperty items "length" (.number (Float.ofNat items.length))
  | element {i : Nat} (hi : i < items.length) (hword : i ≤ Numeral.wordMax) : ArrayProperty items (toString i) items[i]
  | absent {key : String} (hlength : key ≠ "length") (hkey : ∀ i < items.length, i ≤ Numeral.wordMax → key ≠ toString i) :
      ArrayProperty items key .undefined

variable {h : Heap} {cell : Nat} {key : String}

theorem index_array (i : Nat) : h.index (.array cell) i = ((h.elements cell)[i]?).getD .undefined := rfl

/-- The property of an array under a name that is not `length`. -/
theorem field_array (hlength : key ≠ "length") :
    h.field (.array cell) key = ((Numeral.index? key).map (h.index (.array cell))).getD .undefined := by
  rw [field]
  simp only [if_neg hlength]
  cases Numeral.index? key <;> rfl

/-- An array has the properties that it reads as having. -/
theorem arrayProperty_field (h : Heap) (cell : Nat) (key : String) :
    ArrayProperty (h.elements cell) key (h.field (.array cell) key) := by
  by_cases hlength : key = "length"
  · subst hlength
    exact .length
  · rw [field_array hlength]
    cases hindex : Numeral.index? key with
    | none =>
      refine .absent hlength fun i _ hword hkey => ?_
      rw [Numeral.index?_eq_some_iff.2 ⟨hkey, hword⟩] at hindex
      cases hindex
    | some i =>
      obtain ⟨rfl, hword⟩ := Numeral.index?_eq_some_iff.1 hindex
      rw [Option.map_some, Option.getD_some, index_array]
      by_cases hi : i < (h.elements cell).length
      · rw [List.getElem?_eq_getElem hi]
        exact .element hi hword
      · rw [List.getElem?_eq_none (Nat.le_of_not_lt hi)]
        refine .absent hlength fun j hj _ hkey => hi ?_
        rwa [Nat.repr_inj.1 hkey]

/-- An array has no property twice. -/
theorem ArrayProperty.unique {items : List Value} {v w : Value} (hv : ArrayProperty items key v) (hw : ArrayProperty items key w) :
    v = w := by
  cases hv with
  | length =>
    generalize hname : "length" = name at hw
    cases hw with
    | length => rfl
    | element _ _ => exact absurd hname.symm (Numeral.toString_ne_length _)
    | absent hlength _ => exact absurd hname.symm hlength
  | @element i hi hword =>
    generalize hname : toString i = name at hw
    cases hw with
    | length => exact absurd hname (Numeral.toString_ne_length i)
    | element _ _ =>
      cases Nat.repr_inj.1 hname
      rfl
    | absent _ hkey => exact absurd hname.symm (hkey i hi hword)
  | absent hlength hkey =>
    cases hw with
    | length => exact absurd rfl hlength
    | element hi hword => exact absurd rfl (hkey _ hi hword)
    | absent _ _ => rfl

end Heap

/-- What is read under the name of a property, in two parts.
1. From an array, whatever its length, its length under `length`, the element under the numeral of its position, and undefined under
   every other name.
2. A text is taken for a position exactly when it is the numeral of that position, which fits a word. So writing a position and
   reading it comes back to it, two texts that are taken for one position are the same, and a row of digits that comes to more than
   fits a word is taken for none, however long it is. -/
theorem properties_read :
    (∀ (h : Heap) cell key v, h.field (.array cell) key = v ↔ Heap.ArrayProperty (h.elements cell) key v) ∧
    (∀ key n, Numeral.index? key = some n ↔ key = toString n ∧ n ≤ Numeral.wordMax) ∧
    (∀ n ≤ Numeral.wordMax, Numeral.index? (toString n) = some n) ∧
    (∀ key key' n, Numeral.index? key = some n → Numeral.index? key' = some n → key = key') ∧
    ∀ key : String, (∀ c ∈ key.toList, c.isDigit = true) → Numeral.wordMax < Numeral.value key.toList → Numeral.index? key = none := by
  refine ⟨fun h cell key v => ⟨?_, ?_⟩, fun key n => Numeral.index?_eq_some_iff, fun n => Numeral.index?_toString, ?_, ?_⟩
  · rintro rfl
    exact Heap.arrayProperty_field h cell key
  · exact (Heap.arrayProperty_field h cell key).unique
  · intro key key' n hkey hkey'
    exact (Numeral.eq_toString_of_index? hkey).1.trans (Numeral.eq_toString_of_index? hkey').1.symm
  · intro key _ hlarge
    cases hindex : Numeral.index? key with
    | none => rfl
    | some n =>
      obtain ⟨rfl, hword⟩ := Numeral.eq_toString_of_index? hindex
      rw [Numeral.value_toString] at hlarge
      exact absurd hword (Nat.not_le.2 hlarge)

/-- A row of two. Its second element stands under one numeral alone: not under one with a zero or a sign in front, nor under digits of
another script, nor under the numeral that would be its own if words were counted round. -/
theorem properties_read_row :
    let h : Heap := ⟨#[[.null, .bool true]], #[], 0⟩
    h.field (.array 0) "length" = .number (Float.ofNat 2) ∧ h.field (.array 0) "1" = .bool true ∧
      (∀ key ∈ ["2", "01", "+1", "-0", "", "1.0", "१", "18446744073709551617"], h.field (.array 0) key = .undefined) ∧
      Numeral.index? "18446744073709551615" = some 18446744073709551615 ∧ Numeral.index? "18446744073709551617" = none := by
  intro h
  obtain ⟨hfield, _, hwritten, _, hlarge⟩ := properties_read
  have hone : toString 1 = "1" := rfl
  refine ⟨(hfield _ _ _ _).2 .length, ?_, fun key hkey => (hfield _ _ _ _).2 (.absent ?_ ?_), ?_, ?_⟩
  · exact (hfield h 0 "1" _).2 (.element (i := 1) (by decide) (by decide))
  · rintro rfl
    revert hkey
    decide
  · intro i hi _
    have htwo : i < 2 := hi
    interval_cases i
    · rintro rfl
      revert hkey
      decide
    · rintro rfl
      revert hkey
      decide
  · exact hwritten 18446744073709551615 (by decide)
  · exact hlarge _ (List.all_eq_true.1 (by cbv)) (by cbv)

end Conform
