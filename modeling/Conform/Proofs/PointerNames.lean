import Mathlib
import Conform.Json.Pointer

/-!
# Pointers and the names they spell

The pointer that is built by going from field to field spells the names of these fields, whatever characters stand in them
(`names?_child`): a tilde and a slash inside a name are written as pairs, and reading the pairs back in the order `~1`, `~0` gives
the name again. `Leads` follows the names of a pointer into a value; unless a list has more positions than there are words, it
comes to what `select?` finds (`Leads.walk?_eq`).
-/

namespace Conform

namespace Split

/-- A text without the separator is a single part. -/
theorem parts_of_notMem {separator : Char} {part : List Char} (h : separator ∉ part) : parts separator part = [part] := by
  induction part with
  | nil => rfl
  | cons c cs ih =>
    obtain ⟨hc, hcs⟩ := List.ne_and_not_mem_of_not_mem_cons h
    rw [parts, if_neg hc.symm, ih hcs]

/-- What stands before the first separator is the first part. -/
theorem parts_append_cons {separator : Char} {part : List Char} (h : separator ∉ part) (rest : List Char) :
    parts separator (part ++ separator :: rest) = part :: parts separator rest := by
  induction part with
  | nil => rw [List.nil_append, parts, if_pos rfl]
  | cons c cs ih =>
    obtain ⟨hc, hcs⟩ := List.ne_and_not_mem_of_not_mem_cons h
    rw [List.cons_append, parts, if_neg hc.symm, ih hcs]

end Split

namespace Numeral

/-- The numeral of a number begins with a zero only if it is that digit. -/
theorem eq_nil_of_toDigits_eq_zero_cons {n : Nat} {rest : List Char} (h : Nat.toDigits 10 n = '0' :: rest) : rest = [] := by
  induction n using Nat.strongRecOn generalizing rest with
  | ind n ih =>
    by_cases hn : n < 10
    · rw [Nat.toDigits_of_lt_base hn] at h
      exact (List.cons.inj h).2.symm
    · -- The numeral begins as that of the tenth part, which is no zero.
      have hten : 10 ≤ n := Nat.le_of_not_lt hn
      rw [Nat.toDigits_of_base_le (by decide) hten] at h
      cases hfront : Nat.toDigits 10 (n / 10) with
      | nil => exact absurd hfront Nat.toDigits_ne_nil
      | cons c cs =>
        rw [hfront, List.cons_append, List.cons.injEq] at h
        obtain ⟨rfl, _⟩ := h
        have hcs : cs = [] := ih (n / 10) (by omega) hfront
        have hvalue : Nat.ofDigitChars 10 (Nat.toDigits 10 (n / 10)) 0 = n / 10 := Nat.ofDigitChars_ten_toDigits
        have hzero : n / 10 = 0 := by
          rw [← hvalue, hfront, hcs]
          rfl
        omega

/-- The numeral of a number that fits a word is read as the number. -/
theorem index?_toString {n : Nat} (h : n ≤ wordMax) : index? (toString n) = some n := by
  have htext : (toString n).toList = Nat.toDigits 10 n := Nat.toList_repr
  have hvalue : value (Nat.toDigits 10 n) = n := Nat.ofDigitChars_ten_toDigits
  have hdigits : (Nat.toDigits 10 n).all Char.isDigit = true :=
    List.all_eq_true.2 fun c hc => Nat.isDigit_of_mem_toDigits (by decide) (by decide) hc
  unfold index?
  rw [htext]
  split
  · rename_i c cs hleading
    exact absurd (eq_nil_of_toDigits_eq_zero_cons hleading) (List.cons_ne_nil c cs)
  · rw [digits?, if_pos ⟨Nat.toDigits_ne_nil, hdigits, hvalue.le.trans h⟩, hvalue]

end Numeral

namespace Pointer

/-! ### Names and tokens -/

section

variable {a b c x y : Char} {rest : List Char}

theorem replacePair_pair : replacePair a b c (a :: b :: rest) = c :: replacePair a b c rest := by
  rw [replacePair, if_pos ⟨rfl, rfl⟩]

/-- Another character than the first one of the pair stays. -/
theorem replacePair_cons_of_ne (h : x ≠ a) : replacePair a b c (x :: rest) = x :: replacePair a b c rest := by
  cases rest with
  | nil => rfl
  | cons y rest => rw [replacePair, if_neg fun hpair => h hpair.1]

/-- The first character of the pair stays when another one than the second follows. -/
theorem replacePair_cons_of_next_ne (h : y ≠ b) :
    replacePair a b c (x :: y :: rest) = x :: replacePair a b c (y :: rest) := by
  rw [replacePair, if_neg fun hpair => h hpair.2]

end

/-- A name is read back from the token that spells it. -/
theorem decode_encode (name : List Char) : decode (encode name) = name := by
  have hslashes : replacePair '~' '1' '/' (encode name) = name.flatMap fun c => if c = '~' then ['~', '0'] else [c] := by
    induction name with
    | nil => rfl
    | cons c cs ih =>
      simp only [encode, List.flatMap_cons] at ih ⊢
      by_cases htilde : c = '~'
      · simp only [htilde, if_true, List.cons_append, List.nil_append]
        rw [replacePair_cons_of_next_ne (by decide), replacePair_cons_of_ne (by decide), ih]
      · by_cases hslash : c = '/'
        · simp only [hslash, if_true, if_neg (show '/' ≠ '~' by decide), List.cons_append, List.nil_append]
          rw [replacePair_pair, ih]
        · simp only [if_neg htilde, if_neg hslash, List.cons_append, List.nil_append]
          rw [replacePair_cons_of_ne htilde, ih]
  rw [decode, hslashes]
  clear hslashes
  induction name with
  | nil => rfl
  | cons c cs ih =>
    simp only [List.flatMap_cons]
    by_cases htilde : c = '~'
    · simp only [htilde, if_true, List.cons_append, List.nil_append]
      rw [replacePair_pair, ih]
    · simp only [if_neg htilde, List.cons_append, List.nil_append]
      rw [replacePair_cons_of_ne htilde, ih]

/-- No token holds a slash. -/
theorem slash_notMem_encode (name : List Char) : '/' ∉ encode name := by
  intro h
  obtain ⟨c, _, hc⟩ := List.mem_flatMap.1 h
  by_cases htilde : c = '~'
  · simp [htilde] at hc
  · by_cases hslash : c = '/'
    · simp [hslash] at hc
    · simp only [if_neg htilde, if_neg hslash, List.mem_singleton] at hc
      exact hslash hc.symm

/-- The text of a pointer that is built name by name: every name as a token with a slash in front. -/
theorem toList_foldl_child (path : List String) (pointer : String) :
    (path.foldl child pointer).toList = pointer.toList ++ path.flatMap fun name => '/' :: encode name.toList := by
  induction path generalizing pointer with
  | nil => simp
  | cons name path ih =>
    rw [List.foldl_cons, ih, List.flatMap_cons, ← List.append_assoc]
    simp [child]

/-- Between the slashes of a pointer stand its tokens. -/
theorem parts_tokens (name : List Char) (path : List String) :
    Split.parts '/' (encode name ++ path.flatMap fun name => '/' :: encode name.toList) =
      encode name :: path.map fun name => encode name.toList := by
  induction path generalizing name with
  | nil => rw [List.flatMap_nil, List.append_nil, Split.parts_of_notMem (slash_notMem_encode name), List.map_nil]
  | cons next path ih =>
    rw [List.flatMap_cons, List.cons_append, Split.parts_append_cons (slash_notMem_encode name), ih, List.map_cons]

/-- The pointer that is built name by name spells these names. -/
theorem names?_child (path : List String) : names? (path.foldl child "") = some path := by
  unfold names?
  rw [toList_foldl_child]
  cases path with
  | nil => rfl
  | cons name path =>
    have hnames : (List.map (fun token => String.ofList (decode token)) (path.map fun name => encode name.toList)) = path := by
      rw [List.map_map]
      conv_rhs => rw [← List.map_id path]
      refine List.map_congr_left fun name _ => ?_
      simp [decode_encode]
    simp only [String.toList_empty, List.nil_append, List.flatMap_cons, List.cons_append, parts_tokens, List.map_cons, decode_encode,
      String.ofList_toList, hnames]

/-! ### Following names -/

/-- Whether names lead from a value to a part of it, one after the other: a name to the field of an object, the decimal numeral
of a position to the element of a list. -/
inductive Leads : List String → Json → Json → Prop where
  | here (j : Json) : Leads [] j j
  | field {names : List String} {key : String} {fields : List (String × Json)} {j k : Json}
      (hfield : Fields.get? fields key = some j) (h : Leads names j k) : Leads (key :: names) (.object fields) k
  | element {names : List String} {i : Nat} {items : List Json} {j k : Json} (hitem : items[i]? = some j)
      (h : Leads names j k) : Leads (toString i :: names) (.array items) k

/-- Names that lead to a part and names that lead on from there lead on from the start. -/
theorem Leads.append {names more : List String} {j k l : Json} (h : Leads names j k) (hmore : Leads more k l) :
    Leads (names ++ more) j l := by
  induction h with
  | here j => exact hmore
  | field hfield _ ih => exact .field hfield (ih hmore)
  | element hitem _ ih => exact .element hitem (ih hmore)

/-- Where no list on the way has more positions than words, walking along the names comes to where they lead. -/
theorem Leads.walk?_eq {names : List String} {j k : Json} (h : Leads names j k)
    (hword : ∀ names items, Leads names j (.array items) → items.length ≤ Numeral.wordMax + 1) : walk? names j = some k := by
  induction h with
  | here j => rfl
  | field hfield _ ih =>
    have hrest := ih fun names items hlist => hword _ items (.field hfield hlist)
    rw [walk?, step?, hfield, Option.bind_some, hrest]
  | @element names i items j k hitem _ ih =>
    have hrest := ih fun names items hlist => hword _ items (.element hitem hlist)
    have hlength := hword [] items (.here _)
    have hi := (List.getElem?_eq_some_iff.1 hitem).1
    have hindex : Numeral.index? (toString i) = some i := Numeral.index?_toString (by omega)
    rw [walk?, step?, hindex, Option.bind_some, hitem, Option.bind_some, hrest]

end Pointer

end Conform
