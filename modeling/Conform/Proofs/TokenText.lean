import Mathlib
import Conform.Definition

/-!
# The texts of type tokens

A token whose base is a word is read back from its written form (`parse?_text`), and every text that is read has a word for its
base (`isWord_of_parse?`), so reading and writing are inverse on such tokens. `levels` counts the levels that a definition opens
before it comes to a bare word: two for each suffix of a token (the node the token abbreviates, and the parts of that node).
-/

namespace Conform

namespace TypeToken

/-- An ASCII letter, an ASCII digit or an underscore. -/
def IsWordLetter (c : Char) : Prop :=
  ('a' ≤ c ∧ c ≤ 'z') ∨ ('A' ≤ c ∧ c ≤ 'Z') ∨ ('0' ≤ c ∧ c ≤ '9') ∨ c = '_'

/-- One or more ASCII letters, ASCII digits or underscores. -/
def IsWord (w : String) : Prop := w.toList ≠ [] ∧ ∀ c ∈ w.toList, IsWordLetter c

/-- The reader takes exactly the ASCII letters, the ASCII digits and the underscore into a word. -/
theorem isWordChar_iff (c : Char) : isWordChar c = true ↔ IsWordLetter c := by
  simp only [isWordChar, IsWordLetter, Char.isAlphanum, Char.isAlpha, Char.isUpper, Char.isLower, Char.isDigit, Bool.or_eq_true,
    Bool.and_eq_true, decide_eq_true_eq, beq_iff_eq, Char.le_def, UInt32.le_iff_toNat_le]
  constructor
  · rintro (((h | h) | h) | h)
    · exact Or.inr (Or.inl h)
    · exact Or.inl h
    · exact Or.inr (Or.inr (Or.inl h))
    · exact Or.inr (Or.inr (Or.inr h))
  · rintro (h | h | h | h)
    · exact Or.inl (Or.inl (Or.inr h))
    · exact Or.inl (Or.inl (Or.inl h))
    · exact Or.inl (Or.inr h)
    · exact Or.inr h

/-- Every character of a word is taken into it. -/
theorem IsWord.all_isWordChar {w : String} (h : IsWord w) : ∀ c ∈ w.toList, isWordChar c = true :=
  fun c hc => (isWordChar_iff c).2 (h.2 c hc)

/-- No suffix begins with a character of a word. -/
theorem takeWhile_suffixText (t : TypeToken) : t.suffixText.takeWhile isWordChar = [] := by
  obtain ⟨base, array, optional⟩ := t
  cases array <;> cases optional <;> rfl

theorem dropWhile_suffixText (t : TypeToken) : t.suffixText.dropWhile isWordChar = t.suffixText := by
  obtain ⟨base, array, optional⟩ := t
  cases array <;> cases optional <;> rfl

/-- The suffixes as written are read back. -/
theorem suffixes?_suffixText (t : TypeToken) : suffixes? t.suffixText = some (t.array, t.optional) := by
  obtain ⟨base, array, optional⟩ := t
  cases array <;> cases optional <;> rfl

/-- A token whose base is a word is read back from its written form. -/
theorem parse?_text (t : TypeToken) (h : IsWord t.base) : parse? t.text = some t := by
  have hall := h.all_isWordChar
  have htake : t.text.toList.takeWhile isWordChar = t.base.toList := by
    rw [text, String.toList_ofList, List.takeWhile_append_of_pos hall, takeWhile_suffixText, List.append_nil]
  have hdrop : t.text.toList.dropWhile isWordChar = t.suffixText := by
    rw [text, String.toList_ofList, List.dropWhile_append_of_pos hall, dropWhile_suffixText]
  obtain ⟨c, cs, hcs⟩ := List.exists_cons_of_ne_nil h.1
  unfold parse?
  rw [htake, hdrop, suffixes?_suffixText, hcs]
  simp only [← hcs, String.ofList_toList]

/-- The base of a text that is read is a word. -/
theorem isWord_of_parse? {text : String} {t : TypeToken} (h : parse? text = some t) : IsWord t.base := by
  unfold parse? at h
  split at h
  · simp at h
  · simp at h
  · rename_i c cs array optional htake hdrop
    simp only [Option.some.injEq] at h
    subst h
    refine ⟨by simp, fun x hx => ?_⟩
    rw [String.toList_ofList, ← htake] at hx
    exact (isWordChar_iff x).1 (List.all_eq_true.1 List.all_takeWhile x hx)

/-- The levels below a token: two for each of its suffixes. -/
def levels (t : TypeToken) : Nat := (if t.optional then 2 else 0) + (if t.array then 2 else 0)

/-- The suffix `?` makes two levels. -/
theorem levels_withoutOptional {t : TypeToken} (ho : t.optional = true) : t.withoutOptional.levels + 2 = t.levels := by
  obtain ⟨base, array, optional⟩ := t
  subst ho
  cases array <;> rfl

/-- The suffix `[]` makes two levels. -/
theorem levels_element {t : TypeToken} (ho : t.optional = false) (ha : t.array = true) : t.element.levels + 2 = t.levels := by
  obtain ⟨base, array, optional⟩ := t
  subst ho ha
  rfl

end TypeToken

/-- The levels that a definition opens through abbreviation: those of the token that a text spells, otherwise none. -/
def Definition.levels : Definition → Nat
  | .token text => (TypeToken.parse? text).elim 0 TypeToken.levels
  | _ => 0

/-- No definition opens more than four levels through abbreviation. -/
theorem Definition.levels_le (d : Definition) : d.levels ≤ 4 := by
  cases d with
  | token text =>
    simp only [Definition.levels]
    cases TypeToken.parse? text with
    | none => simp
    | some t =>
      simp only [Option.elim_some, TypeToken.levels]
      split <;> split <;> omega
  | _ => simp [Definition.levels]

/-- A token with a suffix abbreviates a union for `?`, else an array for `[]`. -/
theorem expansion?_cases {t : TypeToken} {n : Node Definition} (hn : t.expansion? = some n) :
    (t.optional = true ∧ n = .optional (.token t.withoutOptional.text)) ∨
      (t.optional = false ∧ t.array = true ∧ n = .arrayOf (.token t.element.text)) := by
  simp only [TypeToken.expansion?] at hn
  split at hn
  · rename_i ho
    exact Or.inl ⟨ho, (Option.some.inj hn).symm⟩
  · rename_i ho
    split at hn
    · rename_i ha
      exact Or.inr ⟨Bool.eq_false_iff.2 ho, ha, (Option.some.inj hn).symm⟩
    · simp at hn

/-- The parts of what a token abbreviates open two levels less than the token. -/
theorem levels_of_mem_expansion {text : String} {t : TypeToken} {n : Node Definition} {d : Definition}
    (ht : TypeToken.parse? text = some t) (hn : t.expansion? = some n) (hd : d ∈ n.children) :
    d.levels + 2 ≤ (Definition.token text).levels := by
  have hword := TypeToken.isWord_of_parse? ht
  have hlevels : (Definition.token text).levels = t.levels := by simp [Definition.levels, ht]
  rw [hlevels]
  rcases expansion?_cases hn with ⟨ho, rfl⟩ | ⟨ho, ha, rfl⟩
  · have hread : TypeToken.parse? t.withoutOptional.text = some t.withoutOptional := TypeToken.parse?_text _ hword
    have hle := TypeToken.levels_withoutOptional ho
    simp only [Node.optional, Node.children, List.mem_cons, List.not_mem_nil, or_false] at hd
    rcases hd with rfl | rfl | rfl
    · simp only [Definition.levels]
      omega
    · simp only [Definition.levels]
      omega
    · simp only [Definition.levels, hread, Option.elim_some]
      omega
  · have hread : TypeToken.parse? t.element.text = some t.element := TypeToken.parse?_text _ hword
    simp only [Node.arrayOf, Node.children, List.mem_singleton] at hd
    subst hd
    simp only [Definition.levels, hread, Option.elim_some]
    exact Nat.le_of_eq (TypeToken.levels_element ho ha)

/-- What a token abbreviates holds no node of a store. -/
theorem node_notMem_expansion {t : TypeToken} {n : Node Definition} (hn : t.expansion? = some n) (ref : Ref) :
    Definition.node ref ∉ n.children := by
  rcases expansion?_cases hn with ⟨_, rfl⟩ | ⟨_, _, rfl⟩
  · simp [Node.optional, Node.children]
  · simp [Node.arrayOf, Node.children]

end Conform
