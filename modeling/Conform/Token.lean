/-!
# Type tokens

A type token is a word with two optional suffixes, in this order: `[]` for an array of what the word names, and `?` for a value
that may be missing. A word is one or more ASCII letters, digits or underscores; `any` is the wildcard. `parse?` and `text` are
inverse to each other on tokens whose base is a word, so a token has one written form.
-/

namespace Conform

/-- A type token: its word and which suffixes follow it. -/
structure TypeToken where
  base : String
  array : Bool
  optional : Bool
  deriving DecidableEq, Repr

namespace TypeToken

/-- The word that stands for every value. -/
def wildcard : String := "any"

/-- Whether a character may stand in a word. -/
def isWordChar (c : Char) : Bool := c.isAlphanum || c == '_'

/-- The suffixes that a text after a word spells: for an array and for an optional value. -/
def suffixes? : List Char → Option (Bool × Bool)
  | [] => some (false, false)
  | ['?'] => some (false, true)
  | ['[', ']'] => some (true, false)
  | ['[', ']', '?'] => some (true, true)
  | _ => none

/-- The token that a text spells. None when the text is no token. -/
def parse? (text : String) : Option TypeToken :=
  match text.toList.takeWhile isWordChar, suffixes? (text.toList.dropWhile isWordChar) with
  | [], _ => none
  | _, none => none
  | c :: cs, some (array, optional) => some ⟨String.ofList (c :: cs), array, optional⟩

/-- The suffixes of a token as written. -/
def suffixText (t : TypeToken) : List Char :=
  (if t.array then ['[', ']'] else []) ++ (if t.optional then ['?'] else [])

/-- The written form of a token. -/
def text (t : TypeToken) : String := String.ofList (t.base.toList ++ t.suffixText)

/-- The token without the suffix `?`. -/
def withoutOptional (t : TypeToken) : TypeToken := { t with optional := false }

/-- The token of an element: the word alone. -/
def element (t : TypeToken) : TypeToken := ⟨t.base, false, false⟩

/-- Whether the word is the wildcard. -/
def isWildcard (t : TypeToken) : Bool := t.base == wildcard

/-- Suffixes are read from what a token with these suffixes ends in. -/
theorem suffixText_of_suffixes? {l : List Char} {t : TypeToken} (h : suffixes? l = some (t.array, t.optional)) :
    t.suffixText = l := by
  unfold suffixes? at h
  split at h <;> simp_all [suffixText]

/-- A text with a reading is the word followed by its suffixes. -/
theorem toList_of_parse? {text : String} {t : TypeToken} (h : parse? text = some t) :
    text.toList = t.base.toList ++ t.suffixText := by
  have hsplit := List.takeWhile_append_dropWhile (p := isWordChar) (l := text.toList)
  unfold parse? at h
  split at h
  · simp at h
  · simp at h
  · rename_i c cs array optional htake hdrop
    simp only [Option.some.injEq] at h
    subst h
    rw [← hsplit, htake, String.toList_ofList]
    exact congrArg _ (suffixText_of_suffixes? (t := ⟨_, array, optional⟩) hdrop).symm

/-- A text with a reading is its written form. -/
theorem text_of_parse? {text : String} {t : TypeToken} (h : parse? text = some t) : t.text = text := by
  rw [TypeToken.text, ← toList_of_parse? h, String.ofList_toList]

/-- Dropping the suffix `?` shortens the text. -/
theorem length_withoutOptional_lt {text : String} {t : TypeToken} (h : parse? text = some t) (ho : t.optional = true) :
    t.withoutOptional.text.length < text.length := by
  rw [← text_of_parse? h]
  simp only [TypeToken.text, ← String.length_toList, String.toList_ofList, List.length_append]
  simp only [suffixText, withoutOptional, ho, List.length_append]
  exact Nat.add_lt_add_left (Nat.lt_succ_self _) _

/-- Passing to the element of an array token shortens the text. -/
theorem length_element_lt {text : String} {t : TypeToken} (h : parse? text = some t) (ha : t.array = true) :
    t.element.text.length < text.length := by
  rw [← text_of_parse? h]
  simp only [TypeToken.text, ← String.length_toList, String.toList_ofList, List.length_append]
  simp [suffixText, element, ha]

end TypeToken

end Conform
