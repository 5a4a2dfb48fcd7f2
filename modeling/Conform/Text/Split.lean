/-!
# Splitting texts

The parts of a text between the places where one character stands. There is one part more than there are such places, and parts
may be empty.
-/

namespace Conform.Split

/-- The parts of a text between separators. -/
def parts (separator : Char) : List Char → List (List Char)
  | [] => [[]]
  | c :: cs =>
    if c = separator then [] :: parts separator cs
    else match parts separator cs with
      | [] => [[c]]
      | part :: rest => (c :: part) :: rest

/-- There is always a part. -/
theorem parts_ne_nil (separator : Char) (cs : List Char) : parts separator cs ≠ [] := by
  cases cs with
  | nil => simp [parts]
  | cons c cs =>
    rw [parts]
    split
    · simp
    · split <;> simp

/-- No part holds the separator. -/
theorem separator_notMem_of_mem_parts {separator : Char} {cs part : List Char} (h : part ∈ parts separator cs) :
    separator ∉ part := by
  induction cs generalizing part with
  | nil =>
    obtain rfl : part = [] := by simpa [parts] using h
    simp
  | cons c cs ih =>
    rw [parts] at h
    split at h
    · rcases List.mem_cons.1 h with rfl | h
      · simp
      · exact ih h
    · rename_i hc
      split at h
      · rename_i hnil
        exact absurd hnil (parts_ne_nil _ _)
      · rename_i first rest hparts
        rcases List.mem_cons.1 h with rfl | h
        · intro hm
          rcases List.mem_cons.1 hm with e | hm
          · exact hc e.symm
          · exact ih (by simp [hparts]) hm
        · exact ih (by simp [hparts, h])

end Conform.Split
