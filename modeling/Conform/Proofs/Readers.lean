import Mathlib
import Conform.Document

/-!
# The readers of definition texts

Four readers take the text of a definition: `Tree.parse?`, `Tree.decode?`, `Tree.locatedText?`, which gives the place of an
error, and `SchemaDocument.parse?`, which also takes envelopes. They agree on every text that holds one JSON value and nothing
else but blanks. What follows the value is refused by the first two and not looked at by the other two, so the readers disagree
on the texts that begin with a definition and go on after it, and on no others (`readers_agree_of_whole`). That they agree on
every text is false (`readers_agree_false`).
-/

namespace Conform

namespace Json

/-- Whether a text is one value, with blanks around it. -/
def Whole (text : String) : Prop := ∃ j, first? text = .ok (j, none)

/-- A text is read when it is one value. -/
theorem parse?_eq_ok_iff {text : String} {j : Json} : parse? text = .ok j ↔ first? text = .ok (j, none) := by
  unfold parse?
  cases hfirst : first? text with
  | error e => simp
  | ok r =>
    obtain ⟨j', _ | e⟩ := r
    · simp
    · simp

end Json

namespace Tree

variable {text : String} {t : Tree}

/-- A definition is read from a text that is one value. -/
theorem parse?_eq_ok_iff : parse? text = .ok t ↔ ∃ j, Json.first? text = .ok (j, none) ∧ ofJson? j = .ok t := by
  unfold parse?
  cases hparse : Json.parse? text with
  | error e =>
    constructor
    · intro h
      cases h
    · rintro ⟨j, hj, _⟩
      rw [Json.parse?_eq_ok_iff.2 hj] at hparse
      cases hparse
  | ok j =>
    have hj : Json.first? text = .ok (j, none) := Json.parse?_eq_ok_iff.1 hparse
    constructor
    · intro h
      exact ⟨j, hj, h⟩
    · rintro ⟨j', hj', h⟩
      rw [hj] at hj'
      cases hj'
      exact h

/-- A definition is decoded from a text that is one value. -/
theorem decode?_eq_ok_iff : decode? text = .ok t ↔ ∃ j, Json.first? text = .ok (j, none) ∧ ofJson? j = .ok t := by
  unfold decode?
  cases hfirst : Json.first? text with
  | error e => simp
  | ok r =>
    obtain ⟨j, following⟩ := r
    cases htree : ofJson? j with
    | error e => simp [htree]
    | ok t' =>
      cases following with
      | none => simp [htree]
      | some e => simp [htree]

/-- A definition is located in a text that begins with a value, whatever follows. -/
theorem locatedText?_eq_ok_iff :
    locatedText? text = .ok t ↔ ∃ j following, Json.first? text = .ok (j, following) ∧ ofJson? j = .ok t := by
  unfold locatedText? located?
  cases hfirst : Json.first? text with
  | error e => simp
  | ok r =>
    obtain ⟨j, following⟩ := r
    cases htree : ofJson? j with
    | error e => simp [htree, Except.mapError]
    | ok t' => simp [htree, Except.mapError]

/-- Reading is locating in a text that is one value. -/
theorem parse?_eq_ok_iff_whole : parse? text = .ok t ↔ locatedText? text = .ok t ∧ Json.Whole text := by
  rw [parse?_eq_ok_iff, locatedText?_eq_ok_iff]
  constructor
  · rintro ⟨j, hj, ht⟩
    exact ⟨⟨j, none, hj, ht⟩, j, hj⟩
  · rintro ⟨⟨j, following, hj, ht⟩, j', hj'⟩
    rw [hj] at hj'
    cases hj'
    exact ⟨j, hj, ht⟩

end Tree

namespace SchemaDocument

/-- Whether a text begins with an envelope. -/
def BeginsWithEnvelope (text : String) : Prop :=
  ∃ fields following, Json.first? text = .ok (.object fields, following) ∧ isEnvelope fields = true

/-- A document that is no envelope is a definition with the default options. -/
theorem parse?_eq_ok_iff_of_bare {text : String} (hbare : ¬BeginsWithEnvelope text) {document : SchemaDocument} :
    parse? text = .ok document ↔ ∃ t, Tree.locatedText? text = .ok t ∧ document = ⟨t, {}⟩ := by
  unfold parse? Tree.locatedText?
  cases hfirst : Json.first? text with
  | error e => simp
  | ok r =>
    obtain ⟨j, following⟩ := r
    have hread : ofJson? j = bare? j := by
      cases j with
      | object fields =>
        have hfields : isEnvelope fields = false := by
          rw [← Bool.not_eq_true]
          intro henvelope
          exact hbare ⟨fields, following, hfirst, henvelope⟩
        simp [ofJson?, hfields]
      | _ => rfl
    simp only [hread, bare?]
    cases htree : Tree.located? j with
    | error e => simp [Except.map]
    | ok t => simp [Except.map, eq_comm]

end SchemaDocument

/-- How far the readers of definition texts agree, in four parts.
1. Reading and decoding give the same definition or both refuse the text.
2. What is read is what is located in a text that is one value. So on such a text all three agree, and every other text is
   refused by reading and by decoding.
3. A document that is no envelope is what is located in its text, with the default options.
4. Reading and locating disagree exactly on the texts that begin with a definition and are not one value. -/
theorem readers_agree_of_whole (text : String) :
    (∀ t, Tree.parse? text = .ok t ↔ Tree.decode? text = .ok t) ∧
    (∀ t, Tree.parse? text = .ok t ↔ Tree.locatedText? text = .ok t ∧ Json.Whole text) ∧
    (¬SchemaDocument.BeginsWithEnvelope text → ∀ document,
      SchemaDocument.parse? text = .ok document ↔ ∃ t, Tree.locatedText? text = .ok t ∧ document = ⟨t, {}⟩) ∧
    ((∃ t, ¬(Tree.parse? text = .ok t ↔ Tree.locatedText? text = .ok t)) ↔
      (∃ t, Tree.locatedText? text = .ok t) ∧ ¬Json.Whole text) := by
  refine ⟨fun t => ?_, fun t => Tree.parse?_eq_ok_iff_whole, ?_, ?_⟩
  · rw [Tree.parse?_eq_ok_iff, Tree.decode?_eq_ok_iff]
  · intro hbare document
    exact SchemaDocument.parse?_eq_ok_iff_of_bare hbare
  · simp only [Tree.parse?_eq_ok_iff_whole]
    constructor
    · rintro ⟨t, hdisagree⟩
      by_cases ht : Tree.locatedText? text = .ok t
      · exact ⟨⟨t, ht⟩, fun hwhole => hdisagree ⟨fun _ => ht, fun _ => ⟨ht, hwhole⟩⟩⟩
      · exact absurd ⟨fun h => h.1, fun h => absurd h ht⟩ hdisagree
    · rintro ⟨⟨t, ht⟩, hwhole⟩
      exact ⟨t, fun hagree => hwhole (hagree.2 ht).2⟩

/-- The text of null is one value and no envelope, so all four readers take it for null. -/
theorem readers_agree_of_whole_null :
    ¬SchemaDocument.BeginsWithEnvelope "null" ∧ Tree.decode? "null" = .ok .null ∧
      SchemaDocument.parse? "null" = .ok ⟨.null, {}⟩ := by
  have hfirst : Json.first? "null" = .ok (.null, none) := by cbv
  have hread : Tree.parse? "null" = .ok .null := Tree.parse?_eq_ok_iff.2 ⟨.null, hfirst, rfl⟩
  have hbare : ¬SchemaDocument.BeginsWithEnvelope "null" := by
    rintro ⟨fields, following, hfields, _⟩
    rw [hfirst] at hfields
    cases hfields
  obtain ⟨hdecode, hlocated, hdocument, _⟩ := readers_agree_of_whole "null"
  exact ⟨hbare, (hdecode .null).1 hread, (hdocument hbare _).2 ⟨.null, ((hlocated .null).1 hread).1, rfl⟩⟩

/-- The readers do not agree on every text: with a letter after null the text is refused by two of them and read by the others. -/
theorem readers_agree_false :
    ¬∀ text t, (Tree.parse? text = .ok t ↔ Tree.decode? text = .ok t) ∧
      (Tree.parse? text = .ok t ↔ Tree.locatedText? text = .ok t) ∧
      (¬SchemaDocument.BeginsWithEnvelope text →
        (Tree.parse? text = .ok t ↔ SchemaDocument.parse? text = .ok ⟨t, {}⟩)) := by
  intro hagree
  have hlocated : Tree.locatedText? "null x" = .ok .null := by cbv
  have hrefused : Tree.parse? "null x" = .error ⟨[], .notJson ⟨.trailingCharacters, ⟨1, 6⟩, []⟩⟩ := by cbv
  obtain ⟨_, hsame, _⟩ := hagree "null x" .null
  have hread := hsame.2 hlocated
  rw [hrefused] at hread
  cases hread

end Conform
