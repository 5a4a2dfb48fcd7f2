import Conform.Proofs.Conformance

/-!
# The written form of a type token

A text is read as a token exactly when the base of the token is a word and the text is the token as it is written, so tokens over
words and the texts that are read stand for each other one to one (`token_forms`). Behind a word, what is read is decided by the
rest of the text alone (`TypeToken.parse?_word_append`). The judge writes a token down again when it passes to what the token
abbreviates: it cuts off the last suffix, and what is left is read as the token meant.
-/

namespace Conform

namespace TypeToken

instance : DecidablePred IsWordLetter := fun c => decidable_of_iff (isWordChar c = true) (isWordChar_iff c)

/-- A word and a rest that does not go on with the word are read as the word with the suffixes that the rest spells. -/
theorem parse?_word_append {w : String} (hw : IsWord w) {rest : List Char} (hrest : rest.takeWhile isWordChar = []) :
    parse? (w ++ String.ofList rest) = (suffixes? rest).map fun s => ⟨w, s.1, s.2⟩ := by
  have hall := hw.all_isWordChar
  have hdrop : rest.dropWhile isWordChar = rest := by
    have hsplit := List.takeWhile_append_dropWhile (p := isWordChar) (l := rest)
    rwa [hrest, List.nil_append] at hsplit
  obtain ⟨c, cs, hcs⟩ := List.exists_cons_of_ne_nil hw.1
  unfold parse?
  rw [String.toList_append, String.toList_ofList, List.takeWhile_append_of_pos hall, List.dropWhile_append_of_pos hall, hrest,
    hdrop, List.append_nil, hcs]
  cases suffixes? rest with
  | none => rfl
  | some s => simp only [← hcs, String.ofList_toList, Option.map_some]

/-- A text is read as a token exactly when the base of the token is a word and the text is its written form. -/
theorem parse?_eq_some_iff {text : String} {t : TypeToken} : parse? text = some t ↔ IsWord t.base ∧ text = t.text := by
  constructor
  · intro h
    exact ⟨isWord_of_parse? h, (text_of_parse? h).symm⟩
  · rintro ⟨hw, rfl⟩
    exact parse?_text t hw

/-- What follows a text that is read is read together with its suffixes. -/
theorem parse?_append_of_parse? {text : String} {t : TypeToken} (h : parse? text = some t) (more : List Char)
    (hmore : (t.suffixText ++ more).takeWhile isWordChar = []) :
    parse? (text ++ String.ofList more) = (suffixes? (t.suffixText ++ more)).map fun s => ⟨t.base, s.1, s.2⟩ := by
  have htext : text = t.base ++ String.ofList t.suffixText := by
    rw [← String.toList_inj, String.toList_append, String.toList_ofList]
    exact toList_of_parse? h
  rw [← parse?_word_append (isWord_of_parse? h) hmore, htext, String.append_assoc, String.ofList_append]

/-- Behind the suffix `?` no other suffix is read. -/
theorem parse?_append_of_optional {text : String} {t : TypeToken} (h : parse? text = some t) (ho : t.optional = true) :
    parse? (text ++ "?") = none ∧ parse? (text ++ "[]") = none := by
  have hmark := parse?_append_of_parse? h ['?']
  have hbrackets := parse?_append_of_parse? h ['[', ']']
  obtain ⟨base, array, optional⟩ := t
  subst ho
  cases array with
  | true => exact ⟨hmark rfl, hbrackets rfl⟩
  | false => exact ⟨hmark rfl, hbrackets rfl⟩

/-- The suffix `[]` is not read twice. -/
theorem parse?_append_of_array {text : String} {t : TypeToken} (h : parse? text = some t) (ha : t.array = true) :
    parse? (text ++ "[]") = none := by
  have hbrackets := parse?_append_of_parse? h ['[', ']']
  obtain ⟨base, array, optional⟩ := t
  subst ha
  cases optional with
  | true => exact hbrackets rfl
  | false => exact hbrackets rfl

/-- A text that is read consists of ASCII letters, ASCII digits, underscores, brackets and question marks. -/
theorem isWordLetter_of_mem {text : String} {t : TypeToken} (h : parse? text = some t) {c : Char} (hc : c ∈ text.toList) :
    IsWordLetter c ∨ c ∈ ['[', ']', '?'] := by
  rw [toList_of_parse? h] at hc
  rcases List.mem_append.1 hc with hc | hc
  · exact Or.inl ((isWord_of_parse? h).2 c hc)
  · right
    have hsigns : t.suffixText ⊆ ['[', ']', '?'] := by
      obtain ⟨base, array, optional⟩ := t
      cases array <;> cases optional <;> simp [suffixText]
    exact hsigns hc

/-! ### Cutting off a suffix -/

/-- The suffix `?` is the last one written. -/
theorem text_withoutOptional_append {t : TypeToken} (ho : t.optional = true) : t.withoutOptional.text ++ "?" = t.text := by
  obtain ⟨base, array, optional⟩ := t
  subst ho
  cases array <;> simp [text_eq, withoutOptional]

/-- Without `?` the suffix `[]` is the last one written. -/
theorem text_element_append {t : TypeToken} (ho : t.optional = false) (ha : t.array = true) : t.element.text ++ "[]" = t.text := by
  obtain ⟨base, array, optional⟩ := t
  subst ho ha
  simp [text_eq, element]

end TypeToken

/-- A token among the parts of what a token abbreviates is that token without its last suffix. -/
theorem text_of_mem_expansion {text text' : String} {t : TypeToken} {n : Node Definition} (ht : TypeToken.parse? text = some t)
    (hn : t.expansion? = some n) (hmem : Definition.token text' ∈ n.children) : text = text' ++ "?" ∨ text = text' ++ "[]" := by
  rcases expansion?_cases hn with ⟨ho, rfl⟩ | ⟨ho, ha, rfl⟩
  · simp only [Node.optional, Node.children, List.mem_cons, reduceCtorEq, List.not_mem_nil, or_false, false_or,
      Definition.token.injEq] at hmem
    rw [hmem, TypeToken.text_withoutOptional_append ho, TypeToken.text_of_parse? ht]
    exact Or.inl rfl
  · simp only [Node.arrayOf, Node.children, List.mem_singleton, Definition.token.injEq] at hmem
    rw [hmem, TypeToken.text_element_append ho ha, TypeToken.text_of_parse? ht]
    exact Or.inr rfl

/-- A call about a token that can be opened from another token, through what that one abbreviates, is about that token without
its last suffix. -/
theorem Validator.text_of_canOpen {vd : Validator} {path : Path} {v : Value} {text text' : String} {c c' : Call}
    (hopen : vd.CanOpen ⟨path, v, .definition (.token text)⟩ c) (hopen' : vd.CanOpen c c')
    (hsubject : c'.subject = .definition (.token text')) : text = text' ++ "?" ∨ text = text' ++ "[]" := by
  obtain ⟨_, hpart⟩ := hopen.part
  obtain ⟨_, hpart'⟩ := hopen'.part
  generalize c.subject = s at hpart hpart'
  cases hpart with
  | abbreviated ht hn =>
    rw [hsubject] at hpart'
    cases hpart' with
    | unfolded hmem => exact text_of_mem_expansion ht hn hmem

/-- Tokens and their texts, in five parts.
1. A text is read as a token exactly when the base of the token is one or more ASCII letters, ASCII digits and underscores and the
   text is the token as written.
2. So a token over a word is read back from its text, a text that is read is the text of its token, and two tokens over words
   with the same text are the same.
3. Any other text is refused: one with another character, be it a line end or a letter beyond ASCII, one that goes on behind
   `?`, and one that repeats `[]`.
4. The text of a token without its suffix `?`, and that of the element of an array token, are read as just these tokens.
5. When the judge passes from a token to a token, through what the first one abbreviates, the text loses its last suffix. -/
theorem token_forms :
    (∀ text t, TypeToken.parse? text = some t ↔ TypeToken.IsWord t.base ∧ text = t.text) ∧
    ((∀ t : TypeToken, TypeToken.IsWord t.base → TypeToken.parse? t.text = some t) ∧
      (∀ text t, TypeToken.parse? text = some t → t.text = text) ∧
      ∀ t u : TypeToken, TypeToken.IsWord t.base → TypeToken.IsWord u.base → t.text = u.text → t = u) ∧
    ((∀ text : String, ∀ c ∈ text.toList, ¬TypeToken.IsWordLetter c → c ∉ ['[', ']', '?'] → TypeToken.parse? text = none) ∧
      ∀ text t, TypeToken.parse? text = some t →
        (t.optional = true → TypeToken.parse? (text ++ "?") = none ∧ TypeToken.parse? (text ++ "[]") = none) ∧
        (t.array = true → TypeToken.parse? (text ++ "[]") = none)) ∧
    (∀ text t, TypeToken.parse? text = some t → TypeToken.parse? t.withoutOptional.text = some t.withoutOptional ∧
      (t.array = true → TypeToken.parse? t.element.text = some t.element)) ∧
    ∀ (vd : Validator) path v text c c' text', vd.CanOpen ⟨path, v, .definition (.token text)⟩ c → vd.CanOpen c c' →
      c'.subject = .definition (.token text') →
      (text = text' ++ "?" ∨ text = text' ++ "[]") ∧ text'.length < text.length := by
  refine ⟨fun text t => TypeToken.parse?_eq_some_iff, ⟨TypeToken.parse?_text, fun text t => TypeToken.text_of_parse?, ?_⟩,
    ⟨?_, fun text t h => ⟨TypeToken.parse?_append_of_optional h, TypeToken.parse?_append_of_array h⟩⟩, ?_, ?_⟩
  · intro t u ht hu htext
    have hread := TypeToken.parse?_text t ht
    rw [htext, TypeToken.parse?_text u hu] at hread
    exact (Option.some.inj hread).symm
  · intro text c hc hletter hsign
    cases hread : TypeToken.parse? text with
    | none => rfl
    | some t => exact absurd (TypeToken.isWordLetter_of_mem hread hc) (not_or.2 ⟨hletter, hsign⟩)
  · intro text t h
    have hw := TypeToken.isWord_of_parse? h
    exact ⟨TypeToken.parse?_text t.withoutOptional hw, fun _ => TypeToken.parse?_text t.element hw⟩
  · intro vd path v text c c' text' hopen hopen' hsubject
    have hcut := Validator.text_of_canOpen hopen hopen' hsubject
    refine ⟨hcut, ?_⟩
    rcases hcut with rfl | rfl
    · rw [String.length_append]
      exact Nat.lt_add_of_pos_right (by decide)
    · rw [String.length_append]
      exact Nat.lt_add_of_pos_right (by decide)

/-! ### Names that may be missing -/

namespace NameList

/-- Nothing but tokens is needed. -/
def vd : Validator := ⟨.empty, .empty, none⟩

/-- Null held against a list of names that may be missing. -/
def whole : Call := ⟨[], .null, .definition (.token "name_1[]?")⟩

/-- Null held against what that abbreviates. -/
def middle : Call := whole.below (.null, .expansion (.optional (.token "name_1[]")))

/-- Null held against a list of names. -/
def cut : Call := middle.below (.null, .definition (.token "name_1[]"))

theorem whole_canOpen : vd.CanOpen whole middle := by
  have hinquiry : vd.inquiry whole = .all [(.null, .expansion (.optional (.token "name_1[]")))] := by cbv
  refine ⟨by cbv, _, ?_, rfl⟩
  rw [hinquiry]
  exact List.mem_singleton_self _

theorem middle_canOpen : vd.CanOpen middle cut := by
  have hinquiry : vd.inquiry middle =
      .any [(.null, .definition .null), (.null, .definition .undefined), (.null, .definition (.token "name_1[]"))] := by cbv
  refine ⟨by cbv, _, ?_, rfl⟩
  rw [hinquiry]
  exact List.mem_cons_of_mem _ (List.mem_cons_of_mem _ (List.mem_singleton_self _))

end NameList

/-- A list of names that may be missing is read as such and loses its last suffix on the way down. Behind its suffixes nothing is
read, be it a suffix again, the other suffix or a line end, and no word holds a letter with a diaeresis. -/
theorem token_forms_names :
    TypeToken.parse? "name_1[]?" = some ⟨"name_1", true, true⟩ ∧ TypeToken.parse? "name_1[]" = some ⟨"name_1", true, false⟩ ∧
      TypeToken.parse? "name_1" = some ⟨"name_1", false, false⟩ ∧ TypeToken.parse? "name_1[]??" = none ∧
      TypeToken.parse? "name_1[]?[]" = none ∧ TypeToken.parse? "name_1[][]" = none ∧
      TypeToken.parse? "name_1[]?\n" = none ∧ TypeToken.parse? "naïve" = none ∧ "name_1[]".length < "name_1[]?".length := by
  obtain ⟨hread, _, ⟨hletters, hsuffixes⟩, hrewritten, hsteps⟩ := token_forms
  have hwhole : TypeToken.parse? "name_1[]?" = some ⟨"name_1", true, true⟩ := by
    refine (hread _ _).2 ⟨⟨by decide, fun c hc => ?_⟩, by decide⟩
    exact (TypeToken.isWordChar_iff c).1 (List.all_eq_true.1 (by decide) c hc)
  obtain ⟨hlist, hword⟩ := hrewritten _ _ hwhole
  refine ⟨hwhole, hlist, hword rfl, ((hsuffixes _ _ hwhole).1 rfl).1, ((hsuffixes _ _ hwhole).1 rfl).2,
    (hsuffixes _ _ hlist).2 rfl, ?_, ?_, ?_⟩
  · exact hletters _ '\n' (by decide) (by decide) (by decide)
  · exact hletters _ 'ï' (by decide) (by decide) (by decide)
  · exact (hsteps NameList.vd _ _ _ _ _ _ NameList.whole_canOpen NameList.middle_canOpen rfl).2

end Conform
