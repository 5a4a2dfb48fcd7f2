import Conform.Proofs.TokenForms
import Conform.Proofs.Unfolding
import Conform.Token.Explanation

/-!
# What an explanation says holds

The explanation of a text is read line by line: one of its lines says what the text accepts as a type token (`TypeToken.Says`). What
it says is meant of every value (`TokenSense.Describes`), and is so: the validator, which goes by priorities of its own, never
accepts or refuses a value against it (`explanation_truthful`). The token that is printed for a suffix is the one that the validator
goes on with, below the union or the array that the suffix stands for.

The printed token stands between quotes as it is, since nothing in a token has to be escaped (`Quoted.quote_text`); and a text that is
no token is quoted on a single line, whatever line ends it holds.
-/

namespace Conform

/-! ### Quoted texts -/

namespace Quoted

/-- No digit in base sixteen is a line end. -/
theorem newline_notMem_hex (n : Nat) : '\n' ∉ (Numeral.hex n).toList := by
  rw [Numeral.hex, String.toList_ofList]
  have hdigit : ∀ d < 16, Nat.digitChar d ≠ '\n' := by decide
  induction n using Nat.strongRecOn with
  | ind n ih =>
    by_cases hn : n < 16
    · rw [Nat.toDigits_of_lt_base hn, List.mem_singleton]
      exact (hdigit n hn).symm
    · have hle : 16 ≤ n := Nat.le_of_not_lt hn
      rw [Nat.toDigits_of_base_le (by decide) hle, List.mem_append, List.mem_singleton]
      rintro (hfront | hlast)
      · exact ih (n / 16) (by omega) hfront
      · exact hdigit (n % 16) (Nat.mod_lt n (by decide)) hlast.symm

/-- Quoting leaves no line end. -/
theorem newline_notMem_escape (c : Char) : '\n' ∉ escape c := by
  unfold escape
  split
  iterate 6 decide
  rename_i hnewline _ _ _
  split
  · rw [List.mem_singleton]
    exact fun h => hnewline h.symm
  · simp only [List.mem_append, not_or]
    exact ⟨⟨by decide, newline_notMem_hex c.toNat⟩, by decide⟩

/-- A quoted text is a single line. -/
theorem newline_notMem_quote (text : String) : '\n' ∉ (quote text).toList := by
  rw [quote, String.toList_ofList]
  simp only [List.mem_append, List.mem_flatMap, not_or, not_exists, not_and]
  exact ⟨⟨by decide, fun c _ => newline_notMem_escape c⟩, by decide⟩

/-- Printable ASCII but for the quote and the backslash is not escaped. -/
theorem escape_of_plain {c : Char} (hlow : 0x20 ≤ c.toNat) (hhigh : c.toNat < 0x7f) (hquote : c ≠ '"') (hbackslash : c ≠ '\\') :
    escape c = [c] := by
  unfold escape
  split
  · exact absurd rfl hquote
  · exact absurd rfl hbackslash
  iterate 4 exact absurd hlow (by decide)
  rw [Printable.isShown, if_pos hhigh, if_pos (by simpa using hlow)]

/-- The letters of a word are printable ASCII. -/
theorem range_of_isWordLetter {c : Char} (h : TypeToken.IsWordLetter c) : 0x20 ≤ c.toNat ∧ c.toNat < 0x7f := by
  have hrange : ∀ {low high : Char}, low ≤ c ∧ c ≤ high → low.toNat ≤ c.toNat ∧ c.toNat ≤ high.toNat :=
    fun h => ⟨UInt32.le_iff_toNat_le.1 h.1, UInt32.le_iff_toNat_le.1 h.2⟩
  rcases h with h | h | h | rfl
  iterate 3 exact ⟨le_trans (by decide) (hrange h).1, lt_of_le_of_lt (hrange h).2 (by decide)⟩
  decide

/-- What may stand in a token is not escaped. -/
theorem escape_of_isWordLetter {c : Char} (h : TypeToken.IsWordLetter c ∨ c ∈ ['[', ']', '?']) : escape c = [c] := by
  rcases h with h | h
  · obtain ⟨hlow, hhigh⟩ := range_of_isWordLetter h
    refine escape_of_plain hlow hhigh ?_ ?_
    · rintro rfl
      revert h
      decide
    · rintro rfl
      revert h
      decide
  · fin_cases h <;> rfl

/-- A token is quoted as it is. -/
theorem quote_text {t : TypeToken} (h : TypeToken.IsWord t.base) : quote t.text = "\"" ++ t.text ++ "\"" := by
  have hplain : t.text.toList.flatMap escape = t.text.toList := by
    conv_rhs => rw [← List.flatMap_singleton' t.text.toList]
    refine List.flatMap_congr fun c hc => ?_
    exact escape_of_isWordLetter (TypeToken.isWordLetter_of_mem (TypeToken.parse?_text t h) hc)
  rw [quote, hplain, ← String.toList_inj]
  simp

end Quoted

/-! ### The lines of an explanation -/

namespace TokenSense

/-- The line that says what a text accepts. A token in it stands between quotes as it is. -/
def line (text : String) : TokenSense → String
  | .noToken => Quoted.quote text ++ " is not a type token; it matches no value"
  | .optional inner => "reads as: union(null, undefined, \"" ++ inner ++ "\")"
  | .array element => "reads as: arrayOf(\"" ++ element ++ "\")"
  | .anything => "reads as: any value"
  | .kind name => "reads as: values whose runtime kind is `" ++ name ++ "`"

variable {text : String}

theorem line_noToken : noToken.line text = Quoted.quote text ++ " is not a type token; it matches no value" := rfl

theorem line_optional (inner : String) :
    (optional inner).line text = "reads as: union(null, undefined, \"" ++ inner ++ "\")" := rfl

theorem line_array (element : String) : (array element).line text = "reads as: arrayOf(\"" ++ element ++ "\")" := rfl

theorem line_anything : anything.line text = "reads as: any value" := rfl

theorem line_kind (name : String) : (kind name).line text = "reads as: values whose runtime kind is `" ++ name ++ "`" := rfl

/-- No two senses are said in the same line: it begins with a quote, or one of its first twelve characters tells the sense, and then
only the token or the kind can be different. -/
theorem line_injective {s s' : TokenSense} (h : s.line text = s'.line text) : s = s' := by
  rw [← String.toList_inj] at h
  cases s <;> cases s' <;>
    simp_all [line_noToken, line_optional, line_array, line_anything, line_kind, Quoted.quote]
  all_goals exact String.toList_inj.1 h

/-- A line that says a sense begins with a quote or with the letter `r`. -/
theorem head?_line (s : TokenSense) : (s.line text).toList.head? = some '"' ∨ (s.line text).toList.head? = some 'r' := by
  cases s <;> simp [line_noToken, line_optional, line_array, line_anything, line_kind, Quoted.quote]

end TokenSense

namespace TypeToken

/-- Whether the explanation of a text has a line. -/
def Prints (text line : String) : Prop := line.toList ∈ (explain text).toList.splitOn '\n'

/-- Whether the explanation of a text says that the text accepts what a sense does. -/
def Says (text : String) (sense : TokenSense) : Prop := Prints text (sense.line text)

variable {text line : String} {t : TypeToken}

/-- An explanation that is joined from lines has these lines. -/
theorem prints_iff {lines : List String} (htext : explain text = "\n".intercalate lines) (hsome : lines ≠ [])
    (hlines : ∀ l ∈ lines, '\n' ∉ l.toList) : Prints text line ↔ line ∈ lines := by
  have hsome' : lines.map String.toList ≠ [] := mt List.map_eq_nil_iff.1 hsome
  have hsplit : (explain text).toList.splitOn '\n' = lines.map String.toList := by
    rw [htext, String.toList_intercalate]
    exact List.splitOn_intercalate '\n' (List.forall_mem_map.2 hlines) hsome'
  simp only [Prints, hsplit, List.mem_map, String.toList_inj, exists_eq_right]

/-- What is printed of a text that is no token. -/
theorem prints_iff_of_none (ht : parse? text = none) : Prints text line ↔ line = TokenSense.noToken.line text := by
  have htext : explain text = "\n".intercalate [TokenSense.noToken.line text] := by
    rw [explain, ht, String.intercalate_singleton]
    rfl
  rw [prints_iff htext (List.cons_ne_nil _ _), List.mem_singleton]
  simp only [TokenSense.line_noToken, List.mem_singleton, forall_eq, String.toList_append, List.mem_append, not_or]
  exact ⟨Quoted.newline_notMem_quote text, by decide⟩

/-- The sense of a token goes by its last suffix, and for a word alone by whether it is the wildcard. -/
theorem sense_cases (t : TypeToken) :
    (t.optional = true ∧ t.sense = .optional t.withoutOptional.text) ∨
      (t.optional = false ∧ t.array = true ∧ t.sense = .array t.element.text) ∨
      (t.optional = false ∧ t.array = false ∧ t.base = wildcard ∧ t.sense = .anything) ∨
      (t.optional = false ∧ t.array = false ∧ t.base ≠ wildcard ∧ t.sense = .kind t.base) := by
  obtain ⟨base, array, optional⟩ := t
  cases optional with
  | true => exact Or.inl ⟨rfl, rfl⟩
  | false =>
    cases array with
    | true => exact Or.inr (Or.inl ⟨rfl, rfl, rfl⟩)
    | false =>
      by_cases hbase : base = wildcard
      · exact Or.inr (Or.inr (Or.inl ⟨rfl, rfl, hbase, by simp [sense, isWildcard, hbase]⟩))
      · exact Or.inr (Or.inr (Or.inr ⟨rfl, rfl, hbase, by simp [sense, isWildcard, hbase]⟩))

/-- The last line of the explanation of a token says its sense. -/
theorem reads_eq_line (h : IsWord t.base) : "reads as: " ++ senseText t.sense = t.sense.line text := by
  have hclose : "\")" = "\"" ++ ")" := by decide
  rcases t.sense_cases with ⟨_, hsense⟩ | ⟨_, _, hsense⟩ | ⟨_, _, _, hsense⟩ | ⟨_, _, _, hsense⟩
  · have hwritten : senseText t.sense = "union(null, undefined, " ++ Quoted.quote t.withoutOptional.text ++ ")" := by
      rw [hsense]
      rfl
    have hopen : "reads as: union(null, undefined, \"" = "reads as: " ++ "union(null, undefined, " ++ "\"" := by decide
    rw [hwritten, hsense, Quoted.quote_text (t := t.withoutOptional) h, TokenSense.line_optional, hopen, hclose]
    simp only [String.append_assoc]
  · have hwritten : senseText t.sense = "arrayOf(" ++ Quoted.quote t.element.text ++ ")" := by
      rw [hsense]
      rfl
    have hopen : "reads as: arrayOf(\"" = "reads as: " ++ "arrayOf(" ++ "\"" := by decide
    rw [hwritten, hsense, Quoted.quote_text (t := t.element) h, TokenSense.line_array, hopen, hclose]
    simp only [String.append_assoc]
  · rw [hsense]
    rfl
  · have hwritten : senseText t.sense = "values whose runtime kind is `" ++ t.base ++ "`" := by
      rw [hsense]
      rfl
    have hopen : "reads as: values whose runtime kind is `" = "reads as: " ++ "values whose runtime kind is `" := by decide
    rw [hwritten, hsense, TokenSense.line_kind, hopen]
    simp only [String.append_assoc]

/-- What stands in a token is no line end. -/
theorem newline_notMem_text (h : IsWord t.base) : '\n' ∉ t.text.toList := by
  intro hmem
  have hletter := isWordLetter_of_mem (parse?_text t h) hmem
  revert hletter
  decide

theorem newline_notMem_base (h : IsWord t.base) : '\n' ∉ t.base.toList := by
  intro hmem
  have hletter := h.2 _ hmem
  revert hletter
  decide

/-- A text between two others brings no line end when none of the three does. -/
theorem newline_notMem_append {front back : String} (hfront : '\n' ∉ front.toList) (hline : '\n' ∉ line.toList)
    (hback : '\n' ∉ back.toList) : '\n' ∉ (front ++ line ++ back).toList := by
  simp only [String.toList_append, List.mem_append, not_or]
  exact ⟨⟨hfront, hline⟩, hback⟩

/-- The sense of a token is said in a single line. -/
theorem newline_notMem_line (h : IsWord t.base) : '\n' ∉ (t.sense.line text).toList := by
  rcases t.sense_cases with ⟨_, hsense⟩ | ⟨_, _, hsense⟩ | ⟨_, _, _, hsense⟩ | ⟨_, _, _, hsense⟩
  · rw [hsense]
    exact newline_notMem_append (by decide) (newline_notMem_text (t := t.withoutOptional) h) (by decide)
  · rw [hsense]
    exact newline_notMem_append (by decide) (newline_notMem_text (t := t.element) h) (by decide)
  · rw [hsense, TokenSense.line_anything]
    decide
  · rw [hsense]
    exact newline_notMem_append (by decide) (newline_notMem_base h) (by decide)

/-- What is printed of a text that is a token. -/
theorem prints_iff_of_some (ht : parse? text = some t) :
    Prints text line ↔ line ∈ ["base:     " ++ t.base, "array:    " ++ flagText t.array, "optional: " ++ flagText t.optional,
      t.sense.line text] := by
  have hw : IsWord t.base := isWord_of_parse? ht
  have htext : explain text = "\n".intercalate ["base:     " ++ t.base, "array:    " ++ flagText t.array,
      "optional: " ++ flagText t.optional, t.sense.line text] := by
    rw [explain, ht, ← reads_eq_line hw]
    rfl
  have hflag : ∀ b, '\n' ∉ (flagText b).toList := by decide
  refine prints_iff htext (List.cons_ne_nil _ _) ?_
  simp [hflag, newline_notMem_base hw, newline_notMem_line hw]

/-- No line but the last one of an explanation says a sense. -/
theorem line_ne_append {sense : TokenSense} {c : Char} {front : List Char} (hquote : c ≠ '"') (hletter : c ≠ 'r') (rest : String) :
    sense.line text ≠ String.ofList (c :: front) ++ rest := by
  intro heq
  have hhead : (sense.line text).toList.head? = some '"' ∨ (sense.line text).toList.head? = some 'r' := sense.head?_line
  rw [heq, String.toList_append, String.toList_ofList] at hhead
  simp [hquote, hletter] at hhead

/-- An explanation says one thing: what the text accepts as it is read. -/
theorem says_iff {sense : TokenSense} : Says text sense ↔ sense = senseOf text := by
  unfold senseOf
  cases ht : parse? text with
  | none =>
    rw [Says, prints_iff_of_none ht]
    exact ⟨TokenSense.line_injective, congrArg _⟩
  | some t =>
    have hbase : sense.line text ≠ "base:     " ++ t.base := line_ne_append (by decide) (by decide) _
    have harray : sense.line text ≠ "array:    " ++ flagText t.array := line_ne_append (by decide) (by decide) _
    have hoptional : sense.line text ≠ "optional: " ++ flagText t.optional := line_ne_append (by decide) (by decide) _
    simp only [Says, prints_iff_of_some ht, List.mem_cons, List.not_mem_nil, or_false, hbase, harray, hoptional, false_or]
    exact ⟨TokenSense.line_injective, congrArg _⟩

end TypeToken

/-! ### What is judged -/

namespace Store

variable {s : Store}

/-- A leaf holds nothing. -/
theorem acc_of_leaf {d : Definition} (hd : ∀ ref, d ≠ .node ref) : Acc (fun e d => s.Holds d e) d :=
  Acc.intro d fun e he => by
    cases he with
    | part _ => exact absurd rfl (hd _)

/-- A new node over leaves is acyclic, whatever else the store holds. -/
theorem acyclicFrom_add {n : Node Definition} (hn : ∀ ref, Definition.node ref ∉ n.children) :
    (s.add n).1.AcyclicFrom (s.add n).2 := by
  refine acyclicFrom_of_acc (Acc.intro _ fun e he => acc_of_leaf ?_)
  rintro ref rfl
  have hmem : Definition.node ref ∈ ((s.add n).1.node ⟨n.kind, s.size⟩).children := Holds.mem_children he
  rw [node_add_self] at hmem
  exact hn ref hmem

end Store

namespace TokenSense

variable {heap : Heap} {s s' : Store} {v : Value} {text : String} {t : TypeToken}

/-- What a validator without a limit says of a value by a definition. -/
def verdict (heap : Heap) (s : Store) (v : Value) (d : Definition) : Except Defect Bool :=
  (Validator.validate ⟨heap, s, none⟩ v d).result

/-- What a sense says of a value: how the value is judged by the text as a token, whatever the store, and how by the union or the
array that is named, in whatever store that is built. -/
def Describes (heap : Heap) (v : Value) (text : String) : TokenSense → Prop
  | .noToken => ∀ s, verdict heap s v (.token text) = .ok false
  | .optional inner => ∀ s s' : Store, ∃ b, verdict heap s v (.token text) = .ok b ∧
      verdict heap (s'.union [.null, .undefined, .token inner]).1 v (s'.union [.null, .undefined, .token inner]).2 = .ok b
  | .array element => ∀ s s' : Store, ∃ b, verdict heap s v (.token text) = .ok b ∧
      verdict heap (s'.arrayOf (.token element) 0 none).1 v (s'.arrayOf (.token element) 0 none).2 = .ok b
  | .anything => ∀ s, verdict heap s v (.token text) = .ok true
  | .kind name => ∀ s, ∃ b, verdict heap s v (.token text) = .ok b ∧ (b = true ↔ v.kind.name = name)

/-- On an acyclic definition there is a verdict, which is whether the value conforms. -/
theorem exists_verdict (heap : Heap) (v : Value) {d : Definition} (h : s.AcyclicFrom d) :
    ∃ b, verdict heap s v d = .ok b ∧ (b = true ↔ Conforms heap s v d) := by
  obtain ⟨b, hb⟩ := Validator.exists_ok_of_acyclicFrom ⟨heap, s, none⟩ v rfl h
  exact ⟨b, hb, Validator.ok_iff_conforms ⟨heap, s, none⟩ (.root v d) hb⟩

/-- The verdict by a token is whether the value conforms to the text. -/
theorem exists_verdict_token (heap : Heap) (s : Store) (v : Value) (text : String) :
    ∃ b, verdict heap s v (.token text) = .ok b ∧ (b = true ↔ ConformsToText heap v text) := by
  have hacyclic : s.AcyclicFrom (.token text) := Store.acyclicFrom_of_acc (Store.acc_of_leaf nofun)
  obtain ⟨b, hb, hconforms⟩ := exists_verdict heap v hacyclic
  exact ⟨b, hb, hconforms.trans (conforms_token_iff heap s v text)⟩

/-- The verdict by a token with a suffix is the verdict by what the token abbreviates, built as a node. -/
theorem exists_verdict_expansion {n : Node Definition} (ht : TypeToken.parse? text = some t) (hn : t.expansion? = some n) :
    ∃ b, verdict heap s v (.token text) = .ok b ∧ verdict heap (s'.add n).1 v (s'.add n).2 = .ok b := by
  obtain ⟨b, hb, hconforms⟩ := exists_verdict_token heap s v text
  obtain ⟨b', hb', hconforms'⟩ := exists_verdict heap v (Store.acyclicFrom_add (s := s') (node_notMem_expansion hn))
  have hsame : Conforms heap (s'.add n).1 v (s'.add n).2 ↔ ConformsToText heap v text := by
    calc Conforms heap (s'.add n).1 v (.node ⟨n.kind, s'.size⟩)
      _ ↔ (Subject.expansion n).Conforms heap (s'.add n).1 v := by
        rw [conforms_node_iff, Store.node_add_self]
        rfl
      _ ↔ ConformsToToken heap v t := (conformsToToken_of_expansion? ht hn).symm
      _ ↔ ConformsToText heap v text := (conformsToText_of_parse? ht).symm
  have heq : b = b' := Bool.eq_iff_iff.2 (hconforms.trans (hsame.symm.trans hconforms'.symm))
  exact ⟨b, hb, heq ▸ hb'⟩

/-- The verdict by a word alone is whether the word is the wildcard or names the kind of the value. -/
theorem exists_verdict_word (heap : Heap) (s : Store) (v : Value) (ht : TypeToken.parse? text = some t)
    (hn : t.expansion? = none) : ∃ b, verdict heap s v (.token text) = .ok b ∧ (b = true ↔ ConformsToWord v t.base) := by
  obtain ⟨b, hb, hconforms⟩ := exists_verdict_token heap s v text
  exact ⟨b, hb, hconforms.trans ((conformsToText_of_parse? ht).trans (conformsToToken_of_expansion?_eq_none hn))⟩

/-- What a token is read as describes the validator. -/
theorem describes_sense (ht : TypeToken.parse? text = some t) : t.sense.Describes heap v text := by
  rcases t.sense_cases with ⟨ho, hsense⟩ | ⟨ho, ha, hsense⟩ | ⟨ho, ha, hbase, hsense⟩ | ⟨ho, ha, hbase, hsense⟩
  · have hn : t.expansion? = some (.optional (.token t.withoutOptional.text)) := by simp [TypeToken.expansion?, ho]
    rw [hsense]
    exact fun s s' => exists_verdict_expansion ht hn
  · have hn : t.expansion? = some (.arrayOf (.token t.element.text)) := by simp [TypeToken.expansion?, ho, ha]
    rw [hsense]
    exact fun s s' => exists_verdict_expansion ht hn
  · have hn : t.expansion? = none := by simp [TypeToken.expansion?, ho, ha]
    rw [hsense]
    intro s
    obtain ⟨b, hb, hword⟩ := exists_verdict_word heap s v ht hn
    rw [hb, hword.2 (Or.inl hbase)]
  · have hn : t.expansion? = none := by simp [TypeToken.expansion?, ho, ha]
    rw [hsense]
    intro s
    obtain ⟨b, hb, hword⟩ := exists_verdict_word heap s v ht hn
    exact ⟨b, hb, hword.trans (or_iff_right hbase)⟩

/-- What a text is read as describes the validator. -/
theorem describes_senseOf (heap : Heap) (v : Value) (text : String) : (TypeToken.senseOf text).Describes heap v text := by
  unfold TypeToken.senseOf
  cases ht : TypeToken.parse? text with
  | none =>
    intro s
    obtain ⟨b, hb, hconforms⟩ := exists_verdict_token heap s v text
    rw [hb, Bool.eq_false_iff.2 (mt hconforms.1 (not_conformsToText ht))]
  | some t => exact describes_sense ht

end TokenSense

/-- What the explanation of a text says of it as a type token holds of every value. In every explanation one thing is said. If it says
that the text is no token, no value is accepted; if it names a union of null, undefined and a token, or an array of a token, then
the verdict by the text is the one by that union or array; if it says that any value is accepted, every value is; and if it names a
kind, the values of that kind are accepted and no others. There always is a verdict: no defect is met. -/
theorem explanation_truthful (text : String) :
    (∃ sense, TypeToken.Says text sense) ∧
      ∀ sense, TypeToken.Says text sense → ∀ heap v, TokenSense.Describes heap v text sense := by
  refine ⟨⟨_, TypeToken.says_iff.2 rfl⟩, fun sense hsays heap v => ?_⟩
  rw [TypeToken.says_iff.1 hsays]
  exact TokenSense.describes_senseOf heap v text

/-- The explanation of a list that may be missing names the union with the list as such, so null and a list of texts are judged as by
this union; a line end behind a word leaves no token, and what is said of it is said in one line. -/
theorem explanation_truthful_texts :
    TypeToken.Says "string[]?" (.optional "string[]") ∧ TypeToken.Says "string\n" .noToken ∧
      (∀ heap v s s', ∃ b, TokenSense.verdict heap s v (.token "string[]?") = .ok b ∧
        TokenSense.verdict heap (Store.union s' [.null, .undefined, .token "string[]"]).1 v
          (Store.union s' [.null, .undefined, .token "string[]"]).2 = .ok b) ∧
      ∀ heap v s, TokenSense.verdict heap s v (.token "string\n") = .ok false := by
  have hlist : TypeToken.Says "string[]?" (.optional "string[]") := TypeToken.says_iff.2 (by decide)
  have hline : TypeToken.Says "string\n" .noToken := TypeToken.says_iff.2 (by decide)
  exact ⟨hlist, hline, fun heap v => (explanation_truthful "string[]?").2 _ hlist heap v,
    fun heap v => (explanation_truthful "string\n").2 _ hline heap v⟩

end Conform
