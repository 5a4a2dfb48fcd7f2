import Conform.Proofs.Cycle

/-!
# Conformance

What it means that a value conforms to a definition, said without the judge: one clause for each kind of definition. Wherever
the judge comes to an answer, below whatever path and with whatever limit, the answer is whether the value conforms
(`Validator.ok_iff_conforms`). The graph may be cyclic: then some calls come to no answer. On an acyclic graph, whatever the
values reach, every run without a limit does (`validate_adequate`).
-/

namespace Conform

/-- A class is another one, or extends a class that is below the other one. -/
inductive Class.Below : Class → Class → Prop where
  | same {c d : Class} (h : c.serial = d.serial) : Below c d
  | extending {serial : Nat} {name : String} {parent d : Class} (h : Below parent d) : Below (.extending serial name parent) d

/-- A value conforms to a bare word: the word is `any` or the name of the kind of the value. -/
def ConformsToWord (v : Value) (w : String) : Prop := w = "any" ∨ v.kind.name = w

/-- A value conforms to the text of a token: a word, `word[]` for the arrays whose elements all conform to the word, and either
of them with `?` for null, undefined and whatever conforms without it. -/
inductive ConformsToText (heap : Heap) : Value → String → Prop where
  | word {v : Value} {w : String} (hw : TypeToken.IsWord w) (h : ConformsToWord v w) : ConformsToText heap v w
  | array {v : Value} {w : String} {elements : List Value} (hw : TypeToken.IsWord w) (hv : heap.elements? v = some elements)
      (h : ∀ e ∈ elements, ConformsToWord e w) : ConformsToText heap v (w ++ "[]")
  | missing {v : Value} {w text : String} (hw : TypeToken.IsWord w) (ht : text = w ∨ text = w ++ "[]")
      (h : v = .null ∨ v = .undefined) : ConformsToText heap v (text ++ "?")
  | present {v : Value} {w text : String} (hw : TypeToken.IsWord w) (ht : text = w ∨ text = w ++ "[]")
      (h : ConformsToText heap v text) : ConformsToText heap v (text ++ "?")

/-- A value conforms to a definition. To a value taken as a definition that is neither a token nor a literal nothing conforms. -/
inductive Conforms (heap : Heap) (store : Store) : Value → Definition → Prop where
  | token {v : Value} {text : String} (h : ConformsToText heap v text) : Conforms heap store v (.token text)
  | null : Conforms heap store .null .null
  | undefined : Conforms heap store .undefined .undefined
  | nominal {v : Value} {own cls : Class} (hv : v.class? = some own) (h : own.Below cls) : Conforms heap store v (.nominal cls)
  | tuple {v : Value} {ref : Ref} {items : List Definition} {elements : List Value} (hn : store.node ref = .tuple items)
      (hv : heap.elements? v = some elements) (hlen : elements.length ≤ items.length)
      (h : ∀ i (hi : i < items.length), Conforms heap store (elements[i]?.getD .undefined) items[i]) :
      Conforms heap store v (.node ref)
  | bounded {v : Value} {ref : Ref} {min : Nat} {max : Option Nat} {element : Definition} {elements : List Value}
      (hn : store.node ref = .bounded element min max) (hv : heap.elements? v = some elements) (hmin : min ≤ elements.length)
      (hmax : ∀ m, max = some m → elements.length ≤ m) (h : ∀ e ∈ elements, Conforms heap store e element) :
      Conforms heap store v (.node ref)
  | union {v : Value} {ref : Ref} {alternatives : List Definition} {d : Definition} (hn : store.node ref = .union alternatives)
      (hd : d ∈ alternatives) (h : Conforms heap store v d) : Conforms heap store v (.node ref)
  | shape {v : Value} {ref : Ref} {fields : List (String × Definition)} (hn : store.node ref = .shape fields)
      (hv : v.isNonPrimitive = true) (h : ∀ f ∈ fields, Conforms heap store (heap.field v f.1) f.2) :
      Conforms heap store v (.node ref)

/-! ### Classes -/

/-- The chain of superclasses decides whether a class is below another one. -/
theorem Class.isSubclassOf_iff (c d : Class) : c.isSubclassOf d = true ↔ c.Below d := by
  induction c with
  | object =>
    simp only [Class.isSubclassOf, Class.chain, List.any_cons, List.any_nil, Bool.or_false, Class.same, beq_iff_eq]
    exact ⟨.same, fun h => by cases h with | same h => exact h⟩
  | extending serial name parent ih =>
    simp only [Class.isSubclassOf, Class.chain, List.any_cons, Bool.or_eq_true, Class.same, beq_iff_eq] at ih ⊢
    constructor
    · rintro (h | h)
      · exact .same h
      · exact .extending (ih.1 h)
    · intro h
      cases h with
      | same h => exact Or.inl h
      | extending h => exact Or.inr (ih.2 h)

/-- A value is an instance of a class when its own class is below it; only arrays and objects have a class. -/
theorem Value.instanceOf_iff (v : Value) (cls : Class) :
    (v.isNonPrimitive && v.instanceOf cls) = true ↔ ∃ own, v.class? = some own ∧ own.Below cls := by
  cases v <;> simp [Value.isNonPrimitive, Value.instanceOf, Value.class?, Class.isSubclassOf_iff]

/-! ### Tokens -/

/-- The written form of a token is its word followed by its suffixes. -/
theorem TypeToken.text_eq (t : TypeToken) :
    t.text = t.base ++ (if t.array then "[]" else "") ++ (if t.optional then "?" else "") := by
  rw [← String.toList_inj]
  obtain ⟨base, array, optional⟩ := t
  cases array <;> cases optional <;> simp [TypeToken.text, TypeToken.suffixText]

/-- A word with suffixes is read as the token they make. -/
theorem TypeToken.parse?_append {w : String} (array optional : Bool) (hw : IsWord w) :
    parse? (w ++ (if array then "[]" else "") ++ (if optional then "?" else "")) = some ⟨w, array, optional⟩ := by
  have h := parse?_text ⟨w, array, optional⟩ hw
  rwa [text_eq] at h

/-- What the text of a token asks for, given the token. -/
def ConformsToToken (heap : Heap) (v : Value) (t : TypeToken) : Prop :=
  (t.optional = true ∧ (v = .null ∨ v = .undefined)) ∨ (t.array = false ∧ ConformsToWord v t.base) ∨
    (t.array = true ∧ ∃ elements, heap.elements? v = some elements ∧ ∀ e ∈ elements, ConformsToWord e t.base)

/-- A word alone or with the suffix `[]` is read as a token, and as the same token with `?` when that follows. -/
theorem TypeToken.exists_parse?_append {w text : String} (hw : IsWord w) (ht : text = w ∨ text = w ++ "[]") :
    ∃ array, parse? text = some ⟨w, array, false⟩ ∧ parse? (text ++ "?") = some ⟨w, array, true⟩ := by
  rcases ht with rfl | rfl
  · exact ⟨false, by simpa using parse?_append false false hw, by simpa using parse?_append false true hw⟩
  · exact ⟨true, by simpa using parse?_append true false hw, by simpa using parse?_append true true hw⟩

/-- A text that a value conforms to is read as a token, and the value does what the token asks for. -/
theorem exists_token_of_conformsToText {heap : Heap} {v : Value} {text : String} (h : ConformsToText heap v text) :
    ∃ t, TypeToken.parse? text = some t ∧ ConformsToToken heap v t := by
  induction h with
  | word hw h => exact ⟨_, by simpa using TypeToken.parse?_append false false hw, Or.inr (Or.inl ⟨rfl, h⟩)⟩
  | array hw hv h => exact ⟨_, by simpa using TypeToken.parse?_append true false hw, Or.inr (Or.inr ⟨rfl, _, hv, h⟩)⟩
  | missing hw ht h =>
    obtain ⟨array, _, hmarked⟩ := TypeToken.exists_parse?_append hw ht
    exact ⟨_, hmarked, Or.inl ⟨rfl, h⟩⟩
  | present hw ht _ ih =>
    obtain ⟨array, hplain, hmarked⟩ := TypeToken.exists_parse?_append hw ht
    obtain ⟨t, hparse, hasked⟩ := ih
    cases Option.some.inj (hplain.symm.trans hparse)
    rcases hasked with ⟨hopt, _⟩ | hasked
    · simp at hopt
    · exact ⟨_, hmarked, Or.inr hasked⟩

/-- A value that does what a token without `?` asks for conforms to its text. -/
theorem conformsToText_of_required {heap : Heap} {v : Value} {w : String} {array : Bool} (hw : TypeToken.IsWord w)
    (h : (array = false ∧ ConformsToWord v w) ∨
      (array = true ∧ ∃ elements, heap.elements? v = some elements ∧ ∀ e ∈ elements, ConformsToWord e w)) :
    ConformsToText heap v (w ++ (if array then "[]" else "")) := by
  rcases h with ⟨rfl, h⟩ | ⟨rfl, elements, hv, h⟩
  · simpa using ConformsToText.word hw h
  · exact .array hw hv h

/-- A value conforms to a text when the text is read as a token and the value does what the token asks for. -/
theorem conformsToText_iff (heap : Heap) (v : Value) (text : String) :
    ConformsToText heap v text ↔ ∃ t, TypeToken.parse? text = some t ∧ ConformsToToken heap v t := by
  refine ⟨exists_token_of_conformsToText, ?_⟩
  rintro ⟨t, ht, hasked⟩
  have hw := TypeToken.isWord_of_parse? ht
  rw [← TypeToken.text_of_parse? ht, TypeToken.text_eq]
  obtain ⟨w, array, optional⟩ := t
  have hplain : w ++ (if array then "[]" else "") = w ∨ w ++ (if array then "[]" else "") = w ++ "[]" := by
    cases array <;> simp
  cases optional with
  | true =>
    rcases hasked with ⟨_, h⟩ | hasked
    · exact .missing hw hplain h
    · exact .present hw hplain (conformsToText_of_required hw hasked)
  | false =>
    rcases hasked with ⟨h, _⟩ | hasked
    · simp at h
    · simpa using conformsToText_of_required hw hasked

/-- A text that is no token asks for what no value does. -/
theorem not_conformsToText {heap : Heap} {v : Value} {text : String} (ht : TypeToken.parse? text = none) :
    ¬ConformsToText heap v text := by
  rw [conformsToText_iff]
  rintro ⟨t, hsome, _⟩
  simp [ht] at hsome

/-- A text that is read as a token asks for what the token asks for. -/
theorem conformsToText_of_parse? {heap : Heap} {v : Value} {text : String} {t : TypeToken}
    (ht : TypeToken.parse? text = some t) : ConformsToText heap v text ↔ ConformsToToken heap v t := by
  rw [conformsToText_iff]
  exact ⟨fun ⟨_, hsome, h⟩ => Option.some.inj (ht.symm.trans hsome) ▸ h, fun h => ⟨t, ht, h⟩⟩

/-! ### The questions of a subject -/

namespace Inquiry

variable {κ ι : Type}

theorem holds_settled (P : κ → Prop) (b : Bool) : (settled b).Holds P ↔ b = true := by
  cases b <;> simp [settled, Holds]

theorem holds_all (P : κ → Prop) (l : List κ) : (all l).Holds P ↔ ∀ k ∈ l, P k := by
  simp [all, Holds]

theorem holds_any (P : κ → Prop) (l : List κ) : (any l).Holds P ↔ ∃ k ∈ l, P k := by
  simp [any, Holds]

theorem holds_map (P : ι → Prop) (f : κ → ι) (q : Inquiry κ) : (q.map f).Holds P ↔ q.Holds fun k => P (f k) := by
  obtain ⟨decisive, questions⟩ := q
  cases decisive with
  | false => simp [map, Holds]
  | true =>
    simp only [map, Holds, if_true, List.mem_map]
    constructor
    · rintro ⟨_, ⟨k, hk, rfl⟩, h⟩
      exact ⟨k, hk, h⟩
    · rintro ⟨k, hk, h⟩
      exact ⟨f k, ⟨k, hk, rfl⟩, h⟩

end Inquiry

/-- Something holds of the questions of a tuple when it holds of every part and the element at its position. -/
theorem forall_mem_positions {δ : Type} {P : Value × δ → Prop} : ∀ {ds : List δ} {vs : List Value},
    (∀ q ∈ positions vs ds, P q) ↔ ∀ i (hi : i < ds.length), P (vs[i]?.getD .undefined, ds[i]) := by
  intro ds
  induction ds with
  | nil => intro vs; cases vs <;> simp [positions]
  | cons d ds ih =>
    intro vs
    have hstep : ∀ (v : Value) (rest : List Value), v = vs[0]?.getD .undefined → (∀ i, vs[i + 1]? = rest[i]?) →
        (P (v, d) ∧ (∀ q ∈ positions rest ds, P q) ↔
          ∀ i (hi : i < (d :: ds).length), P (vs[i]?.getD .undefined, (d :: ds)[i])) := by
      intro v rest hv hrest
      rw [ih]
      constructor
      · rintro ⟨h0, h⟩ i hi
        cases i with
        | zero => exact hv ▸ h0
        | succ i =>
          rw [hrest i]
          exact h i (Nat.lt_of_succ_lt_succ hi)
      · intro h
        refine ⟨hv ▸ h 0 (Nat.succ_pos _), fun i hi => ?_⟩
        rw [← hrest i]
        exact h (i + 1) (Nat.succ_lt_succ hi)
    cases vs with
    | nil => simpa only [positions, List.forall_mem_cons] using hstep .undefined [] rfl (by simp)
    | cons v vs => simpa only [positions, List.forall_mem_cons] using hstep v vs rfl (by simp)

/-- The bounds of an array are kept when they say so. -/
theorem admitsLength_iff (min : Nat) (max : Option Nat) (length : Nat) :
    admitsLength min max length = true ↔ min ≤ length ∧ ∀ m, max = some m → length ≤ m := by
  cases max <;> simp [admitsLength]

/-- When a value conforms to a node, yes is right to the questions the node comes to. -/
theorem holds_of_conforms_node {heap : Heap} {store : Store} {v : Value} {ref : Ref} (h : Conforms heap store v (.node ref)) :
    ((store.node ref).inquiry heap v).Holds fun q => Conforms heap store q.1 q.2 := by
  cases h with
  | tuple hn hv hlen h =>
    simp only [hn, Node.inquiry, hv, Nat.not_lt.2 hlen, if_false, Inquiry.holds_all]
    exact forall_mem_positions.2 h
  | @bounded _ _ min max element elements hn hv hmin hmax h =>
    have hlen := (admitsLength_iff min max elements.length).2 ⟨hmin, hmax⟩
    simp only [hn, Node.inquiry, hv, hlen, if_true, Inquiry.holds_all, List.forall_mem_map]
    exact h
  | @union _ _ alternatives d hn hd h =>
    simp only [hn, Node.inquiry, Inquiry.holds_any]
    exact ⟨_, List.mem_map_of_mem hd, h⟩
  | shape hn hv h =>
    simp only [hn, Node.inquiry, hv, if_true, Inquiry.holds_all, List.forall_mem_map]
    exact h

/-- A value conforms to a node when yes is right to the questions the node comes to. -/
theorem conforms_node_of_holds {heap : Heap} {store : Store} {v : Value} {ref : Ref}
    (h : ((store.node ref).inquiry heap v).Holds fun q => Conforms heap store q.1 q.2) : Conforms heap store v (.node ref) := by
  cases hn : store.node ref with
  | tuple items =>
    cases hv : heap.elements? v with
    | none => simp [hn, Node.inquiry, hv, Inquiry.holds_settled] at h
    | some elements =>
      by_cases hlen : items.length < elements.length
      · simp [hn, Node.inquiry, hv, hlen, Inquiry.holds_settled] at h
      · simp only [hn, Node.inquiry, hv, hlen, if_false, Inquiry.holds_all] at h
        exact .tuple hn hv (Nat.not_lt.1 hlen) (forall_mem_positions.1 h)
  | bounded element min max =>
    cases hv : heap.elements? v with
    | none => simp [hn, Node.inquiry, hv, Inquiry.holds_settled] at h
    | some elements =>
      by_cases hlen : admitsLength min max elements.length = true
      · simp only [hn, Node.inquiry, hv, hlen, if_true, Inquiry.holds_all, List.forall_mem_map] at h
        obtain ⟨hmin, hmax⟩ := (admitsLength_iff min max elements.length).1 hlen
        exact .bounded hn hv hmin hmax h
      · simp [hn, Node.inquiry, hv, hlen, Inquiry.holds_settled] at h
  | union alternatives =>
    simp only [hn, Node.inquiry, Inquiry.holds_any] at h
    obtain ⟨q, hq, h⟩ := h
    obtain ⟨d, hd, rfl⟩ := List.mem_map.1 hq
    exact .union hn hd h
  | shape fields =>
    by_cases hv : v.isNonPrimitive = true
    · simp only [hn, Node.inquiry, hv, if_true, Inquiry.holds_all, List.forall_mem_map] at h
      exact .shape hn hv h
    · simp [hn, Node.inquiry, hv, Inquiry.holds_settled] at h

/-- A value conforms to a node when yes is right to the questions of the node. -/
theorem conforms_node_iff {heap : Heap} {store : Store} {v : Value} {ref : Ref} :
    Conforms heap store v (.node ref) ↔ ((store.node ref).inquiry heap v).Holds fun q => Conforms heap store q.1 q.2 :=
  ⟨holds_of_conforms_node, conforms_node_of_holds⟩

/-- A value conforms to a shape when it is an array or an object whose properties conform to the fields. -/
theorem conforms_shape_iff {heap : Heap} {store : Store} {v : Value} {ref : Ref} {fields : List (String × Definition)}
    (hn : store.node ref = .shape fields) :
    Conforms heap store v (.node ref) ↔
      v.isNonPrimitive = true ∧ ∀ f ∈ fields, Conforms heap store (heap.field v f.1) f.2 := by
  rw [conforms_node_iff, hn, Node.inquiry]
  split
  · rename_i hv
    simp only [Inquiry.holds_all, List.forall_mem_map, hv, true_and]
  · rename_i hv
    simp only [Inquiry.holds_settled, hv, false_and, Bool.false_eq_true]

/-- Whether a value conforms to a leaf does not depend on the store. -/
theorem Conforms.of_leaf {heap : Heap} {s s' : Store} {v : Value} {d : Definition} (h : Conforms heap s v d)
    (hd : ∀ ref, d ≠ .node ref) : Conforms heap s' v d := by
  cases h with
  | token h => exact .token h
  | null => exact .null
  | undefined => exact .undefined
  | nominal hv h => exact .nominal hv h
  | _ => exact absurd rfl (hd _)

/-- A value conforms to a subject: to the definition, or to what the token abbreviates. -/
def Subject.Conforms (heap : Heap) (store : Store) (v : Value) : Subject → Prop
  | .definition d => Conform.Conforms heap store v d
  | .expansion n => (n.inquiry heap v).Holds fun q => Conform.Conforms heap store q.1 q.2

/-- Null alone conforms to the literal null. -/
theorem conforms_null_iff (heap : Heap) (store : Store) (v : Value) : Conforms heap store v .null ↔ v = .null :=
  ⟨fun h => by cases h with | null => rfl, fun h => h ▸ .null⟩

/-- Undefined alone conforms to the literal undefined. -/
theorem conforms_undefined_iff (heap : Heap) (store : Store) (v : Value) :
    Conforms heap store v .undefined ↔ v = .undefined :=
  ⟨fun h => by cases h with | undefined => rfl, fun h => h ▸ .undefined⟩

/-- A value conforms to a token when it conforms to its text. -/
theorem conforms_token_iff (heap : Heap) (store : Store) (v : Value) (text : String) :
    Conforms heap store v (.token text) ↔ ConformsToText heap v text :=
  ⟨fun h => by cases h with | token h => exact h, .token⟩

/-- A bare word admits the values that conform to it. -/
theorem admits_iff (t : TypeToken) (v : Value) : t.admits v = true ↔ ConformsToWord v t.base := by
  simp [TypeToken.admits, TypeToken.isWildcard, TypeToken.wildcard, ConformsToWord]

/-- A token without a suffix asks for its word. -/
theorem conformsToToken_of_expansion?_eq_none {heap : Heap} {v : Value} {t : TypeToken} (hn : t.expansion? = none) :
    ConformsToToken heap v t ↔ ConformsToWord v t.base := by
  simp only [TypeToken.expansion?] at hn
  split at hn
  · simp at hn
  · rename_i ho
    split at hn
    · simp at hn
    · rename_i ha
      simp [ConformsToToken, ho, ha]

/-- A token with a suffix asks for what it abbreviates. -/
theorem conformsToToken_of_expansion? {heap : Heap} {store : Store} {v : Value} {text : String} {t : TypeToken}
    {n : Node Definition} (ht : TypeToken.parse? text = some t) (hn : t.expansion? = some n) :
    ConformsToToken heap v t ↔ (Subject.expansion n).Conforms heap store v := by
  have hw := TypeToken.isWord_of_parse? ht
  have hpart : ∀ (w : Value) (t' : TypeToken), t'.base = t.base →
      (Conforms heap store w (.token t'.text) ↔ ConformsToToken heap w t') := by
    intro w t' hbase
    rw [conforms_token_iff, conformsToText_of_parse? (TypeToken.parse?_text t' (hbase ▸ hw))]
  rcases expansion?_cases hn with ⟨ho, rfl⟩ | ⟨ho, ha, rfl⟩
  · simp only [Subject.Conforms, Node.optional, Node.inquiry, Inquiry.holds_any, List.map_cons, List.map_nil, List.mem_cons,
      List.not_mem_nil, or_false, exists_eq_or_imp, exists_eq_left, conforms_null_iff, conforms_undefined_iff,
      hpart v t.withoutOptional rfl]
    simp [ConformsToToken, TypeToken.withoutOptional, ho, or_assoc]
  · have hadmits : ∀ length, admitsLength 0 none length = true := by simp [admitsLength]
    cases hv : heap.elements? v with
    | none => simp [Subject.Conforms, Node.arrayOf, Node.inquiry, hv, Inquiry.holds_settled, ConformsToToken, ho, ha]
    | some elements =>
      simp only [Subject.Conforms, Node.arrayOf, Node.inquiry, hv, hadmits, if_true, Inquiry.holds_all, List.forall_mem_map,
        hpart _ t.element rfl]
      simp [ConformsToToken, TypeToken.element, ho, ha, hv]

/-- A value conforms to a subject when yes is right to the questions the subject comes to. -/
theorem Subject.conforms_iff_holds (heap : Heap) (store : Store) (v : Value) (s : Subject) :
    s.Conforms heap store v ↔ (s.inquiry heap store v).Holds fun q => q.2.Conforms heap store q.1 := by
  cases s with
  | expansion n =>
    rw [Subject.inquiry, Inquiry.holds_map]
    exact Iff.rfl
  | definition d =>
    cases d with
    | null =>
      rw [Subject.inquiry, Inquiry.holds_settled]
      exact (conforms_null_iff heap store v).trans (by cases v <;> simp [Value.isNull])
    | undefined =>
      rw [Subject.inquiry, Inquiry.holds_settled]
      exact (conforms_undefined_iff heap store v).trans (by cases v <;> simp [Value.isUndefined])
    | nominal cls =>
      rw [Subject.inquiry, Inquiry.holds_settled, Value.instanceOf_iff]
      constructor
      · intro h
        cases h with
        | nominal hv h => exact ⟨_, hv, h⟩
      · rintro ⟨own, hv, h⟩
        exact .nominal hv h
    | other w =>
      rw [Subject.inquiry, Inquiry.holds_settled]
      exact ⟨fun h => (by cases h), fun h => absurd h Bool.false_ne_true⟩
    | node ref =>
      rw [Subject.inquiry, Inquiry.holds_map]
      exact conforms_node_iff
    | token text =>
      show Conform.Conforms heap store v (.token text) ↔ _
      rw [conforms_token_iff]
      cases ht : TypeToken.parse? text with
      | none =>
        simp only [Subject.inquiry, ht, Inquiry.holds_settled]
        exact iff_of_false (not_conformsToText ht) Bool.false_ne_true
      | some t =>
        rw [conformsToText_of_parse? ht]
        cases hn : t.expansion? with
        | none =>
          simp only [Subject.inquiry, ht, hn, Inquiry.holds_settled, admits_iff]
          exact conformsToToken_of_expansion?_eq_none hn
        | some n =>
          simp only [Subject.inquiry, ht, hn, Inquiry.holds_all, List.mem_singleton, forall_eq]
          exact conformsToToken_of_expansion? ht hn

/-- Whenever a call comes to an answer, the answer is whether its value conforms to its subject. -/
theorem Validator.ok_iff_conforms (vd : Validator) (c : Call) {b : Bool} (h : (vd.answer c).result = .ok b) :
    b = true ↔ c.subject.Conforms vd.heap vd.store c.value := by
  induction c using vd.call_induction generalizing b with
  | step c ih =>
    have hclear := obstacle?_eq_none_of_ok h
    rw [answer_of_obstacle?_eq_none hclear] at h
    rw [Subject.conforms_iff_holds]
    refine Inquiry.run_iff_holds (fun q hq c' hc' => ?_) h
    exact ih (c.below q) ⟨hclear, q, hq, rfl⟩ hc'

/-! ### Acyclic definitions -/

/-- Without a limit, a run on an acyclic definition comes to an answer. -/
theorem Validator.exists_ok_of_acyclicFrom (vd : Validator) (v : Value) {d : Definition} (hlimit : vd.limit = none)
    (h : vd.store.AcyclicFrom d) : ∃ b, (vd.validate v d).result = .ok b := by
  cases hresult : (vd.validate v d).result with
  | ok b => exact ⟨b, rfl⟩
  | error defect =>
    exfalso
    cases defect with
    | circular node depth => exact vd.result_ne_circular h v node depth hresult
    | tooDeep n =>
      obtain ⟨c, _, hn, _⟩ := exists_reached_of_tooDeep (c := .root v d) hresult
      simp [hlimit] at hn

/-- On an acyclic definition a run without a limit comes to an answer, whatever the value reaches, and the answer is whether the
value conforms to the definition. -/
theorem validate_adequate (heap : Heap) (store : Store) (v : Value) (d : Definition) (h : store.AcyclicFrom d) :
    ∃ b, (Validator.validate ⟨heap, store, none⟩ v d).result = .ok b ∧ (b = true ↔ Conforms heap store v d) := by
  obtain ⟨b, hb⟩ := Validator.exists_ok_of_acyclicFrom ⟨heap, store, none⟩ v rfl h
  exact ⟨b, hb, Validator.ok_iff_conforms ⟨heap, store, none⟩ (.root v d) hb⟩

/-! ### A value that reaches itself -/

namespace SelfReference

/-- An object with a number of items, if it is known, and a field that is absent, null or an object. -/
def store : Store :=
  ⟨#[.shape [("size", .token "number?"), ("self", .node ⟨.union, 1⟩)], .row [.undefined, .null, .token "object"]]⟩

/-- The definition of such an object. -/
def root : Definition := .node ⟨.shape, 0⟩

/-- An object that is its own field. -/
def heap : Heap := ⟨#[], #[[("self", .object .object 0)]], 0⟩

/-- The shape holds the union, which holds no node. -/
theorem acyclicFrom : store.AcyclicFrom root := Store.acyclicFrom_of_lt (by decide) _

end SelfReference

/-- Whether an object that is its own field conforms to an acyclic definition is answered. -/
theorem validate_adequate_selfReference :
    SelfReference.store.AcyclicFrom SelfReference.root ∧
      ∃ b, (Validator.validate ⟨SelfReference.heap, SelfReference.store, none⟩ (.object .object 0) SelfReference.root).result =
        .ok b ∧ (b = true ↔ Conforms SelfReference.heap SelfReference.store (.object .object 0) SelfReference.root) :=
  ⟨SelfReference.acyclicFrom, validate_adequate _ _ _ _ SelfReference.acyclicFrom⟩

end Conform
