import Conform.Proofs.DistinctKeys
import Conform.Proofs.Walks

/-!
# How deep a text may nest

`Json.ReadAs` says that a text is the text of a value, however deep it nests. Such a text is read exactly when it nests no deeper
than the levels that the reader has (`Json.ReadAs.first?_eq_ok_iff`). For a reader of a list, an object or a value walks over what it
reads, as deep as the walk goes it needs levels, and with that many levels or more it reads the same (`Json.Measured`).
-/

namespace Conform

namespace Json

/-- Whether a text is one value with blanks around it, however deep it nests. -/
def ReadAs (text : String) (j : Json) : Prop :=
  ∃ levels rest, readValue levels text.toList = .ok (j, rest) ∧ skipBlank rest = []

/-! ### Lists and objects -/

section Members

variable {read : List Char → Reading Json} {fuel : Nat} {cs rest : List Char} {j : Json}

/-- Elements are one element and a closing bracket, or one element, a comma and the other elements. -/
theorem readItems_succ_eq_ok_iff {done items : List Json} : readItems read (fuel + 1) done cs = .ok (items, rest) ↔
    ∃ item after, read cs = .ok (item, after) ∧
      ((skipBlank after = ']' :: rest ∧ (item :: done).reverse = items) ∨
        ∃ more, skipBlank after = ',' :: more ∧ skipBlank more ≠ [] ∧ (skipBlank more).head? ≠ some ']' ∧
          readItems read fuel (item :: done) (skipBlank more) = .ok (items, rest)) := by
  constructor
  · intro hread
    rw [readItems] at hread
    split at hread
    · cases hread
    · rename_i item after hitem
      refine ⟨item, after, mapError_eq_ok_iff.1 hitem, ?_⟩
      split at hread
      · cases hread
      · rename_i hafter
        cases hread
        exact Or.inl ⟨hafter, rfl⟩
      · rename_i more hafter
        split at hread
        · cases hread
        · cases hread
        · rename_i hsome hother
          refine Or.inr ⟨more, hafter, hsome, fun hhead => ?_, hread⟩
          obtain ⟨_, heq⟩ := List.head?_eq_some_iff.1 hhead
          exact hother _ heq
      · cases hread
  · rintro ⟨item, after, hitem, ⟨hafter, hitems⟩ | ⟨more, hafter, hsome, hother, hrest⟩⟩
    · rw [readItems, hitem]
      simp only [Reading.within, Except.mapError, hafter, hitems]
    · rw [readItems, hitem]
      simp only [Reading.within, Except.mapError, hafter]
      split
      · contradiction
      · rename_i heq
        rw [heq] at hother
        exact absurd rfl hother
      · exact hrest

/-- A list is a closing bracket, or its elements. -/
theorem readList_eq_ok_iff : readList read cs = .ok (j, rest) ↔
    (skipBlank cs = ']' :: rest ∧ .array [] = j) ∨
      skipBlank cs ≠ [] ∧ (skipBlank cs).head? ≠ some ']' ∧
        ∃ items, readItems read (skipBlank cs).length [] (skipBlank cs) = .ok (items, rest) ∧ .array items = j := by
  constructor
  · intro hread
    unfold readList at hread
    split at hread
    · cases hread
    · rename_i hclose
      cases hread
      exact Or.inl ⟨hclose, rfl⟩
    · rename_i hsome hother
      obtain ⟨⟨items, rest'⟩, hitems, heq⟩ := map_eq_ok_iff.1 hread
      cases heq
      refine Or.inr ⟨hsome, fun hhead => ?_, items, hitems, rfl⟩
      obtain ⟨_, heq⟩ := List.head?_eq_some_iff.1 hhead
      exact hother _ heq
  · rintro (⟨hclose, rfl⟩ | ⟨hsome, hother, items, hitems, rfl⟩)
    · simp only [readList, hclose]
    · unfold readList
      split
      · contradiction
      · rename_i heq
        rw [heq] at hother
        exact absurd rfl hother
      · exact map_eq_ok_iff.2 ⟨_, hitems, rfl⟩

/-- A field is a key, a colon and a value. -/
theorem readField_eq_ok_iff {f : String × Json} : readField read ('"' :: cs) = .ok (f, rest) ↔
    ∃ after more, readString (cs.length + 1) [] cs = .ok (f.1, after) ∧ skipBlank after = ':' :: more ∧
      read more = .ok (f.2, rest) := by
  obtain ⟨key, j⟩ := f
  constructor
  · intro hread
    unfold readField at hread
    split at hread
    · cases hread
    · rename_i key' after hkey
      obtain ⟨⟨j', rest'⟩, hmember, heq⟩ := map_eq_ok_iff.1 hread
      cases heq
      unfold readMember at hmember
      split at hmember
      · cases hmember
      · rename_i more hcolon
        exact ⟨after, more, mapError_eq_ok_iff.1 hkey, hcolon, mapError_eq_ok_iff.1 hmember⟩
      · cases hmember
  · rintro ⟨after, more, hkey, hcolon, hj⟩
    have hkey' : readString ('"' :: cs).length [] (('"' :: cs).drop 1) = .ok (key, after) := hkey
    simp only [readField, hkey', readMember, hcolon, hj, Reading.within, Except.mapError, Except.map]

/-- Fields are one field and a closing brace, or one field, a comma and the other fields. -/
theorem readFields_succ_eq_ok_iff {done fields : List (String × Json)} :
    readFields read (fuel + 1) done cs = .ok (fields, rest) ↔
      ∃ f after, readField read cs = .ok (f, after) ∧
        ((skipBlank after = '\x7d' :: rest ∧ Fields.insert done f.1 f.2 = fields) ∨
          ∃ more next, skipBlank after = ',' :: more ∧ skipBlank more = '"' :: next ∧
            readFields read fuel (Fields.insert done f.1 f.2) ('"' :: next) = .ok (fields, rest)) := by
  constructor
  · intro hread
    rw [readFields] at hread
    split at hread
    · cases hread
    · rename_i key item after hfield
      refine ⟨(key, item), after, hfield, ?_⟩
      split at hread
      · cases hread
      · rename_i hafter
        cases hread
        exact Or.inl ⟨hafter, rfl⟩
      · rename_i more hafter
        split at hread
        · cases hread
        · cases hread
        · rename_i next hnext
          exact Or.inr ⟨more, next, hafter, hnext, hread⟩
        · cases hread
      · cases hread
  · rintro ⟨f, after, hfield, ⟨hafter, hfields⟩ | ⟨more, next, hafter, hnext, hrest⟩⟩
    · rw [readFields, hfield]
      simp only [hafter, hfields]
    · rw [readFields, hfield]
      simp only [hafter, hnext, hrest]

/-- An object is a closing brace, or its fields. -/
theorem readObject_eq_ok_iff : readObject read cs = .ok (j, rest) ↔
    (skipBlank cs = '\x7d' :: rest ∧ .object [] = j) ∨
      ∃ next fields, skipBlank cs = '"' :: next ∧
        readFields read (next.length + 1) [] ('"' :: next) = .ok (fields, rest) ∧ .object fields = j := by
  constructor
  · intro hread
    unfold readObject at hread
    split at hread
    · cases hread
    · rename_i hclose
      cases hread
      exact Or.inl ⟨hclose, rfl⟩
    · rename_i next hnext
      obtain ⟨⟨fields, rest'⟩, hfields, heq⟩ := map_eq_ok_iff.1 hread
      cases heq
      exact Or.inr ⟨next, fields, hnext, hfields, rfl⟩
    · cases hread
  · rintro (⟨hclose, rfl⟩ | ⟨next, fields, hnext, hfields, rfl⟩)
    · simp only [readObject, hclose]
    · simp only [readObject, hnext, hfields, Except.map]

end Members

/-! ### Levels -/

/-- Whether what a reader takes off a text, up to a mark that closes it, is some levels deep, of those that are open to the reader,
and is taken as well where that many levels are open, or more, and the text goes on with a closing brace. -/
def Measured {α : Type} (read : Nat → List Char → Reading α) (n : Nat) (closing : List Char) : Prop :=
  ∀ cs a rest, read n cs = .ok (a, rest) → ∃ d ≤ n, Walk d .plain cs .plain (closing ++ rest) ∧
    ∀ m, d ≤ m → ∀ tail, Stops tail → read m (cs ++ tail) = .ok (a, rest ++ tail)

section Measured

variable {n fuel : Nat} {cs rest : List Char}

theorem readItems_measured (hread : Measured readValue n []) {done items : List Json}
    (h : readItems (readValue n) fuel done cs = .ok (items, rest)) : ∃ d ≤ n, Walk d .plain cs .plain (']' :: rest) ∧
      ∀ m, d ≤ m → ∀ tail, Stops tail → ∀ more, fuel ≤ more →
        readItems (readValue m) more done (cs ++ tail) = .ok (items, rest ++ tail) := by
  induction fuel generalizing done cs with
  | zero => cases h
  | succ fuel ih =>
    obtain ⟨item, after, hitem, hcase⟩ := readItems_succ_eq_ok_iff.1 h
    obtain ⟨d, hd, hwalk, hvalue⟩ := hread _ _ _ hitem
    rcases hcase with ⟨hafter, hitems⟩ | ⟨next, hafter, hsome, hother, hrest⟩
    · have hdeep := hwalk.trans (walk_blanks hafter)
      rw [Nat.max_zero] at hdeep
      refine ⟨d, hd, hdeep, fun m hm tail htail more hmore => ?_⟩
      obtain ⟨more, rfl⟩ := Nat.exists_eq_add_of_le' hmore
      refine readItems_succ_eq_ok_iff.2 ⟨item, after ++ tail, hvalue m hm tail htail, Or.inl ⟨?_, hitems⟩⟩
      rw [htail.skipBlank_append, hafter, List.cons_append]
    · obtain ⟨e, he, hwalk', hitems⟩ := ih hrest
      refine ⟨max d e, max_le hd he, hwalk.trans ((walk_comma hafter).after hwalk'), fun m hm tail htail more hmore => ?_⟩
      obtain ⟨more, rfl⟩ := Nat.exists_eq_add_of_le' hmore
      refine readItems_succ_eq_ok_iff.2 ⟨item, after ++ tail, hvalue m (le_of_max_le_left hm) tail htail,
        Or.inr ⟨next ++ tail, ?_, ?_, ?_, ?_⟩⟩
      · rw [htail.skipBlank_append, hafter, List.cons_append]
      · rw [htail.skipBlank_append]
        exact List.append_ne_nil_of_left_ne_nil hsome _
      · rw [htail.skipBlank_append, List.head?_append_of_ne_nil _ hsome]
        exact hother
      · rw [htail.skipBlank_append]
        exact hitems m (le_of_max_le_right hm) tail htail _ (Nat.le_add_left _ _)

theorem readList_measured (hread : Measured readValue n []) : Measured (fun m => readList (readValue m)) n [']'] := by
  intro cs j rest h
  rcases readList_eq_ok_iff.1 h with ⟨hclose, hj⟩ | ⟨hsome, hother, items, hitems, hj⟩
  · refine ⟨0, Nat.zero_le n, walk_blanks hclose, fun m _ tail htail => readList_eq_ok_iff.2 (Or.inl ⟨?_, hj⟩)⟩
    rw [htail.skipBlank_append, hclose, List.cons_append]
  · obtain ⟨d, hd, hwalk, hmore⟩ := readItems_measured hread hitems
    refine ⟨d, hd, (walk_skipBlank cs).after hwalk, fun m hm tail htail => readList_eq_ok_iff.2 (Or.inr ⟨?_, ?_, items, ?_, hj⟩)⟩
    · rw [htail.skipBlank_append]
      exact List.append_ne_nil_of_left_ne_nil hsome _
    · rw [htail.skipBlank_append, List.head?_append_of_ne_nil _ hsome]
      exact hother
    · rw [htail.skipBlank_append]
      exact hmore m hm tail htail _ (by simp)

theorem readField_measured (hread : Measured readValue n []) {f : String × Json}
    (h : readField (readValue n) ('"' :: cs) = .ok (f, rest)) : ∃ d ≤ n, Walk d .plain ('"' :: cs) .plain rest ∧
      ∀ m, d ≤ m → ∀ tail, Stops tail → readField (readValue m) ('"' :: (cs ++ tail)) = .ok (f, rest ++ tail) := by
  obtain ⟨after, more, hkey, hcolon, hvalue⟩ := readField_eq_ok_iff.1 h
  obtain ⟨hquoted, hkey'⟩ := readString_steady hkey
  obtain ⟨d, hd, hwalk, hmore⟩ := hread _ _ _ hvalue
  have hopen : Walk 0 .plain ('"' :: cs) .plain after := Walk.cons (fun _ => rfl) hquoted
  have hafter : Walk d .plain after .plain rest := (walk_blanks hcolon).after (hwalk.clear (by simp [Clear]))
  refine ⟨d, hd, hopen.after hafter, fun m hm tail htail => readField_eq_ok_iff.2 ⟨after ++ tail, more ++ tail, ?_, ?_, ?_⟩⟩
  · exact hkey' tail htail _ (by simp)
  · rw [htail.skipBlank_append, hcolon, List.cons_append]
  · exact hmore m hm tail htail

theorem readFields_measured (hread : Measured readValue n []) {done fields : List (String × Json)}
    (h : readFields (readValue n) fuel done ('"' :: cs) = .ok (fields, rest)) :
    ∃ d ≤ n, Walk d .plain ('"' :: cs) .plain ('\x7d' :: rest) ∧
      ∀ m, d ≤ m → ∀ tail, Stops tail → ∀ more, fuel ≤ more →
        readFields (readValue m) more done ('"' :: (cs ++ tail)) = .ok (fields, rest ++ tail) := by
  induction fuel generalizing done cs with
  | zero => cases h
  | succ fuel ih =>
    obtain ⟨f, after, hfield, hcase⟩ := readFields_succ_eq_ok_iff.1 h
    obtain ⟨d, hd, hwalk, hvalue⟩ := readField_measured hread hfield
    rcases hcase with ⟨hafter, hfields⟩ | ⟨next, cs', hafter, hnext, hrest⟩
    · have hdeep := hwalk.trans (walk_blanks hafter)
      rw [Nat.max_zero] at hdeep
      refine ⟨d, hd, hdeep, fun m hm tail htail more hmore => ?_⟩
      obtain ⟨more, rfl⟩ := Nat.exists_eq_add_of_le' hmore
      refine readFields_succ_eq_ok_iff.2 ⟨f, after ++ tail, hvalue m hm tail htail, Or.inl ⟨?_, hfields⟩⟩
      rw [htail.skipBlank_append, hafter, List.cons_append]
    · obtain ⟨e, he, hwalk', hfields⟩ := ih hrest
      refine ⟨max d e, max_le hd he, hwalk.trans ((hnext ▸ walk_comma hafter).after hwalk'),
        fun m hm tail htail more hmore => ?_⟩
      obtain ⟨more, rfl⟩ := Nat.exists_eq_add_of_le' hmore
      refine readFields_succ_eq_ok_iff.2 ⟨f, after ++ tail, hvalue m (le_of_max_le_left hm) tail htail,
        Or.inr ⟨next ++ tail, cs' ++ tail, ?_, ?_, ?_⟩⟩
      · rw [htail.skipBlank_append, hafter, List.cons_append]
      · rw [htail.skipBlank_append, hnext, List.cons_append]
      · exact hfields m (le_of_max_le_right hm) tail htail _ (Nat.le_add_left _ _)

theorem readObject_measured (hread : Measured readValue n []) : Measured (fun m => readObject (readValue m)) n ['\x7d'] := by
  intro cs j rest h
  rcases readObject_eq_ok_iff.1 h with ⟨hclose, hj⟩ | ⟨next, fields, hnext, hfields, hj⟩
  · refine ⟨0, Nat.zero_le n, walk_blanks hclose, fun m _ tail htail => readObject_eq_ok_iff.2 (Or.inl ⟨?_, hj⟩)⟩
    rw [htail.skipBlank_append, hclose, List.cons_append]
  · obtain ⟨d, hd, hwalk, hmore⟩ := readFields_measured hread hfields
    refine ⟨d, hd, (walk_blanks hnext).after hwalk, fun m hm tail htail =>
      readObject_eq_ok_iff.2 (Or.inr ⟨next ++ tail, fields, ?_, ?_, hj⟩)⟩
    · rw [htail.skipBlank_append, hnext, List.cons_append]
    · exact hmore m hm tail htail _ (by simp)

/-! ### Values -/

/-- A value that is no list and no object is read alike whatever levels are open. -/
theorem readWith_of_leaf (nested : Option (List Char → Reading Json)) (hlist : (skipBlank cs).head? ≠ some '[')
    (hobject : (skipBlank cs).head? ≠ some '\x7b') : readWith nested cs = readWith none cs := by
  unfold readWith
  split
  case h_7 heq => exact absurd (congrArg List.head? heq) hlist
  case h_8 heq => exact absurd (congrArg List.head? heq) hobject
  all_goals rfl

theorem readWith_list {nested : List Char → Reading Json} {next : List Char} (h : skipBlank cs = '[' :: next) :
    readWith (some nested) cs = readList nested next := by
  simp only [readWith, h]

theorem readWith_object {nested : List Char → Reading Json} {next : List Char} (h : skipBlank cs = '\x7b' :: next) :
    readWith (some nested) cs = readObject nested next := by
  simp only [readWith, h]

theorem readValue_leaf (m : Nat) (hlist : (skipBlank cs).head? ≠ some '[') (hobject : (skipBlank cs).head? ≠ some '\x7b') :
    readValue m cs = readWith none cs := by
  cases m with
  | zero => rfl
  | succ m => exact readWith_of_leaf _ hlist hobject

/-- A value is as deep as the levels that it needs. -/
theorem readValue_measured (n : Nat) : Measured readValue n [] := by
  intro cs j rest hread
  by_cases hlist : (skipBlank cs).head? = some '['
  · obtain ⟨next, hnext⟩ := List.head?_eq_some_iff.1 hlist
    cases n with
    | zero =>
      simp only [readValue, readWith, hnext] at hread
      cases hread
    | succ n =>
      have ih := readValue_measured n
      rw [readValue, readWith_list hnext] at hread
      obtain ⟨d, hd, hwalk, hmore⟩ := readList_measured ih _ _ _ hread
      refine ⟨d + 1, Nat.succ_le_succ hd, (walk_blanks hnext).after (hwalk.enclosed (Or.inl rfl) (Or.inl rfl)),
        fun m hm tail htail => ?_⟩
      obtain ⟨m, rfl⟩ := Nat.exists_eq_add_of_le' hm
      rw [← Nat.add_assoc, readValue, readWith_list (by rw [htail.skipBlank_append, hnext, List.cons_append])]
      exact hmore _ (Nat.le_add_left _ _) tail htail
  · by_cases hobject : (skipBlank cs).head? = some '\x7b'
    · obtain ⟨next, hnext⟩ := List.head?_eq_some_iff.1 hobject
      cases n with
      | zero =>
        simp only [readValue, readWith, hnext] at hread
        cases hread
      | succ n =>
        have ih := readValue_measured n
        rw [readValue, readWith_object hnext] at hread
        obtain ⟨d, hd, hwalk, hmore⟩ := readObject_measured ih _ _ _ hread
        refine ⟨d + 1, Nat.succ_le_succ hd, (walk_blanks hnext).after (hwalk.enclosed (Or.inr rfl) (Or.inr rfl)),
          fun m hm tail htail => ?_⟩
        obtain ⟨m, rfl⟩ := Nat.exists_eq_add_of_le' hm
        rw [← Nat.add_assoc, readValue, readWith_object (by rw [htail.skipBlank_append, hnext, List.cons_append])]
        exact hmore _ (Nat.le_add_left _ _) tail htail
    · rw [readValue_leaf n hlist hobject] at hread
      obtain ⟨hwalk, hmore⟩ := readWith_steady _ _ _ hread
      refine ⟨0, Nat.zero_le n, hwalk, fun m _ tail htail => ?_⟩
      rw [readValue_leaf m]
      · exact hmore tail htail
      · rw [htail.skipBlank_append]
        exact htail.head?_ne (by decide) hlist
      · rw [htail.skipBlank_append]
        exact htail.head?_ne (by decide) hobject

end Measured

/-! ### Whole texts -/

section Text

variable {text : String} {j : Json}

theorem nesting_eq_of_walk {d : Nat} {rest : List Char} (h : Walk d .plain text.toList .plain rest) (hrest : skipBlank rest = []) :
    nesting text = d := by
  have hwalk := h.trans (walk_blanks hrest) 0 []
  rw [List.append_nil, List.append_nil, deepest] at hwalk
  rw [nesting, hwalk]
  omega

/-- The text of a value is read wherever as many levels are open as it nests. -/
theorem ReadAs.readValue_eq (h : ReadAs text j) : ∃ rest, skipBlank rest = [] ∧ Walk (nesting text) .plain text.toList .plain rest ∧
    ∀ m, nesting text ≤ m → ∀ tail, Stops tail → readValue m (text.toList ++ tail) = .ok (j, rest ++ tail) := by
  obtain ⟨n, rest, hread, hrest⟩ := h
  obtain ⟨d, -, hwalk, hmore⟩ := readValue_measured n _ _ _ hread
  rw [nesting_eq_of_walk hwalk hrest]
  exact ⟨rest, hrest, hwalk, hmore⟩

/-- The text of a value is read nowhere else, and as nothing else. -/
theorem ReadAs.of_readValue (h : ReadAs text j) {m : Nat} {j' : Json} {rest : List Char}
    (hread : readValue m text.toList = .ok (j', rest)) : nesting text ≤ m ∧ j' = j ∧ skipBlank rest = [] := by
  obtain ⟨rest', hrest', -, hmore⟩ := h.readValue_eq
  obtain ⟨d, hd, hwalk, hmore'⟩ := readValue_measured m _ _ _ hread
  have heq := hmore (max (nesting text) d) (le_max_left _ _) [] stops_nil
  rw [hmore' (max (nesting text) d) (le_max_right _ _) [] stops_nil, List.append_nil, List.append_nil] at heq
  cases heq
  exact ⟨nesting_eq_of_walk hwalk hrest' ▸ hd, rfl, hrest'⟩

/-- The reader reads the text of a value exactly when it nests no deeper than the levels that it has. -/
theorem ReadAs.first?_eq_ok_iff (h : ReadAs text j) {j' : Json} {following : Option ReadError} :
    first? text = .ok (j', following) ↔ nesting text ≤ maxLevels ∧ j' = j ∧ following = none := by
  constructor
  · intro hfirst
    unfold first? at hfirst
    cases hvalue : readValue maxLevels text.toList with
    | error e => simp [hvalue] at hfirst
    | ok r =>
      obtain ⟨hlevels, hj, hrest⟩ := h.of_readValue hvalue
      simp only [hvalue, hrest] at hfirst
      cases hfirst
      exact ⟨hlevels, hj, rfl⟩
  · rintro ⟨hlevels, rfl, rfl⟩
    obtain ⟨rest, hrest, -, hmore⟩ := h.readValue_eq
    have hread := hmore maxLevels hlevels [] stops_nil
    rw [List.append_nil, List.append_nil] at hread
    simp only [first?, hread, hrest]

/-- What the reader reads as a whole text is the text of a value. -/
theorem readAs_of_first? (h : first? text = .ok (j, none)) : ReadAs text j := by
  unfold first? at h
  cases hvalue : readValue maxLevels text.toList with
  | error e => simp [hvalue] at h
  | ok r =>
    simp only [hvalue] at h
    split at h
    · rename_i hrest
      cases h
      exact ⟨_, _, hvalue, hrest⟩
    · cases h

/-- The text of a value repeats no key in it. -/
theorem ReadAs.keysDistinct (h : ReadAs text j) : j.KeysDistinct := by
  obtain ⟨n, rest, hread, -⟩ := h
  exact readValue_yields n _ _ _ hread

end Text

end Json

end Conform
