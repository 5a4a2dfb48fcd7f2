import Mathlib
import Conform.Json.Printer
import Conform.Proofs.Growth

/-!
# Printed values are read back

The printer escapes, divides and indents; the reader undoes it. Any value without numbers, with distinct keys and not nested deeper
than the reader goes, is read back from its text, on one line or on many, in front of whatever follows (`Json.readValue_print`). So
what a program prints in this way is that value, whatever texts are in it.
-/

namespace Conform

namespace Json

/-- Whether a value is made of literals, texts, lists, and objects with distinct keys, and lists and objects nest no deeper than so
many levels. -/
inductive Plain : Nat → Json → Prop where
  | null {levels : Nat} : Plain levels .null
  | bool {levels : Nat} (b : Bool) : Plain levels (.bool b)
  | string {levels : Nat} (text : String) : Plain levels (.string text)
  | array {levels : Nat} {items : List Json} (hitems : ∀ j ∈ items, Plain levels j) : Plain (levels + 1) (.array items)
  | object {levels : Nat} {fields : List (String × Json)} (hkeys : (Fields.keys fields).Nodup)
      (hfields : ∀ f ∈ fields, Plain levels f.2) : Plain (levels + 1) (.object fields)

/-! ### Blanks -/

theorem skipBlank_append {blanks : List Char} (h : skipBlank blanks = []) (cs : List Char) :
    skipBlank (blanks ++ cs) = skipBlank cs := by
  rw [skipBlank] at h
  rw [skipBlank, List.dropWhile_append, h]
  rfl

/-- A value is read from behind blanks as without them. -/
theorem readWith_append {nested : Option (List Char → Reading Json)} {blanks : List Char} (h : skipBlank blanks = [])
    (cs : List Char) : readWith nested (blanks ++ cs) = readWith nested cs := by
  unfold readWith
  rw [skipBlank_append h]

theorem readValue_append {blanks : List Char} (h : skipBlank blanks = []) (levels : Nat) (cs : List Char) :
    readValue levels (blanks ++ cs) = readValue levels cs := by
  cases levels with
  | zero => exact readWith_append h cs
  | succ levels => exact readWith_append h cs

/-! ### Strings -/

theorem hexDigit?_digitChar : ∀ d < 16, hexDigit? (Nat.digitChar d) = some d := by decide

/-- The escape of a control character is a code of four digits. -/
theorem hex_control : ∀ n < 0x20, (if n < 0x10 then ['0'] else []) ++ (Numeral.hex n).toList =
    [Nat.digitChar (n / 16), Nat.digitChar (n % 16)] := by decide

/-- A code of two digits behind two zeros is read as its character. -/
theorem readCode_control {n : Nat} (h : n < 0x20) (rest : List Char) :
    readCode ('0' :: '0' :: Nat.digitChar (n / 16) :: Nat.digitChar (n % 16) :: rest) = .ok (Char.ofNat n, rest) := by
  have hzero : hexDigit? '0' = some 0 := rfl
  have hhigh : hexDigit? (Nat.digitChar (n / 16)) = some (n / 16) := hexDigit?_digitChar _ (by omega)
  have hlow : hexDigit? (Nat.digitChar (n % 16)) = some (n % 16) := hexDigit?_digitChar _ (by omega)
  have hcode : ((0 * 16 + 0) * 16 + n / 16) * 16 + n % 16 = n := by omega
  have hread : readHex ('0' :: '0' :: Nat.digitChar (n / 16) :: Nat.digitChar (n % 16) :: rest) = .ok (n, rest) := by
    simp only [readHex, hzero, hhigh, hlow, hcode]
  rw [readCode, hread]
  simp only
  rw [if_neg (by omega), if_neg (by omega)]

/-- A character stands for itself, or is escaped by a code that is read as the character. -/
theorem escapeChar_cases (c : Char) :
    (escapeChar c = [c] ∧ c ≠ '"' ∧ c ≠ '\\' ∧ ¬c.toNat < 0x20) ∨
      ∃ code, escapeChar c = '\\' :: code ∧ ∀ rest, readEscape (code ++ rest) = .ok (c, rest) := by
  unfold escapeChar
  split
  iterate 7 exact Or.inr ⟨_, rfl, fun rest => rfl⟩
  rename_i hquote hbackslash _ _ _ _ _
  by_cases hcontrol : c.toNat < 0x20
  · rw [if_pos hcontrol, List.append_assoc, hex_control _ hcontrol]
    refine Or.inr ⟨_, rfl, fun rest => ?_⟩
    have hread := readCode_control hcontrol rest
    rw [Char.ofNat_toNat] at hread
    exact hread
  · rw [if_neg hcontrol]
    exact Or.inl ⟨rfl, hquote, hbackslash, hcontrol⟩

/-- A text that is escaped is read back up to the quote that ends it. -/
theorem readString_escaped (text : List Char) (fuel : Nat) (done rest : List Char)
    (hfuel : (text.flatMap escapeChar ++ '"' :: rest).length ≤ fuel) :
    readString fuel done (text.flatMap escapeChar ++ '"' :: rest) = .ok (String.ofList (done.reverse ++ text), rest) := by
  induction text generalizing fuel done with
  | nil =>
    obtain ⟨fuel, rfl⟩ := Nat.exists_eq_add_one_of_ne_zero (n := fuel) (by simp at hfuel; omega)
    simp [readString]
  | cons c text ih =>
    rw [List.flatMap_cons, List.append_assoc] at hfuel ⊢
    rcases escapeChar_cases c with ⟨hself, hquote, hbackslash, hcontrol⟩ | ⟨code, hcode, hread⟩
    · rw [hself, List.singleton_append] at hfuel ⊢
      rw [List.length_cons] at hfuel
      obtain ⟨fuel, rfl⟩ := Nat.exists_eq_add_one_of_ne_zero (n := fuel) (by omega)
      rw [readString, if_neg hquote, if_neg hbackslash, if_neg hcontrol, ih fuel (c :: done) (by omega)]
      simp
    · rw [hcode, List.cons_append] at hfuel ⊢
      rw [List.length_cons, List.length_append] at hfuel
      obtain ⟨fuel, rfl⟩ := Nat.exists_eq_add_one_of_ne_zero (n := fuel) (by omega)
      rw [readString, if_neg (by decide), if_pos rfl, hread]
      simp only
      rw [ih fuel (c :: done) (by omega)]
      simp

theorem toList_quoteString (text : String) : (quoteString text).toList = '"' :: (text.toList.flatMap escapeChar ++ ['"']) := by
  simp [quoteString]

/-! ### Lists and objects -/

/-- Whether something is read off its text, whatever follows. -/
def Spells {α : Type} (read : List Char → Reading α) (a : α) (text : List Char) : Prop :=
  ∀ rest, read (text ++ rest) = .ok (a, rest)

/-- Whether a text begins with a character that may begin a value: no blank, and nothing that closes a list. -/
def Opens (text : List Char) : Prop :=
  ∃ c, text.head? = some c ∧ c ≠ ']' ∧ ∀ rest, skipBlank (c :: rest) = c :: rest

/-- Parts divided by commas and blanks. -/
def row (blanks part : List Char) (parts : List (List Char)) : List Char :=
  part ++ parts.flatMap fun p => ',' :: (blanks ++ p)

theorem row_cons (blanks part p : List Char) (parts : List (List Char)) (rest : List Char) :
    row blanks part (p :: parts) ++ rest = part ++ ',' :: (blanks ++ (row blanks p parts ++ rest)) := by
  simp [row]

/-- A row begins as its first part does. -/
theorem head?_row {part : List Char} {c : Char} (h : part.head? = some c) (blanks : List Char) (parts : List (List Char))
    (rest : List Char) : (row blanks part parts ++ rest).head? = some c := by
  rw [row, List.append_assoc, List.head?_append, h]
  rfl

theorem intercalate_eq_row (blanks part : List Char) (parts : List (List Char)) :
    (',' :: blanks).intercalate (part :: parts) = row blanks part parts := by
  induction parts generalizing part with
  | nil => simp [row]
  | cons p parts ih =>
    have hshape := row_cons blanks part p parts []
    rw [List.append_nil, List.append_nil] at hshape
    rw [List.intercalate_cons_cons, ih, hshape, List.append_assoc, List.cons_append]

section Rows

variable {read : List Char → Reading Json} {before after : List Char}

/-- The element before a closing bracket is the last one. -/
theorem readItems_last {item : Json} {part : List Char} (hpart : Spells read item part) (hafter : skipBlank after = [])
    (fuel : Nat) (done : List Json) (rest : List Char) :
    readItems read (fuel + 1) done (part ++ (after ++ ']' :: rest)) = .ok ((item :: done).reverse, rest) := by
  have hclose : skipBlank (after ++ ']' :: rest) = ']' :: rest := skipBlank_append hafter _
  rw [readItems, hpart]
  simp only [Reading.within, Except.mapError, hclose]

/-- The element before a comma is followed by the next one. -/
theorem readItems_next {item : Json} {part cs : List Char} (hpart : Spells read item part) (hbefore : skipBlank before = [])
    (hopens : Opens cs) (fuel : Nat) (done : List Json) :
    readItems read (fuel + 1) done (part ++ ',' :: (before ++ cs)) = readItems read fuel (item :: done) cs := by
  obtain ⟨c, hhead, hc, hskip⟩ := hopens
  obtain ⟨rest, rfl⟩ := List.head?_eq_some_iff.1 hhead
  have hcomma : skipBlank (',' :: (before ++ c :: rest)) = ',' :: (before ++ c :: rest) := rfl
  have hnext : skipBlank (before ++ c :: rest) = c :: rest := (skipBlank_append hbefore _).trans (hskip rest)
  rw [readItems, hpart]
  simp only [Reading.within, Except.mapError, hcomma, hnext]
  simp [hc]

/-- The elements of a list are read off a row of their texts. -/
theorem readItems_row {items : List Json} {parts : List (List Char)}
    (hrest : List.Forall₂ (fun item part => Spells read item part ∧ Opens part) items parts)
    (hbefore : skipBlank before = []) (hafter : skipBlank after = []) {item : Json} {part : List Char}
    (hpart : Spells read item part) (fuel : Nat) (hfuel : items.length < fuel) (done : List Json) (rest : List Char) :
    readItems read fuel done (row before part parts ++ (after ++ ']' :: rest)) = .ok (done.reverse ++ item :: items, rest) := by
  induction hrest generalizing item part fuel done with
  | nil =>
    obtain ⟨fuel, rfl⟩ := Nat.exists_eq_add_one_of_ne_zero (Nat.ne_zero_of_lt hfuel)
    rw [row, List.flatMap_nil, List.append_nil, readItems_last hpart hafter, List.reverse_cons]
  | cons hnext _ ih =>
    obtain ⟨hspells, c, hhead, hc⟩ := hnext
    obtain ⟨fuel, rfl⟩ := Nat.exists_eq_add_one_of_ne_zero (Nat.ne_zero_of_lt hfuel)
    rw [row_cons, readItems_next hpart hbefore ⟨c, head?_row hhead _ _ _, hc⟩, ih hspells fuel (Nat.lt_of_succ_lt_succ hfuel),
      List.reverse_cons, List.append_assoc, List.singleton_append]

/-- The field before a closing brace is the last one. -/
theorem readFields_last {f : String × Json} {part : List Char} (hpart : Spells (readField read) f part)
    (hafter : skipBlank after = []) (fuel : Nat) (done : List (String × Json)) (rest : List Char) :
    readFields read (fuel + 1) done (part ++ (after ++ '\x7d' :: rest)) = .ok (Fields.insert done f.1 f.2, rest) := by
  have hclose : skipBlank (after ++ '\x7d' :: rest) = '\x7d' :: rest := skipBlank_append hafter _
  rw [readFields, hpart]
  simp only [hclose]

/-- The field before a comma is followed by the next one, which begins with a quote. -/
theorem readFields_next {f : String × Json} {part cs : List Char} (hpart : Spells (readField read) f part)
    (hbefore : skipBlank before = []) (hhead : cs.head? = some '"') (fuel : Nat) (done : List (String × Json)) :
    readFields read (fuel + 1) done (part ++ ',' :: (before ++ cs)) = readFields read fuel (Fields.insert done f.1 f.2) cs := by
  obtain ⟨rest, rfl⟩ := List.head?_eq_some_iff.1 hhead
  have hcomma : skipBlank (',' :: (before ++ '"' :: rest)) = ',' :: (before ++ '"' :: rest) := rfl
  have hnext : skipBlank (before ++ '"' :: rest) = '"' :: rest := skipBlank_append hbefore _
  rw [readFields, hpart]
  simp only [hcomma, hnext]

/-- The fields of an object are read off a row of their texts. -/
theorem readFields_row {fields : List (String × Json)} {parts : List (List Char)}
    (hrest : List.Forall₂ (fun f part => Spells (readField read) f part ∧ part.head? = some '"') fields parts)
    (hbefore : skipBlank before = []) (hafter : skipBlank after = []) {f : String × Json} {part : List Char}
    (hpart : Spells (readField read) f part) (fuel : Nat) (hfuel : fields.length < fuel) (done : List (String × Json))
    (hkeys : (Fields.keys (done ++ f :: fields)).Nodup) (rest : List Char) :
    readFields read fuel done (row before part parts ++ (after ++ '\x7d' :: rest)) = .ok (done ++ f :: fields, rest) := by
  have hinsert : ∀ {done fields : List (String × Json)} {f : String × Json}, (Fields.keys (done ++ f :: fields)).Nodup →
      Fields.insert done f.1 f.2 = done ++ [f] := by
    intro done fields f hkeys
    refine Fields.insert_eq_append (fun hmem => ?_) f.2
    rw [Fields.keys, List.map_append, List.map_cons] at hkeys
    exact (List.nodup_append.1 hkeys).2.2 _ hmem _ List.mem_cons_self rfl
  induction hrest generalizing f part fuel done with
  | nil =>
    obtain ⟨fuel, rfl⟩ := Nat.exists_eq_add_one_of_ne_zero (Nat.ne_zero_of_lt hfuel)
    rw [row, List.flatMap_nil, List.append_nil, readFields_last hpart hafter, hinsert hkeys]
  | cons hnext _ ih =>
    obtain ⟨hspells, hhead⟩ := hnext
    obtain ⟨fuel, rfl⟩ := Nat.exists_eq_add_one_of_ne_zero (Nat.ne_zero_of_lt hfuel)
    have hmore := hkeys
    rw [List.append_cons] at hmore
    rw [row_cons, readFields_next hpart hbefore (head?_row hhead _ _ _), hinsert hkeys,
      ih hspells fuel (Nat.lt_of_succ_lt_succ hfuel) _ hmore, ← List.append_cons]

/-- There are fewer parts to come than characters. -/
theorem length_lt_row {part : List Char} {c : Char} (h : part.head? = some c) (blanks : List Char) (parts : List (List Char))
    (rest : List Char) : parts.length < (row blanks part parts ++ rest).length := by
  have hparts : parts.length ≤ (parts.flatMap fun p => ',' :: (blanks ++ p)).length := by
    induction parts with
    | nil => exact Nat.le_refl 0
    | cons p parts ih =>
      rw [List.flatMap_cons, List.length_append, List.length_cons, List.length_cons]
      omega
  obtain ⟨cs, rfl⟩ := List.head?_eq_some_iff.1 h
  rw [row, List.length_append, List.length_append, List.length_cons]
  omega

/-- A list is read off the row of its elements. -/
theorem readList_row {items : List Json} {parts : List (List Char)}
    (hrest : List.Forall₂ (fun item part => Spells read item part ∧ Opens part) items parts)
    (hbefore : skipBlank before = []) (hafter : skipBlank after = []) {item : Json} {part : List Char}
    (hpart : Spells read item part) (hopens : Opens part) :
    Spells (readList read) (.array (item :: items)) (before ++ (row before part parts ++ (after ++ [']']))) := by
  intro rest
  rw [List.append_assoc, List.append_assoc, List.append_assoc, List.singleton_append]
  obtain ⟨c, hhead, hc, hskip⟩ := hopens
  obtain ⟨cs, hcs⟩ := List.head?_eq_some_iff.1 (head?_row hhead before parts (after ++ ']' :: rest))
  have hfuel : items.length < (c :: cs).length := by
    rw [hrest.length_eq, ← hcs]
    exact length_lt_row hhead _ _ _
  have hread := readItems_row hrest hbefore hafter hpart _ hfuel [] rest
  rw [hcs] at hread ⊢
  rw [readList, skipBlank_append hbefore, hskip]
  split
  · rename_i heq
    cases heq
  · rename_i heq
    exact absurd (List.cons.inj heq).1 hc
  · exact congrArg (Except.map fun r => (Json.array r.1, r.2)) hread

/-- An object is read off the row of its fields. -/
theorem readObject_row {fields : List (String × Json)} {parts : List (List Char)}
    (hrest : List.Forall₂ (fun f part => Spells (readField read) f part ∧ part.head? = some '"') fields parts)
    (hbefore : skipBlank before = []) (hafter : skipBlank after = []) {f : String × Json} {part : List Char}
    (hpart : Spells (readField read) f part) (hhead : part.head? = some '"') (hkeys : (Fields.keys (f :: fields)).Nodup) :
    Spells (readObject read) (.object (f :: fields)) (before ++ (row before part parts ++ (after ++ ['\x7d']))) := by
  intro rest
  rw [List.append_assoc, List.append_assoc, List.append_assoc, List.singleton_append]
  obtain ⟨cs, hcs⟩ := List.head?_eq_some_iff.1 (head?_row hhead before parts (after ++ '\x7d' :: rest))
  have hfuel : fields.length < ('"' :: cs).length := by
    rw [hrest.length_eq, ← hcs]
    exact length_lt_row hhead _ _ _
  have hread := readFields_row hrest hbefore hafter hpart _ hfuel [] hkeys rest
  have hskip : skipBlank ('"' :: cs) = '"' :: cs := rfl
  rw [hcs] at hread ⊢
  rw [List.length_cons] at hread
  rw [readObject, skipBlank_append hbefore, hskip]
  exact congrArg (Except.map fun r => (Json.object r.1, r.2)) hread

end Rows

/-! ### Values -/

theorem printItems_eq_map (level : Option Nat) (items : List Json) : printItems level items = items.map (print level) := by
  induction items with
  | nil => rfl
  | cons item items ih => rw [printItems, ih, List.map_cons]

/-- The text of a field. -/
def printField (level : Option Nat) (f : String × Json) : String :=
  quoteString f.1 ++ (if level.isSome then ": " else ":") ++ print level f.2

theorem printFields_eq_map (level : Option Nat) (fields : List (String × Json)) :
    printFields level fields = fields.map (printField level) := by
  induction fields with
  | nil => rfl
  | cons f fields ih => rw [printFields, ih, List.map_cons, printField]

theorem skipBlank_indent (n : Nat) : skipBlank ('\n' :: List.replicate n ' ') = [] := by
  rw [skipBlank, List.dropWhile_cons_of_pos (by decide), List.dropWhile_replicate]
  rfl

/-- Parts that are enclosed are a row between the marks, with blanks around it. -/
theorem exists_toList_enclose (level : Option Nat) (opening closing part : String) (parts : List String) :
    ∃ before after, skipBlank before = [] ∧ skipBlank after = [] ∧
      (enclose level opening closing (part :: parts)).toList =
        opening.toList ++ (before ++ (row before part.toList (parts.map String.toList) ++ (after ++ closing.toList))) := by
  cases level with
  | none =>
    refine ⟨[], [], rfl, rfl, ?_⟩
    rw [← intercalate_eq_row]
    simp [enclose, String.toList_intercalate]
  | some n =>
    refine ⟨'\n' :: List.replicate (2 * (n + 1)) ' ', '\n' :: List.replicate (2 * n) ' ', skipBlank_indent _, skipBlank_indent _, ?_⟩
    rw [← intercalate_eq_row]
    simp [enclose, String.toList_intercalate]

theorem enclose_nil (level : Option Nat) (opening closing : String) : enclose level opening closing [] = opening ++ closing := by
  cases level with
  | none => rfl
  | some n => rfl

/-- What is enclosed begins with the opening mark. -/
theorem head?_enclose {c : Char} {opening : String} (h : opening.toList.head? = some c) (level : Option Nat) (closing : String)
    (parts : List String) : (enclose level opening closing parts).toList.head? = some c := by
  cases parts with
  | nil => rw [enclose_nil, String.toList_append, List.head?_append, h, Option.some_or]
  | cons part parts =>
    obtain ⟨before, after, _, _, htext⟩ := exists_toList_enclose level opening closing part parts
    rw [htext, List.head?_append, h, Option.some_or]

/-- The text of a value begins like a value. -/
theorem Plain.opens {levels : Nat} {j : Json} (h : Plain levels j) (level : Option Nat) : Opens (print level j).toList := by
  cases h with
  | null =>
    rw [print]
    exact ⟨'n', by decide, by decide, fun rest => rfl⟩
  | bool b =>
    rw [print]
    cases b with
    | false => exact ⟨'f', by decide, by decide, fun rest => rfl⟩
    | true => exact ⟨'t', by decide, by decide, fun rest => rfl⟩
  | string text =>
    rw [print, toList_quoteString]
    exact ⟨'"', rfl, by decide, fun rest => rfl⟩
  | array hitems =>
    rw [print]
    exact ⟨'[', head?_enclose (by decide) _ _ _, by decide, fun rest => rfl⟩
  | object hkeys hfields =>
    rw [print]
    exact ⟨'\x7b', head?_enclose (by decide) _ _ _, by decide, fun rest => rfl⟩

theorem head?_printField (level : Option Nat) (f : String × Json) : (printField level f).toList.head? = some '"' := by
  rw [printField, String.toList_append, String.toList_append, toList_quoteString]
  rfl

/-- A field is read off its text when its value is. -/
theorem readField_printField {levels : Nat} {level : Option Nat} {f : String × Json}
    (h : Spells (readValue levels) f.2 (print level f.2).toList) :
    Spells (readField (readValue levels)) f (printField level f).toList := by
  intro rest
  obtain ⟨key, j⟩ := f
  obtain ⟨gap, hgap, htext⟩ : ∃ gap, skipBlank gap = [] ∧ (printField level (key, j)).toList =
      '"' :: (key.toList.flatMap escapeChar ++ '"' :: ':' :: (gap ++ (print level j).toList)) := by
    cases level with
    | none => exact ⟨[], rfl, by simp [printField, toList_quoteString]⟩
    | some n => exact ⟨[' '], rfl, by simp [printField, toList_quoteString]⟩
  have hshape : (printField level (key, j)).toList ++ rest =
      '"' :: (key.toList.flatMap escapeChar ++ '"' :: ':' :: (gap ++ ((print level j).toList ++ rest))) := by
    rw [htext]
    simp
  have hcolon : ∀ cs, skipBlank (':' :: cs) = ':' :: cs := fun cs => rfl
  rw [hshape, readField, List.drop_one, List.tail_cons, List.length_cons, readString_escaped _ _ _ _ (Nat.le_succ _)]
  simp only [Reading.within, Except.mapError, readMember, hcolon, readValue_append hgap, h rest]
  simp [Except.map]

/-- A list is read off its text when its elements are. -/
theorem readList_enclose {levels : Nat} {level : Option Nat} {items : List Json}
    (h : ∀ j ∈ items, Spells (readValue levels) j (print level j).toList ∧ Opens (print level j).toList) (outer : Option Nat) :
    ∃ cs, (enclose outer "[" "]" (items.map (print level))).toList = '[' :: cs ∧
      Spells (readList (readValue levels)) (.array items) cs := by
  cases items with
  | nil =>
    rw [List.map_nil, enclose_nil]
    exact ⟨[']'], by decide, fun rest => rfl⟩
  | cons item items =>
    obtain ⟨before, after, hbefore, hafter, htext⟩ :=
      exists_toList_enclose outer "[" "]" (print level item) (items.map (print level))
    obtain ⟨hspells, hopens⟩ := h item List.mem_cons_self
    have hrest : List.Forall₂ (fun item part => Spells (readValue levels) item part ∧ Opens part) items
        ((items.map (print level)).map String.toList) := by
      rw [List.map_map, List.forall₂_map_right_iff, List.forall₂_same]
      exact fun j hj => h j (List.mem_cons_of_mem item hj)
    exact ⟨_, htext, readList_row hrest hbefore hafter hspells hopens⟩

/-- An object is read off its text when its fields are. -/
theorem readObject_enclose {levels : Nat} {level : Option Nat} {fields : List (String × Json)}
    (hkeys : (Fields.keys fields).Nodup)
    (h : ∀ f ∈ fields, Spells (readField (readValue levels)) f (printField level f).toList) (outer : Option Nat) :
    ∃ cs, (enclose outer "\x7b" "\x7d" (fields.map (printField level))).toList = '\x7b' :: cs ∧
      Spells (readObject (readValue levels)) (.object fields) cs := by
  cases fields with
  | nil =>
    rw [List.map_nil, enclose_nil]
    exact ⟨['\x7d'], by decide, fun rest => rfl⟩
  | cons f fields =>
    obtain ⟨before, after, hbefore, hafter, htext⟩ :=
      exists_toList_enclose outer "\x7b" "\x7d" (printField level f) (fields.map (printField level))
    have hrest : List.Forall₂ (fun f part => Spells (readField (readValue levels)) f part ∧ part.head? = some '"') fields
        ((fields.map (printField level)).map String.toList) := by
      rw [List.map_map, List.forall₂_map_right_iff, List.forall₂_same]
      exact fun g hg => ⟨h g (List.mem_cons_of_mem f hg), head?_printField level g⟩
    exact ⟨_, htext, readObject_row hrest hbefore hafter (h f List.mem_cons_self) (head?_printField level f) hkeys⟩

/-- A text is read off the string it stands in. -/
theorem readWith_quoteString (nested : Option (List Char → Reading Json)) (text : String) :
    Spells (readWith nested) (.string text) (quoteString text).toList := by
  intro rest
  have hskip : ∀ cs, skipBlank ('"' :: cs) = '"' :: cs := fun cs => rfl
  rw [toList_quoteString, List.cons_append, List.append_assoc, List.singleton_append, readWith, hskip]
  simp only [readString_escaped _ _ _ _ (Nat.le_succ _)]
  simp [Except.map]

/-- A value is read off its text. -/
theorem readValue_print {levels : Nat} {j : Json} (h : Plain levels j) (level : Option Nat) :
    Spells (readValue levels) j (print level j).toList := by
  induction h generalizing level with
  | @null levels =>
    rw [print]
    cases levels with
    | zero => exact fun rest => rfl
    | succ levels => exact fun rest => rfl
  | @bool levels b =>
    rw [print]
    cases levels with
    | zero => cases b <;> exact fun rest => rfl
    | succ levels => cases b <;> exact fun rest => rfl
  | @string levels text =>
    rw [print]
    cases levels with
    | zero => exact readWith_quoteString _ text
    | succ levels => exact readWith_quoteString _ text
  | @array levels items hitems ih =>
    rw [print, printItems_eq_map]
    obtain ⟨cs, htext, hread⟩ := readList_enclose (fun j hj => ⟨ih j hj _, (hitems j hj).opens (level.map (· + 1))⟩) level
    rw [htext]
    exact hread
  | @object levels fields hkeys hfields ih =>
    rw [print, printFields_eq_map]
    obtain ⟨cs, htext, hread⟩ := readObject_enclose hkeys (fun f hf => readField_printField (ih f hf (level.map (· + 1)))) level
    rw [htext]
    exact hread

/-- The text of a value is that value. -/
theorem parse?_print {j : Json} (h : Plain maxLevels j) (level : Option Nat) : parse? (print level j) = .ok j := by
  have hread := readValue_print h level []
  rw [List.append_nil] at hread
  have hskip : skipBlank [] = [] := rfl
  rw [parse?, first?]
  simp only [hread, hskip]

end Json

end Conform
