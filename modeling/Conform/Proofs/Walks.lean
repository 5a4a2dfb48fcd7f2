import Mathlib
import Conform.Proofs.Expressible

/-!
# Walks over a text

`Json.nesting` counts how many lists and objects stand open at once in a text, by its brackets outside of strings. A walk
(`Json.Walk`) says how deep the part of a text is that lies between two places in it. A reader of a number, a literal or a string
walks over what it reads without a level, and reads the same of a text that goes on with a closing brace (`Json.Steady`).
-/

namespace Conform

namespace Json

/-- Where in a text a character stands. -/
inductive Zone where
  | plain
  | quoted
  | escaped
  deriving DecidableEq, Repr

/-- Where the character after a character stands. -/
def Zone.next : Zone → Char → Zone
  | .plain, c => if c = '"' then .quoted else .plain
  | .quoted, c => if c = '"' then .plain else if c = '\\' then .escaped else .quoted
  | .escaped, _ => .quoted

/-- How many lists and objects are open after a character, given how many are before it. -/
def Zone.openAfter (zone : Zone) (opened : Nat) (c : Char) : Nat :=
  match zone with
  | .plain =>
    if c = '[' ∨ c = '\x7b' then opened + 1
    else if c = ']' ∨ c = '\x7d' then opened - 1
    else opened
  | _ => opened

/-- How many lists and objects are open at once in a text, at the most, given how many are before it and where it begins. -/
def deepest (opened : Nat) (zone : Zone) : List Char → Nat
  | [] => opened
  | c :: cs => max opened (deepest (zone.openAfter opened c) (zone.next c) cs)

/-- How many lists and objects are open at once in a text, at the most. -/
def nesting (text : String) : Nat := deepest 0 .plain text.toList

/-! ### Walks -/

theorem le_deepest (opened : Nat) (zone : Zone) (cs : List Char) : opened ≤ deepest opened zone cs := by
  cases cs with
  | nil => exact Nat.le_refl opened
  | cons c cs => exact Nat.le_max_left _ _

/-- Whether the part of a text between two places closes what it opens, with so many levels at the most, whatever the text goes
on with. -/
def Walk (d : Nat) (zone : Zone) (cs : List Char) (zone' : Zone) (rest : List Char) : Prop :=
  ∀ opened tail, deepest opened zone (cs ++ tail) = max (opened + d) (deepest opened zone' (rest ++ tail))

namespace Walk

variable {d e : Nat} {zone zone' zone'' : Zone} {cs mid rest : List Char} {c : Char}

theorem refl (zone : Zone) (cs : List Char) : Walk 0 zone cs zone cs := by
  intro opened tail
  exact (Nat.max_eq_right (le_deepest opened zone _)).symm

theorem trans (h : Walk d zone cs zone' mid) (h' : Walk e zone' mid zone'' rest) : Walk (max d e) zone cs zone'' rest := by
  intro opened tail
  rw [h opened tail, h' opened tail]
  omega

/-- A walk behind a walk over no list and no object is as deep. -/
theorem after (h : Walk 0 zone cs zone' mid) (h' : Walk d zone' mid zone'' rest) : Walk d zone cs zone'' rest := by
  have hwalk := h.trans h'
  rwa [Nat.zero_max] at hwalk

/-- A walk over the front of a text, whatever the text goes on with. -/
theorem append (h : Walk d zone cs zone' rest) (tail : List Char) : Walk d zone (cs ++ tail) zone' (rest ++ tail) := by
  intro opened more
  rw [List.append_assoc, List.append_assoc]
  exact h opened (tail ++ more)

/-- A walk over a character that is no bracket. -/
theorem cons (hlevel : ∀ opened, zone.openAfter opened c = opened) (h : Walk d (zone.next c) cs zone' rest) :
    Walk d zone (c :: cs) zone' rest := by
  intro opened tail
  rw [List.cons_append, deepest, hlevel, h opened tail]
  omega

/-- A walk in brackets is a level deeper. -/
theorem enclosed {closing : Char} (hopening : c = '[' ∨ c = '\x7b') (hclosing : closing = ']' ∨ closing = '\x7d')
    (h : Walk d .plain cs .plain (closing :: rest)) : Walk (d + 1) .plain (c :: cs) .plain rest := by
  intro opened tail
  have hup : Zone.plain.openAfter opened c = opened + 1 := if_pos hopening
  have hin : Zone.plain.next c = .plain := by rcases hopening with rfl | rfl <;> rfl
  have hdown : Zone.plain.openAfter (opened + 1) closing = opened := by rcases hclosing with rfl | rfl <;> rfl
  have hout : Zone.plain.next closing = .plain := by rcases hclosing with rfl | rfl <;> rfl
  rw [List.cons_append, deepest, hup, hin, h (opened + 1) tail, List.cons_append, deepest, hdown, hout]
  omega

end Walk

/-- Whether a character is no bracket and no quote. -/
def Clear (c : Char) : Prop := c ≠ '"' ∧ c ≠ '[' ∧ c ≠ ']' ∧ c ≠ '\x7b' ∧ c ≠ '\x7d'

theorem Walk.clear {d : Nat} {c : Char} {cs rest : List Char} {zone : Zone} (hc : Clear c) (h : Walk d .plain cs zone rest) :
    Walk d .plain (c :: cs) zone rest := by
  obtain ⟨hquote, hlist, hlist', hobject, hobject'⟩ := hc
  refine Walk.cons (fun opened => ?_) ?_
  · simp [Zone.openAfter, hlist, hlist', hobject, hobject']
  · rw [Zone.next, if_neg hquote]
    exact h

theorem clear_of_isDigit {c : Char} (h : c.isDigit = true) : Clear c := by
  refine ⟨?_, ?_, ?_, ?_, ?_⟩
  all_goals
    intro heq
    rw [heq] at h
    exact absurd h (by decide)

theorem walk_dropWhile {p : Char → Bool} (hp : ∀ c, p c = true → Clear c) (cs : List Char) :
    Walk 0 .plain cs .plain (cs.dropWhile p) := by
  induction cs with
  | nil => exact Walk.refl _ _
  | cons c cs ih =>
    by_cases hc : p c = true
    · rw [List.dropWhile_cons_of_pos hc]
      exact ih.clear (hp c hc)
    · rw [List.dropWhile_cons_of_neg hc]
      exact Walk.refl _ _

theorem walk_skipBlank (cs : List Char) : Walk 0 .plain cs .plain (skipBlank cs) := by
  refine walk_dropWhile (fun c hc => ?_) cs
  simp only [Bool.or_eq_true, beq_iff_eq] at hc
  rcases hc with ((rfl | rfl) | rfl) | rfl <;> simp [Clear]

theorem walk_blanks {after mid : List Char} (h : skipBlank after = mid) : Walk 0 .plain after .plain mid :=
  h ▸ walk_skipBlank after

theorem walk_comma {after more : List Char} (h : skipBlank after = ',' :: more) : Walk 0 .plain after .plain (skipBlank more) :=
  (walk_blanks h).after ((walk_skipBlank more).clear (by simp [Clear]))

/-! ### What may follow -/

/-- Whether a text is empty or goes on with a closing brace. -/
def Stops (tail : List Char) : Prop := ∀ c ∈ tail.head?, c = '\x7d'

theorem stops_nil : Stops [] := by simp [Stops]

theorem stops_brace (cs : List Char) : Stops ('\x7d' :: cs) := by simp [Stops]

section Stops

variable {tail : List Char}

theorem Stops.eq_nil_or_cons (h : Stops tail) : tail = [] ∨ ∃ more, tail = '\x7d' :: more := by
  cases tail with
  | nil => exact Or.inl rfl
  | cons c more => exact Or.inr ⟨more, by rw [h c (by simp)]⟩

theorem Stops.head?_ne (h : Stops tail) {c : Char} (hc : c ≠ '\x7d') {cs : List Char} (hcs : cs.head? ≠ some c) :
    (cs ++ tail).head? ≠ some c := by
  cases cs with
  | nil => exact fun htail => hc (h c htail)
  | cons c' cs => exact hcs

theorem Stops.dropWhile_append (h : Stops tail) {p : Char → Bool} (hp : p '\x7d' = false) (cs : List Char) :
    (cs ++ tail).dropWhile p = cs.dropWhile p ++ tail := by
  have htail : tail.dropWhile p = tail := by
    rcases h.eq_nil_or_cons with rfl | ⟨more, rfl⟩
    · rfl
    · exact List.dropWhile_cons_of_neg (by simp [hp])
  induction cs with
  | nil => exact htail
  | cons c cs ih =>
    rw [List.cons_append, List.dropWhile_cons, List.dropWhile_cons, ih]
    split <;> rfl

theorem Stops.takeWhile_append (h : Stops tail) {p : Char → Bool} (hp : p '\x7d' = false) (cs : List Char) :
    (cs ++ tail).takeWhile p = cs.takeWhile p := by
  have htail : tail.takeWhile p = [] := by
    rcases h.eq_nil_or_cons with rfl | ⟨more, rfl⟩
    · rfl
    · exact List.takeWhile_cons_of_neg (by simp [hp])
  induction cs with
  | nil => exact htail
  | cons c cs ih =>
    rw [List.cons_append, List.takeWhile_cons, List.takeWhile_cons, ih]

theorem Stops.skipBlank_append (h : Stops tail) (cs : List Char) : skipBlank (cs ++ tail) = skipBlank cs ++ tail :=
  h.dropWhile_append (by decide) cs

end Stops

/-! ### Literals and numbers -/

/-- Whether what a reader takes off a text leads from one zone to another, over no list and no object, and is taken as well from a
text that goes on with a closing brace. -/
def Steady {α : Type} (read : List Char → Reading α) (zone zone' : Zone) : Prop :=
  ∀ cs a rest, read cs = .ok (a, rest) →
    Walk 0 zone cs zone' rest ∧ ∀ tail, Stops tail → read (cs ++ tail) = .ok (a, rest ++ tail)

theorem Steady.map {α β : Type} {read : List Char → Reading α} {zone zone' : Zone} (h : Steady read zone zone') (f : α → β) :
    Steady (fun cs => (read cs).map fun r => (f r.1, r.2)) zone zone' := by
  intro cs b rest hread
  obtain ⟨⟨a, rest'⟩, hpart, heq⟩ := map_eq_ok_iff.1 hread
  cases heq
  obtain ⟨hwalk, hmore⟩ := h cs a rest' hpart
  refine ⟨hwalk, fun tail htail => ?_⟩
  simp only [hmore tail htail, Except.map]

theorem readName_steady {j : Json} {name : List Char} (hname : ∀ c ∈ name, Clear c) : Steady (readName j name) .plain .plain := by
  intro cs a rest hread
  induction name generalizing cs with
  | nil =>
    cases hread
    exact ⟨Walk.refl _ _, fun tail _ => rfl⟩
  | cons n name ih =>
    cases cs with
    | nil => cases hread
    | cons c cs =>
      rw [readName] at hread
      split at hread
      · rename_i heq
        obtain ⟨hwalk, hmore⟩ := ih (fun c hc => hname c (List.mem_cons_of_mem n hc)) cs hread
        refine ⟨hwalk.clear (heq ▸ hname n List.mem_cons_self), fun tail htail => ?_⟩
        rw [List.cons_append, readName, if_pos heq]
        exact hmore tail htail
      · cases hread

theorem readFloat_steady (negative : Bool) (n : Nat) (exponent : Int) : Steady (readFloat negative n exponent) .plain .plain := by
  intro cs a rest hread
  unfold readFloat at hread ⊢
  dsimp only at hread ⊢
  generalize (if negative then -scale n exponent else scale n exponent) = x at hread ⊢
  by_cases hfinite : x.isFinite = true
  · simp only [dif_pos hfinite] at hread ⊢
    cases hread
    exact ⟨Walk.refl _ _, fun tail _ => rfl⟩
  · simp only [dif_neg hfinite] at hread
    cases hread

theorem not_isDigit_brace : Char.isDigit '\x7d' = false := by decide

theorem walk_dropDigits (cs : List Char) : Walk 0 .plain cs .plain (cs.dropWhile Char.isDigit) :=
  walk_dropWhile (fun _ hc => clear_of_isDigit hc) cs

theorem readExponentDigits_steady (negative : Bool) (n : Nat) (start : Int) (down : Bool) (e : Nat) :
    Steady (readExponentDigits negative n start down e) .plain .plain := by
  intro cs a rest hread
  induction cs generalizing e with
  | nil =>
    obtain ⟨hwalk, hmore⟩ := readFloat_steady _ _ _ _ _ _ hread
    refine ⟨hwalk, fun tail htail => ?_⟩
    rcases htail.eq_nil_or_cons with rfl | ⟨more, rfl⟩
    · exact hmore [] stops_nil
    · rw [List.nil_append, readExponentDigits, if_neg (by simp [not_isDigit_brace])]
      exact hmore _ (stops_brace more)
  | cons c cs ih =>
    rw [readExponentDigits] at hread
    split at hread
    · rename_i hdigit
      have hclear : Clear c := clear_of_isDigit hdigit
      split at hread
      · rename_i hfits
        obtain ⟨hwalk, hmore⟩ := ih _ hread
        refine ⟨hwalk.clear hclear, fun tail htail => ?_⟩
        rw [List.cons_append, readExponentDigits, if_pos hdigit, if_pos hfits]
        exact hmore tail htail
      · rename_i hfits
        split at hread
        · cases hread
        · rename_i hzero
          obtain ⟨hwalk, hmore⟩ := readFloat_steady _ _ _ _ _ _ hread
          refine ⟨((walk_dropDigits cs).after hwalk).clear hclear, fun tail htail => ?_⟩
          rw [List.cons_append, readExponentDigits, if_pos hdigit, if_neg hfits, if_neg hzero,
            htail.dropWhile_append not_isDigit_brace]
          exact hmore tail htail
    · rename_i hdigit
      obtain ⟨hwalk, hmore⟩ := readFloat_steady _ _ _ _ _ _ hread
      refine ⟨hwalk, fun tail htail => ?_⟩
      rw [List.cons_append, readExponentDigits, if_neg hdigit]
      exact hmore tail htail

theorem clear_e : Clear 'e' ∧ Clear 'E' ∧ Clear '+' ∧ Clear '-' ∧ Clear '.' := by simp [Clear]

/-- A reader that wants a digit at the start of a text. -/
theorem Steady.ofDigit {α : Type} {read : List Char → Reading α} (h : Steady read .plain .plain) (fault : Fault) :
    Steady (fun cs =>
      match cs with
      | [] => Reading.fail .eofValue []
      | c :: _ => if c.isDigit then read cs else Reading.failNext fault cs) .plain .plain := by
  intro cs a rest hread
  cases cs with
  | nil => cases hread
  | cons c cs =>
    dsimp only at hread
    split at hread
    · rename_i hdigit
      obtain ⟨hwalk, hmore⟩ := h _ _ _ hread
      refine ⟨hwalk, fun tail htail => ?_⟩
      rw [List.cons_append]
      dsimp only
      rw [if_pos hdigit]
      exact hmore tail htail
    · cases hread

/-- An exponent without a sign begins with its digits. -/
theorem readExponent_of_ne {negative : Bool} {n : Nat} {start : Int} {c : Char} {cs : List Char} (hplus : c ≠ '+')
    (hminus : c ≠ '-') : readExponent negative n start (c :: cs) =
      if c.isDigit then readExponentDigits negative n start false 0 (c :: cs) else Reading.failNext .invalidNumber (c :: cs) := by
  unfold readExponent
  split
  rename_i hsign
  split at hsign
  · rename_i heq
    exact absurd (List.cons.inj heq).1 hplus
  · rename_i heq
    exact absurd (List.cons.inj heq).1 hminus
  · cases hsign
    rfl

theorem readExponent_steady (negative : Bool) (n : Nat) (start : Int) : Steady (readExponent negative n start) .plain .plain := by
  have hdigits : ∀ down, Steady (fun cs =>
      match cs with
      | [] => Reading.fail .eofValue []
      | c :: _ => if c.isDigit then readExponentDigits negative n start down 0 cs else Reading.failNext .invalidNumber cs)
      .plain .plain := fun down => (readExponentDigits_steady negative n start down 0).ofDigit .invalidNumber
  obtain ⟨-, -, hplus, hminus, -⟩ := clear_e
  intro cs a rest hread
  cases cs with
  | nil => cases hread
  | cons c cs =>
    by_cases hc : c = '+'
    · subst hc
      obtain ⟨hwalk, hmore⟩ := hdigits false _ _ _ hread
      exact ⟨hwalk.clear hplus, hmore⟩
    · by_cases hc' : c = '-'
      · subst hc'
        obtain ⟨hwalk, hmore⟩ := hdigits true _ _ _ hread
        exact ⟨hwalk.clear hminus, hmore⟩
      · rw [readExponent_of_ne hc hc'] at hread
        obtain ⟨hwalk, hmore⟩ := hdigits false (c :: cs) _ _ hread
        refine ⟨hwalk, fun tail htail => ?_⟩
        rw [List.cons_append, readExponent_of_ne hc hc']
        exact hmore tail htail

/-- A number that does not go on with an exponent ends. -/
theorem readRest_of_ne {negative : Bool} {n : Nat} {exponent : Int} {c : Char} {cs : List Char} (he : c ≠ 'e') (hE : c ≠ 'E') :
    readRest negative n exponent (c :: cs) = readFloat negative n exponent (c :: cs) := by
  unfold readRest
  split
  · rename_i heq
    exact absurd (List.cons.inj heq).1 he
  · rename_i heq
    exact absurd (List.cons.inj heq).1 hE
  · rfl

theorem readRest_steady (negative : Bool) (n : Nat) (exponent : Int) : Steady (readRest negative n exponent) .plain .plain := by
  obtain ⟨he, hE, -, -, -⟩ := clear_e
  intro cs a rest hread
  cases cs with
  | nil =>
    obtain ⟨hwalk, hmore⟩ := readFloat_steady _ _ _ _ _ _ hread
    refine ⟨hwalk, fun tail htail => ?_⟩
    rcases htail.eq_nil_or_cons with rfl | ⟨more, rfl⟩
    · exact hmore [] stops_nil
    · exact hmore _ (stops_brace more)
  | cons c cs =>
    by_cases hc : c = 'e'
    · subst hc
      obtain ⟨hwalk, hmore⟩ := readExponent_steady _ _ _ _ _ _ hread
      exact ⟨hwalk.clear he, hmore⟩
    · by_cases hc' : c = 'E'
      · subst hc'
        obtain ⟨hwalk, hmore⟩ := readExponent_steady _ _ _ _ _ _ hread
        exact ⟨hwalk.clear hE, hmore⟩
      · rw [readRest_of_ne hc hc'] at hread
        obtain ⟨hwalk, hmore⟩ := readFloat_steady _ _ _ _ _ _ hread
        refine ⟨hwalk, fun tail htail => ?_⟩
        rw [List.cons_append, readRest_of_ne hc hc']
        exact hmore tail htail

/-- Digits that are taken are passed over, and the same ones are taken in front of what may follow. -/
theorem takeDigits_steady (n taken : Nat) (cs : List Char) :
    Walk 0 .plain cs .plain (takeDigits n taken cs).2.2 ∧ ∀ tail, Stops tail → takeDigits n taken (cs ++ tail) =
      ((takeDigits n taken cs).1, (takeDigits n taken cs).2.1, (takeDigits n taken cs).2.2 ++ tail) := by
  induction cs generalizing n taken with
  | nil =>
    refine ⟨Walk.refl _ _, fun tail htail => ?_⟩
    rcases htail.eq_nil_or_cons with rfl | ⟨more, rfl⟩
    · rfl
    · have hstop : takeDigits n taken ('\x7d' :: more) = (n, taken, '\x7d' :: more) := by
        rw [takeDigits, if_neg (by simp [not_isDigit_brace])]
      exact hstop
  | cons c cs ih =>
    rw [takeDigits]
    by_cases hc : (c.isDigit && decide (10 * n + Numeral.digitValue c ≤ Numeral.wordMax)) = true
    · obtain ⟨hwalk, hmore⟩ := ih (10 * n + Numeral.digitValue c) (taken + 1)
      rw [if_pos hc]
      refine ⟨hwalk.clear (clear_of_isDigit (Bool.and_eq_true_iff.1 hc).1), fun tail htail => ?_⟩
      rw [List.cons_append, takeDigits, if_pos hc]
      exact hmore tail htail
    · rw [if_neg hc]
      refine ⟨Walk.refl _ _, fun tail htail => ?_⟩
      rw [List.cons_append, takeDigits, if_neg hc]

theorem readFraction_steady (negative : Bool) (n : Nat) (exponent : Int) :
    Steady (readFraction negative n exponent) .plain .plain := by
  have hdigits : Steady (fun cs => readRest negative (takeDigits n 0 cs).1 (exponent - (takeDigits n 0 cs).2.1)
      ((takeDigits n 0 cs).2.2.dropWhile Char.isDigit)) .plain .plain := by
    intro cs a rest hread
    obtain ⟨htaken, htaken'⟩ := takeDigits_steady n 0 cs
    obtain ⟨hwalk, hmore⟩ := readRest_steady _ _ _ _ _ _ hread
    refine ⟨htaken.after ((walk_dropDigits _).after hwalk), fun tail htail => ?_⟩
    dsimp only
    rw [htaken' tail htail, htail.dropWhile_append not_isDigit_brace]
    exact hmore tail htail
  exact hdigits.ofDigit .invalidNumber

theorem readInteger_steady (negative : Bool) (n : Nat) : Steady (readInteger negative n) .plain .plain := by
  intro cs a rest hread
  unfold readInteger at hread ⊢
  split_ifs at hread ⊢
  · cases hread
    exact ⟨Walk.refl _ _, fun tail _ => rfl⟩
  · exact readFloat_steady _ _ _ _ _ _ hread
  · cases hread
    exact ⟨Walk.refl _ _, fun tail _ => rfl⟩
  · exact readFloat_steady _ _ _ _ _ _ hread

/-- What follows the digits of a number, given those that were dropped. -/
def readAfterDigits (negative : Bool) (n : Nat) (dropped : List Char) : List Char → Reading JsonNumber
  | '.' :: after => readFraction negative n dropped.length after
  | 'e' :: after => readExponent negative n dropped.length after
  | 'E' :: after => readExponent negative n dropped.length after
  | after => if dropped.isEmpty then readInteger negative n after else readFloat negative n dropped.length after

theorem readAfterDigits_steady (negative : Bool) (n : Nat) (dropped : List Char) :
    Steady (readAfterDigits negative n dropped) .plain .plain := by
  obtain ⟨he, hE, -, -, hpoint⟩ := clear_e
  have hend : Steady (fun after => if dropped.isEmpty then readInteger negative n after
      else readFloat negative n dropped.length after) .plain .plain := by
    split_ifs
    · exact readInteger_steady negative n
    · exact readFloat_steady negative n dropped.length
  intro cs a rest hread
  unfold readAfterDigits at hread
  split at hread
  · obtain ⟨hwalk, hmore⟩ := readFraction_steady _ _ _ _ _ _ hread
    exact ⟨hwalk.clear hpoint, hmore⟩
  · obtain ⟨hwalk, hmore⟩ := readExponent_steady _ _ _ _ _ _ hread
    exact ⟨hwalk.clear he, hmore⟩
  · obtain ⟨hwalk, hmore⟩ := readExponent_steady _ _ _ _ _ _ hread
    exact ⟨hwalk.clear hE, hmore⟩
  · rename_i hnotPoint hnote hnotE
    obtain ⟨hwalk, hmore⟩ := hend _ _ _ hread
    refine ⟨hwalk, fun tail htail => ?_⟩
    rw [← hmore tail htail]
    cases cs with
    | nil => rcases htail.eq_nil_or_cons with rfl | ⟨more, rfl⟩ <;> rfl
    | cons c cs =>
      rw [List.cons_append]
      unfold readAfterDigits
      split
      · rename_i heq
        cases heq
        exact absurd rfl (hnotPoint cs)
      · rename_i heq
        cases heq
        exact absurd rfl (hnote cs)
      · rename_i heq
        cases heq
        exact absurd rfl (hnotE cs)
      · rfl

theorem readNumber_steady (negative : Bool) : Steady (readNumber negative) .plain .plain := by
  intro cs a rest hread
  cases cs with
  | nil => cases hread
  | cons c cs =>
    rw [readNumber] at hread
    split_ifs at hread with hzero hdigit
    · cases hread
    · obtain ⟨htaken, htaken'⟩ := takeDigits_steady 0 0 (c :: cs)
      obtain ⟨hwalk, hmore⟩ := readAfterDigits_steady _ _ _ _ _ _ hread
      refine ⟨htaken.after ((walk_dropDigits _).after hwalk), fun tail htail => ?_⟩
      have hhead : (cs ++ tail).head?.any Char.isDigit = cs.head?.any Char.isDigit := by
        cases cs with
        | nil => rcases htail.eq_nil_or_cons with rfl | ⟨more, rfl⟩ <;> rfl
        | cons c' cs => rfl
      have htaken := htaken' tail htail
      rw [List.cons_append] at htaken ⊢
      rw [readNumber, hhead, if_neg hzero, if_pos hdigit, htaken]
      dsimp only
      rw [htail.dropWhile_append not_isDigit_brace, htail.takeWhile_append not_isDigit_brace]
      exact hmore tail htail
    · cases hread

/-! ### Strings -/

/-- Whether a character leaves a string and its escapes as they are. -/
def ClearQuoted (c : Char) : Prop := c ≠ '"' ∧ c ≠ '\\'

theorem Walk.clearQuoted {d : Nat} {c : Char} {cs rest : List Char} {zone : Zone} (hc : ClearQuoted c)
    (h : Walk d .quoted cs zone rest) : Walk d .quoted (c :: cs) zone rest := by
  refine Walk.cons (fun opened => rfl) ?_
  rw [Zone.next, if_neg hc.1, if_neg hc.2]
  exact h

theorem clearQuoted_of_hexDigit? {c : Char} {n : Nat} (h : hexDigit? c = some n) : ClearQuoted c := by
  have hquote : hexDigit? '"' = none := by decide
  have hbackslash : hexDigit? '\\' = none := by decide
  constructor
  · rintro rfl
    rw [hquote] at h
    cases h
  · rintro rfl
    rw [hbackslash] at h
    cases h

theorem readHex_steady : Steady readHex .quoted .quoted := by
  intro cs a rest hread
  have hbad : ∀ r, (if (cs.map Char.utf8Size).foldl Nat.add 0 < 4 then Reading.fail .eofString []
      else .error ⟨.invalidEscape, cs, 4, []⟩ : Reading Nat) ≠ .ok r := by
    intro r
    split <;> exact fun h => by cases h
  unfold readHex at hread
  dsimp only at hread
  generalize (if (cs.map Char.utf8Size).foldl Nat.add 0 < 4 then Reading.fail .eofString []
      else .error ⟨.invalidEscape, cs, 4, []⟩ : Reading Nat) = bad at hread hbad
  split at hread
  · split at hread
    · rename_i hx hy hz hw
      cases hread
      refine ⟨?_, fun tail _ => by simp only [readHex, List.cons_append, hx, hy, hz, hw]⟩
      have hlast := (Walk.refl .quoted rest).clearQuoted (clearQuoted_of_hexDigit? hw)
      have hthird := hlast.clearQuoted (clearQuoted_of_hexDigit? hz)
      exact (hthird.clearQuoted (clearQuoted_of_hexDigit? hy)).clearQuoted (clearQuoted_of_hexDigit? hx)
    · exact absurd hread (hbad _)
  · exact absurd hread (hbad _)

theorem readCode_steady : Steady readCode .quoted .quoted := by
  have hmark : ∀ after, Walk 0 .quoted ('\\' :: 'u' :: after) .quoted after :=
    fun after => Walk.cons (fun _ => rfl) (Walk.cons (fun _ => rfl) (Walk.refl _ _))
  intro cs a rest hread
  unfold readCode at hread
  split at hread
  · cases hread
  · rename_i high mid hhigh
    obtain ⟨hwalk, hmore⟩ := readHex_steady _ _ _ hhigh
    split_ifs at hread with hlone hpair
    · cases hread
    · split at hread
      · cases hread
      · cases hread
      · split at hread
        · cases hread
        · rename_i low mid' hlow
          obtain ⟨hwalk', hmore'⟩ := readHex_steady _ _ _ hlow
          split_ifs at hread with hrange
          · obtain ⟨rfl, rfl⟩ := Prod.mk.inj (Except.ok.inj hread)
            refine ⟨hwalk.after ((hmark _).after hwalk'), fun tail htail => ?_⟩
            rw [readCode, hmore tail htail]
            simp only [List.cons_append, hmore' tail htail, if_neg hlone, if_pos hpair, if_pos hrange]
          · cases hread
      · cases hread
      · cases hread
    · cases hread
      refine ⟨hwalk, fun tail htail => ?_⟩
      rw [readCode, hmore tail htail]
      simp only [if_neg hlone, if_neg hpair]

/-- An escape is read behind its backslash. -/
theorem readEscape_steady : Steady readEscape .escaped .quoted := by
  have hsingle : ∀ (c : Char) (cs : List Char), Walk 0 .escaped (c :: cs) .quoted cs :=
    fun c cs => Walk.cons (fun _ => rfl) (Walk.refl _ _)
  intro cs a rest hread
  unfold readEscape at hread
  split at hread
  case h_10 cs =>
    obtain ⟨hwalk, hmore⟩ := readCode_steady _ _ _ hread
    exact ⟨(hsingle _ _).after hwalk, fun tail htail => hmore tail htail⟩
  all_goals
    cases hread
  all_goals
    exact ⟨hsingle _ _, fun tail _ => rfl⟩

/-- The rest of a string is read up to its closing quote. More fuel than is enough changes nothing. -/
theorem readString_steady {fuel : Nat} {done cs rest : List Char} {text : String}
    (hread : readString fuel done cs = .ok (text, rest)) :
    Walk 0 .quoted cs .plain rest ∧ ∀ tail, Stops tail → ∀ more, fuel ≤ more →
      readString more done (cs ++ tail) = .ok (text, rest ++ tail) := by
  induction fuel generalizing done cs with
  | zero => cases hread
  | succ fuel ih =>
    cases cs with
    | nil => cases hread
    | cons c cs =>
      rw [readString] at hread
      split_ifs at hread with hquote hbackslash hcontrol
      · cases hread
        subst hquote
        refine ⟨Walk.cons (fun _ => rfl) (Walk.refl _ _), fun tail _ more hmore => ?_⟩
        obtain ⟨more, rfl⟩ := Nat.exists_eq_add_of_le' hmore
        rfl
      · subst hbackslash
        split at hread
        · cases hread
        · rename_i x mid hescape
          obtain ⟨hwalk, hescape'⟩ := readEscape_steady _ _ _ hescape
          obtain ⟨hrest, hstring⟩ := ih hread
          refine ⟨Walk.cons (fun _ => rfl) (hwalk.after hrest), fun tail htail more hmore => ?_⟩
          obtain ⟨more, rfl⟩ := Nat.exists_eq_add_of_le' hmore
          rw [List.cons_append, ← Nat.add_assoc, readString, if_neg hquote, if_pos rfl, hescape' tail htail]
          exact hstring tail htail _ (Nat.le_add_left _ _)
      · cases hread
      · obtain ⟨hrest, hstring⟩ := ih hread
        refine ⟨hrest.clearQuoted ⟨hquote, hbackslash⟩, fun tail htail more hmore => ?_⟩
        obtain ⟨more, rfl⟩ := Nat.exists_eq_add_of_le' hmore
        rw [List.cons_append, ← Nat.add_assoc, readString, if_neg hquote, if_neg hbackslash, if_neg hcontrol]
        exact hstring tail htail _ (Nat.le_add_left _ _)

/-! ### Values without levels -/

theorem readWith_steady : Steady (readWith none) .plain .plain := by
  have hname : (∀ c ∈ "ull".toList, Clear c) ∧ (∀ c ∈ "rue".toList, Clear c) ∧ ∀ c ∈ "alse".toList, Clear c := by simp [Clear]
  obtain ⟨hnull, htrue, hfalse⟩ := hname
  intro cs j rest hread
  unfold readWith at hread
  split at hread
  · cases hread
  · rename_i next hnext
    obtain ⟨hwalk, hmore⟩ := readName_steady hnull _ _ _ hread
    refine ⟨(walk_blanks hnext).after (hwalk.clear (by simp [Clear])), fun tail htail => ?_⟩
    simp only [readWith, htail.skipBlank_append, hnext, List.cons_append, hmore tail htail]
  · rename_i next hnext
    obtain ⟨hwalk, hmore⟩ := readName_steady htrue _ _ _ hread
    refine ⟨(walk_blanks hnext).after (hwalk.clear (by simp [Clear])), fun tail htail => ?_⟩
    simp only [readWith, htail.skipBlank_append, hnext, List.cons_append, hmore tail htail]
  · rename_i next hnext
    obtain ⟨hwalk, hmore⟩ := readName_steady hfalse _ _ _ hread
    refine ⟨(walk_blanks hnext).after (hwalk.clear (by simp [Clear])), fun tail htail => ?_⟩
    simp only [readWith, htail.skipBlank_append, hnext, List.cons_append, hmore tail htail]
  · rename_i next hnext
    obtain ⟨⟨text, rest'⟩, htext, heq⟩ := map_eq_ok_iff.1 hread
    cases heq
    obtain ⟨hwalk, hmore⟩ := readString_steady htext
    refine ⟨(walk_blanks hnext).after (Walk.cons (fun _ => rfl) hwalk), fun tail htail => ?_⟩
    simp only [readWith, htail.skipBlank_append, hnext, List.cons_append]
    rw [hmore tail htail _ (by simp)]
    rfl
  · rename_i next hnext
    obtain ⟨hwalk, hmore⟩ := ((readNumber_steady true).map Json.number) _ _ _ hread
    refine ⟨(walk_blanks hnext).after (hwalk.clear (by simp [Clear])), fun tail htail => ?_⟩
    simp only [readWith, htail.skipBlank_append, hnext, List.cons_append, hmore tail htail]
  · cases hread
  · cases hread
  · rename_i c next _ _ _ _ _ _ _ hnext
    split at hread
    · rename_i hdigit
      obtain ⟨hwalk, hmore⟩ := ((readNumber_steady false).map Json.number) _ _ _ hread
      refine ⟨(walk_blanks hnext).after hwalk, fun tail htail => ?_⟩
      rw [← hmore tail htail]
      have hhead : skipBlank (cs ++ tail) = c :: (next ++ tail) := by rw [htail.skipBlank_append, hnext, List.cons_append]
      unfold readWith
      rw [hhead]
      split
      case h_9 heq =>
        cases heq
        rw [if_pos hdigit]
        rfl
      all_goals
        rename_i heq
        cases heq
        try exact absurd hdigit (by decide)
    · cases hread

end Json

end Conform
