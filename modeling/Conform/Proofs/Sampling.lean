import Mathlib
import Conform.Check.Sample
import Conform.Json.Printer
import Conform.Proofs.Expressible

/-!
# What is sampled

Every sample is of a place: a file, a line of it where files are read line by line, and an output of the filter where there is one.
`Sample.placed` lists all that can be found in a file with its places, without a word about errors, and `Sample.Flawed` says what
keeps a file from being sampled. Sampling succeeds exactly when no file is flawed, and then gives what the files hold, file by file
and place by place (`sampling_exact`).

A label spells a place, and no two places are spelled alike as long as paths are different: the number behind the last mark has no
mark in it, so it can be taken off again whatever the path looks like (`Sample.Place.label_injective`).
-/

namespace Conform

/-! ### Lines -/

namespace Lines

/-- How a text divides into lines. Each line ends at its first line feed, and a carriage return right before that belongs to the
ending; what follows the last line feed is a line unless it is empty, and keeps all its characters. -/
inductive Divides : List Char → List (List Char) → Prop where
  | done : Divides [] []
  | last {line : List Char} (hline : '\n' ∉ line) (hsome : line ≠ []) : Divides line [line]
  | lineFeed {line text : List Char} {lines : List (List Char)} (hline : '\n' ∉ line) (hreturn : line.getLast? ≠ some '\r')
      (h : Divides text lines) : Divides (line ++ '\n' :: text) (line :: lines)
  | carriageReturn {line text : List Char} {lines : List (List Char)} (hline : '\n' ∉ line) (h : Divides text lines) :
      Divides (line ++ '\r' :: '\n' :: text) (line :: lines)

variable {line text : List Char}

/-- Without a line feed all is one line, unless it is empty. -/
theorem splitFrom_of_notMem (h : '\n' ∉ line) (current : List Char) :
    splitFrom current line = if current.reverse ++ line = [] then [] else [current.reverse ++ line] := by
  induction line generalizing current with
  | nil =>
    rw [splitFrom, List.append_nil]
    by_cases hcurrent : current = [] <;> simp [hcurrent]
  | cons c line ih =>
    obtain ⟨hc, hrest⟩ := not_or.1 (mt List.mem_cons.2 h)
    rw [splitFrom, ih hrest, List.reverse_cons, List.append_assoc, List.singleton_append]
    exact fun heq => hc heq.symm

/-- At a line feed the line ends and the next one begins. -/
theorem splitFrom_append (h : '\n' ∉ line) (current text : List Char) :
    splitFrom current (line ++ '\n' :: text) = chomp (current.reverse ++ line) :: split text := by
  induction line generalizing current with
  | nil => rw [List.nil_append, splitFrom, List.append_nil, split]
  | cons c line ih =>
    obtain ⟨hc, hrest⟩ := not_or.1 (mt List.mem_cons.2 h)
    rw [List.cons_append, splitFrom, ih hrest, List.reverse_cons, List.append_assoc, List.singleton_append]
    exact fun heq => hc heq.symm

theorem chomp_of_getLast?_ne (h : line.getLast? ≠ some '\r') : chomp line = line := if_neg h

theorem chomp_append_return (line : List Char) : chomp (line ++ ['\r']) = line := by
  simp [chomp]

/-- Splitting divides a text into lines. -/
theorem divides_split (text : List Char) : Divides text (split text) := by
  by_cases hfeed : '\n' ∈ text
  · obtain ⟨line, rest, htext, hline⟩ := List.eq_append_cons_of_mem hfeed
    have hrest : Divides rest (split rest) := divides_split rest
    rw [htext, split, splitFrom_append hline, List.reverse_nil, List.nil_append]
    by_cases hreturn : line.getLast? = some '\r'
    · obtain ⟨short, rfl⟩ := List.getLast?_eq_some_iff.1 hreturn
      rw [chomp_append_return, List.append_assoc, List.singleton_append]
      exact .carriageReturn (fun hmem => hline (List.mem_append_left _ hmem)) hrest
    · rw [chomp_of_getLast?_ne hreturn]
      exact .lineFeed hline hreturn hrest
  · rw [split, splitFrom_of_notMem hfeed, List.reverse_nil, List.nil_append]
    split
    · rename_i hempty
      rw [hempty]
      exact .done
    · rename_i hsome
      exact .last hfeed hsome
termination_by text.length
decreasing_by
  rw [htext, List.length_append, List.length_cons]
  omega

/-- There is one way to divide a text into lines, which is to split it. -/
theorem divides_iff {lines : List (List Char)} : Divides text lines ↔ split text = lines := by
  constructor
  · intro h
    induction h with
    | done => rfl
    | last hline hsome =>
      rw [split, splitFrom_of_notMem hline, List.reverse_nil, List.nil_append, if_neg hsome]
    | lineFeed hline hreturn _ ih =>
      rw [split, splitFrom_append hline, ih, List.reverse_nil, List.nil_append, chomp_of_getLast?_ne hreturn]
    | @carriageReturn line text lines hline _ ih =>
      have hshort : '\n' ∉ line ++ ['\r'] := by simp [hline]
      have hsplit := splitFrom_append hshort [] text
      rw [List.append_assoc, List.singleton_append] at hsplit
      rw [split, hsplit, ih, List.reverse_nil, List.nil_append, chomp_append_return]
  · rintro rfl
    exact divides_split text

end Lines

/-! ### Labels -/

/-- Two texts that each end in a mark and something without the mark are the same only part by part. -/
theorem eq_of_append_mark {α : Type} {mark : α} {xs ys ds es : List α} (hds : mark ∉ ds) (hes : mark ∉ es)
    (h : xs ++ mark :: ds = ys ++ mark :: es) : xs = ys ∧ ds = es := by
  rcases List.append_eq_append_iff.1 h with ⟨between, rfl, htail⟩ | ⟨between, rfl, htail⟩
  · cases between with
    | nil => exact ⟨(List.append_nil xs).symm, (List.cons.inj htail).2⟩
    | cons c between =>
      refine absurd ?_ hds
      rw [(List.cons.inj htail).2]
      exact List.mem_append_right _ List.mem_cons_self
  · cases between with
    | nil => exact ⟨List.append_nil ys, (List.cons.inj htail).2.symm⟩
    | cons c between =>
      refine absurd ?_ hes
      rw [(List.cons.inj htail).2]
      exact List.mem_append_right _ List.mem_cons_self

namespace Sample

/-- A number behind a mark; nothing if there is none. -/
def behind (mark : Char) : Option Nat → String
  | none => ""
  | some n => String.singleton mark ++ toString n

theorem toList_behind_some (mark : Char) (n : Nat) : (behind mark (some n)).toList = mark :: (toString n).toList := by
  rw [behind, String.toList_append, String.toList_singleton, List.singleton_append]

/-- A number can be taken off again, whatever stands before the mark. -/
theorem append_behind_inj {mark : Char} (hmark : mark.isDigit = false) {text text' : String} {n n' : Option Nat}
    (hsome : n.isSome = n'.isSome) (h : text ++ behind mark n = text' ++ behind mark n') : text = text' ∧ n = n' := by
  have hnumeral : ∀ n : Nat, mark ∉ (toString n).toList := by
    intro n hmem
    have hdigits : (toString n).toList = Nat.toDigits 10 n := Nat.toList_repr
    rw [hdigits] at hmem
    have hdigit := Nat.isDigit_of_mem_toDigits (by decide) (by decide) hmem
    rw [hmark] at hdigit
    cases hdigit
  match n, n', hsome with
  | none, none, _ =>
    simp only [behind, String.append_empty] at h
    exact ⟨h, rfl⟩
  | some n, some n', _ =>
    have hlists := congrArg String.toList h
    rw [String.toList_append, String.toList_append, toList_behind_some, toList_behind_some] at hlists
    obtain ⟨htext, hdigits⟩ := eq_of_append_mark (hnumeral n) (hnumeral n') hlists
    exact ⟨String.toList_inj.1 htext, congrArg some (Nat.repr_inj.1 (String.toList_inj.1 hdigits))⟩

/-- Where a sample is found: in a file, on a line, at an output of the filter. Lines count from one and outputs from zero. -/
structure Place where
  path : String
  line : Option Nat
  output : Option Nat

namespace Place

/-- The label of a place. -/
def label (p : Place) : String := p.path ++ behind ':' p.line ++ behind '#' p.output

/-- Whether the places of a selection have numbers for lines and outputs. -/
def Fits (selection : Selection) (p : Place) : Prop :=
  p.line.isSome = selection.lines ∧ p.output.isSome = selection.filter.isSome

/-- Different places of a selection have different labels. -/
theorem label_injective {selection : Selection} {p q : Place} (hp : p.Fits selection) (hq : q.Fits selection)
    (h : p.label = q.label) : p = q := by
  obtain ⟨path, line, output⟩ := p
  obtain ⟨path', line', output'⟩ := q
  obtain ⟨hfront, rfl⟩ := append_behind_inj rfl (hp.2.trans hq.2.symm) h
  obtain ⟨rfl, rfl⟩ := append_behind_inj rfl (hp.1.trans hq.1.symm) hfront
  rfl

end Place

end Sample

/-! ### Outputs of filters -/

namespace Filter

/-- What a filter gives for a node, where it gives anything: the JSON values of the outputs that the engine has, all of them and in
order. -/
def Yields (engine : Engine) (filter : String) (node : Json) (results : List Json) : Prop :=
  ∃ outputs, engine filter node = .ok outputs ∧
    List.Forall₂ (fun output j => ∃ text, output = .ok text ∧ Json.parse? text = .ok j) outputs results

/-- Why a filter gives nothing for a node: the engine refuses it, or an output is a failure, or an output is no JSON. -/
inductive FailsOn (engine : Engine) (filter : String) (node : Json) : Prop where
  | refused {refusal : Refusal} (h : engine filter node = .error refusal)
  | failed {outputs : List (Except String String)} {description : String} (houtputs : engine filter node = .ok outputs)
      (h : .error description ∈ outputs)
  | notJson {outputs : List (Except String String)} {text : String} {e : Json.ReadError}
      (houtputs : engine filter node = .ok outputs) (htext : .ok text ∈ outputs) (h : Json.parse? text = .error e)

/-- The JSON values among the outputs of a filter, in order. -/
def results (engine : Engine) (filter : String) (node : Json) : List Json :=
  match engine filter node with
  | .error _ => []
  | .ok outputs => outputs.filterMap fun output => output.toOption.bind fun text => (Json.parse? text).toOption

variable {engine : Engine} {filter : String} {node : Json} {js : List Json}

theorem document?_eq_ok_iff {index : Nat} {output : Except String String} {j : Json} :
    document? index output = .ok j ↔ ∃ text, output = .ok text ∧ Json.parse? text = .ok j := by
  cases output with
  | error description => simp [document?]
  | ok text => simp [document?, mapError_eq_ok_iff]

/-- Outputs give documents when each of them is one. -/
theorem documents?_eq_ok_iff {index : Nat} {outputs : List (Except String String)} : documents? index outputs = .ok js ↔
    List.Forall₂ (fun output j => ∃ text, output = .ok text ∧ Json.parse? text = .ok j) outputs js := by
  induction outputs generalizing index js with
  | nil =>
    rw [documents?, List.forall₂_nil_left_iff, Except.ok.injEq, eq_comm]
  | cons output outputs ih =>
    rw [documents?, List.forall₂_cons_left_iff]
    constructor
    · intro h
      split at h
      · cases h
      · rename_i j hj
        obtain ⟨rest, hrest, rfl⟩ := map_eq_ok_iff.1 h
        exact ⟨j, rest, document?_eq_ok_iff.1 hj, ih.1 hrest, rfl⟩
    · rintro ⟨j, rest, hj, hrest, rfl⟩
      rw [document?_eq_ok_iff.2 hj]
      exact map_eq_ok_iff.2 ⟨rest, ih.2 hrest, rfl⟩

/-- Running a filter gives what it yields. -/
theorem run?_eq_ok_iff : run? engine filter node = .ok js ↔ Yields engine filter node js := by
  unfold run? Yields
  cases engine filter node with
  | error refusal => simp
  | ok outputs => simp [documents?_eq_ok_iff]

/-- What a filter yields are the JSON values among its outputs. -/
theorem Yields.results_eq (h : Yields engine filter node js) : results engine filter node = js := by
  have hvalue : ∀ text j, Json.parse? text = .ok j →
      (Except.ok text : Except String String).toOption.bind (fun text => (Json.parse? text).toOption) = some j := by
    intro text j hj
    simp [Except.toOption, hj]
  obtain ⟨outputs, houtputs, hjs⟩ := h
  simp only [results, houtputs]
  clear houtputs
  induction hjs with
  | nil => rfl
  | cons hfirst _ ih =>
    obtain ⟨text, rfl, hj⟩ := hfirst
    rw [List.filterMap_cons, hvalue text _ hj, ih]

/-- A filter yields something unless it fails. -/
theorem exists_yields_iff : (∃ js, Yields engine filter node js) ↔ ¬FailsOn engine filter node := by
  constructor
  · rintro ⟨js, outputs, houtputs, hjs⟩ hfails
    cases hfails with
    | refused h => cases houtputs.symm.trans h
    | failed houtputs' hfailure =>
      cases houtputs.symm.trans houtputs'
      obtain ⟨_, _, text, htext, _⟩ := exists_mem_of_forall₂ hjs _ hfailure
      cases htext
    | notJson houtputs' htext h =>
      cases houtputs.symm.trans houtputs'
      obtain ⟨_, _, text, hsame, hj⟩ := exists_mem_of_forall₂ hjs _ htext
      cases hsame
      cases hj.symm.trans h
  · intro hfails
    cases houtputs : engine filter node with
    | error refusal => exact absurd (.refused houtputs) hfails
    | ok outputs =>
      have hread : ∀ output ∈ outputs, ∃ j, True ∧ ∃ text, output = .ok text ∧ Json.parse? text = .ok j := by
        intro output houtput
        cases output with
        | error description => exact absurd (.failed houtputs houtput) hfails
        | ok text =>
          cases hj : Json.parse? text with
          | error e => exact absurd (.notJson houtputs houtput hj) hfails
          | ok j => exact ⟨j, trivial, text, rfl, hj⟩
      obtain ⟨js, _, hjs⟩ := Tree.exists_forall₂ hread
      exact ⟨js, outputs, houtputs, hjs.flip⟩

theorem run?_eq_error_iff : (∃ e, run? engine filter node = .error e) ↔ FailsOn engine filter node := by
  rw [← not_iff_not, ← exists_yields_iff]
  cases hrun : run? engine filter node with
  | error e => simp [← run?_eq_ok_iff, hrun]
  | ok js => simp [← run?_eq_ok_iff, hrun]

end Filter

namespace Sample

/-! ### What files hold -/

/-- The JSON texts in a file: the whole, or the lines that are not blank with their numbers. -/
def texts (byLine : Bool) (content : String) : List (Option Nat × String) :=
  if byLine then
    (Lines.split content.toList).zipIdx.filterMap fun line =>
      if Blank.isBlank line.1 then none else some (some (line.2 + 1), String.ofList line.1)
  else [(none, content)]

/-- The node of a value under a pointer, if there is a pointer. -/
def pointed? (pointer : Option String) (j : Json) : Option Json :=
  match pointer with
  | none => some j
  | some p => Pointer.select? p j

/-- The outputs of a filter on a node, with their numbers; the node alone if there is no filter. -/
def outputs (engine : Filter.Engine) (filter : Option String) (node : Json) : List (Option Nat × Json) :=
  match filter with
  | none => [(none, node)]
  | some f => (Filter.results engine f node).zipIdx.map fun output => (some output.2, output.1)

/-- What is selected of a JSON text. -/
def selected (engine : Filter.Engine) (selection : Selection) (text : String) : List (Option Nat × Json) :=
  match (Json.parse? text).toOption.bind (pointed? selection.pointer) with
  | none => []
  | some node => outputs engine selection.filter node

/-- What is found in a file, with its places. -/
def placed (engine : Filter.Engine) (selection : Selection) (source : String × Except FileError String) : List (Place × Json) :=
  match source.2 with
  | .error _ => []
  | .ok content =>
    (texts selection.lines content).flatMap fun text =>
      (selected engine selection text.2).map fun output => (⟨source.1, text.1, output.1⟩, output.2)

/-- The sample of what is found at a place. -/
def ofPlaced (found : Place × Json) : Sample := ⟨found.1.label, found.2⟩

/-- Why a file is not sampled: it cannot be read, or one of its texts is no JSON, or has no node under the pointer, or has a node
there on which the filter fails. -/
inductive Flawed (engine : Filter.Engine) (selection : Selection) : String × Except FileError String → Prop where
  | unreadable (path : String) (e : FileError) : Flawed engine selection (path, .error e)
  | notJson {path content : String} {text : Option Nat × String} {e : Json.ReadError} (htext : text ∈ texts selection.lines content)
      (h : Json.parse? text.2 = .error e) : Flawed engine selection (path, .ok content)
  | nothingSelected {path content : String} {text : Option Nat × String} {j : Json}
      (htext : text ∈ texts selection.lines content) (hj : Json.parse? text.2 = .ok j)
      (h : pointed? selection.pointer j = none) : Flawed engine selection (path, .ok content)
  | filterFailed {path content : String} {text : Option Nat × String} {j node : Json} {f : String}
      (htext : text ∈ texts selection.lines content) (hj : Json.parse? text.2 = .ok j)
      (hnode : pointed? selection.pointer j = some node) (hf : selection.filter = some f) (h : Filter.FailsOn engine f node) :
      Flawed engine selection (path, .ok content)

/-! ### Sampling one text -/

/-- Whether a text is JSON, with a node under the pointer on which the filter does not fail. -/
def Sound (engine : Filter.Engine) (selection : Selection) (text : String) : Prop :=
  ∃ j node, Json.parse? text = .ok j ∧ pointed? selection.pointer j = some node ∧
    ∀ f, selection.filter = some f → ∃ results, Filter.Yields engine f node results

variable {engine : Filter.Engine}

theorem point?_eq_ok_iff {pointer : Option String} {s node : Sample} :
    point? pointer s = .ok node ↔ ∃ j, pointed? pointer s.value = some j ∧ node = ⟨s.label, j⟩ := by
  cases pointer with
  | none =>
    constructor
    · rintro ⟨⟩
      exact ⟨_, rfl, rfl⟩
    · rintro ⟨j, ⟨⟩, rfl⟩
      rfl
  | some p =>
    rw [point?, pointed?]
    cases Pointer.select? p s.value with
    | none => simp
    | some j => simp [eq_comm]

theorem interpolate_eq_behind (text : String) (n : Nat) : s!"{text}:{n}" = text ++ behind ':' (some n) ∧
    s!"{text}#{n}" = text ++ behind '#' (some n) := ⟨String.append_assoc .., String.append_assoc ..⟩

theorem filter?_eq_ok_iff {filter : Option String} {s : Sample} {samples : List Sample} :
    filter? engine filter s = .ok samples ↔ (∀ f, filter = some f → ∃ results, Filter.Yields engine f s.value results) ∧
      samples = (outputs engine filter s.value).map fun output => ⟨s.label ++ behind '#' output.1, output.2⟩ := by
  unfold filter? outputs
  cases filter with
  | none => simp [behind, eq_comm]
  | some f =>
    simp only [Option.some.injEq, forall_eq', List.map_map, ← Filter.run?_eq_ok_iff]
    cases hrun : Filter.run? engine f s.value with
    | error e => simp
    | ok results =>
      rw [(Filter.run?_eq_ok_iff.1 hrun).results_eq]
      simp only [(interpolate_eq_behind s.label _).2, Except.ok.injEq, exists_eq', true_and, eq_comm]
      exact Iff.rfl

/-- What is selected of a sample that was read from a text. -/
theorem exists_select?_iff {selection : Selection} {label text : String} {samples : List Sample} :
    (∃ s : Sample, (Json.parse? text = .ok s.value ∧ s.label = label) ∧ select? engine selection s = .ok samples) ↔
      Sound engine selection text ∧
        samples = (selected engine selection text).map fun output => ⟨label ++ behind '#' output.1, output.2⟩ := by
  constructor
  · rintro ⟨⟨label, j⟩, ⟨hparse, rfl⟩, hselect⟩
    unfold select? at hselect
    split at hselect
    · cases hselect
    · rename_i node hpoint
      obtain ⟨k, hnode, rfl⟩ := point?_eq_ok_iff.1 hpoint
      obtain ⟨hfilter, hsamples⟩ := filter?_eq_ok_iff.1 hselect
      refine ⟨⟨j, k, hparse, hnode, hfilter⟩, ?_⟩
      have hselected : selected engine selection text = outputs engine selection.filter k := by
        rw [selected, hparse]
        show (match pointed? selection.pointer j with | none => [] | some node => outputs engine selection.filter node) = _
        rw [hnode]
      rw [hsamples, hselected]
  · rintro ⟨⟨j, k, hparse, hnode, hfilter⟩, rfl⟩
    refine ⟨⟨label, j⟩, ⟨hparse, rfl⟩, ?_⟩
    have hpoint : point? selection.pointer ⟨label, j⟩ = .ok ⟨label, k⟩ := point?_eq_ok_iff.2 ⟨k, hnode, rfl⟩
    rw [select?, hpoint]
    refine filter?_eq_ok_iff.2 ⟨hfilter, ?_⟩
    rw [selected, hparse]
    show (match pointed? selection.pointer j with | none => [] | some node => outputs engine selection.filter node).map _ = _
    rw [hnode]

/-! ### Sampling rows -/

section

variable {ε α β γ : Type}

/-- A row is mapped when every item is. -/
theorem mapM_eq_ok_iff {f : α → Except ε β} {l : List α} {bs : List β} :
    l.mapM f = .ok bs ↔ List.Forall₂ (fun a b => f a = .ok b) l bs := by
  induction l generalizing bs with
  | nil =>
    rw [List.mapM_nil, List.forall₂_nil_left_iff]
    exact ⟨fun h => (Except.ok.inj h).symm, fun h => congrArg Except.ok h.symm⟩
  | cons a l ih =>
    rw [List.mapM_cons, List.forall₂_cons_left_iff]
    cases hfirst : f a with
    | error e => simp [bind, Except.bind]
    | ok b =>
      cases hrest : l.mapM f with
      | error e =>
        rw [hrest] at ih
        simp [bind, Except.bind, ← ih]
      | ok rest =>
        rw [hrest] at ih
        simp [bind, Except.bind, pure, Except.pure, ← ih, eq_comm]

/-- Two rows are related through a third one when their items are related through items. -/
theorem exists_forall₂_iff {R : α → β → Prop} {S : β → γ → Prop} {l : List α} {u : List γ} :
    (∃ m, List.Forall₂ R l m ∧ List.Forall₂ S m u) ↔ List.Forall₂ (fun a c => ∃ b, R a b ∧ S b c) l u := by
  constructor
  · rintro ⟨m, hl, hu⟩
    induction hl generalizing u with
    | nil =>
      cases hu
      exact .nil
    | cons hfirst _ ih =>
      cases hu with
      | cons hsecond hu => exact .cons ⟨_, hfirst, hsecond⟩ (ih hu)
  · intro h
    induction h with
    | nil => exact ⟨[], .nil, .nil⟩
    | cons hfirst _ ih =>
      obtain ⟨b, hb, hc⟩ := hfirst
      obtain ⟨m, hl, hu⟩ := ih
      exact ⟨b :: m, .cons hb hl, .cons hc hu⟩

/-- Two rows are related by a function on items of some kind when all items of the one are of the kind and the other is its image. -/
theorem forall₂_iff_eq_map {P : α → Prop} {g : α → β} {l : List α} {u : List β} :
    List.Forall₂ (fun a b => P a ∧ b = g a) l u ↔ (∀ a ∈ l, P a) ∧ u = l.map g := by
  rw [List.forall₂_and_left]
  refine and_congr_right fun _ => ?_
  rw [← List.forall₂_map_left_iff (f := g) (R := fun a b => b = a)]
  constructor
  · intro h
    exact (List.forall₂_eq_eq_eq ▸ h.flip : u = l.map g)
  · rintro rfl
    exact List.forall₂_same.2 fun _ _ => rfl

end

/-! ### Sampling files -/

theorem read_eq_ok_iff {label text : String} {e : Json.ReadError → SampleError} {s : Sample} :
    ((Json.parse? text).map (Sample.mk label)).mapError e = .ok s ↔ Json.parse? text = .ok s.value ∧ s.label = label := by
  obtain ⟨label', j⟩ := s
  cases Json.parse? text with
  | error e => simp [Except.map, Except.mapError]
  | ok j' => simp [Except.map, Except.mapError, and_comm, eq_comm]

/-- The lines of a file that are sampled, with the numbers that they have among all lines. -/
theorem texts_true (content : String) :
    texts true content = (lines content).map fun line => (some line.2, String.ofList line.1) := by
  rw [texts, if_pos rfl, lines, List.zipIdx_succ, List.filter_map, List.map_map, ← List.filterMap_eq_map,
    ← List.filterMap_eq_filter, List.filterMap_filterMap]
  refine List.filterMap_congr fun line _ => ?_
  by_cases hblank : Blank.isBlank line.1 <;> simp [hblank, Option.guard]

/-- The texts of a file are read when each of them is JSON, and give their values under the labels of their places. -/
theorem ofFile?_eq_ok_iff {byLine : Bool} {path content : String} {samples : List Sample} :
    ofFile? byLine path content = .ok samples ↔
      List.Forall₂ (fun text s => Json.parse? text.2 = .ok s.value ∧ s.label = path ++ behind ':' text.1)
        (texts byLine content) samples := by
  cases byLine with
  | false =>
    have hread : ofFile? false path content = .ok samples ↔ ∃ s, ofText? path content = .ok s ∧ [s] = samples := by
      rw [ofFile?, if_neg Bool.false_ne_true]
      cases ofText? path content <;> simp [Except.map]
    have htexts : texts false content = [(none, content)] := rfl
    rw [hread, htexts, List.forall₂_cons_left_iff]
    constructor
    · rintro ⟨s, hs, rfl⟩
      obtain ⟨hparse, hlabel⟩ := read_eq_ok_iff.1 hs
      exact ⟨s, [], ⟨hparse, hlabel.trans String.append_empty.symm⟩, .nil, rfl⟩
    · rintro ⟨s, _, ⟨hparse, hlabel⟩, ⟨⟩, rfl⟩
      exact ⟨s, read_eq_ok_iff.2 ⟨hparse, hlabel.trans String.append_empty⟩, rfl⟩
  | true =>
    rw [ofFile?, if_pos rfl, mapM_eq_ok_iff, texts_true, List.forall₂_map_left_iff]
    simp only [ofLine?, read_eq_ok_iff, (interpolate_eq_behind path _).1]

/-- A file with a content is flawed when one of its texts is not sound. -/
theorem flawed_iff {selection : Selection} {path content : String} :
    Flawed engine selection (path, .ok content) ↔ ∃ text ∈ texts selection.lines content, ¬Sound engine selection text.2 := by
  constructor
  · intro h
    cases h with
    | notJson htext h =>
      refine ⟨_, htext, ?_⟩
      rintro ⟨j, _, hj, _⟩
      rw [h] at hj
      cases hj
    | nothingSelected htext hj h =>
      refine ⟨_, htext, ?_⟩
      rintro ⟨j', node, hj', hnode, _⟩
      cases hj.symm.trans hj'
      rw [h] at hnode
      cases hnode
    | filterFailed htext hj hnode hf h =>
      refine ⟨_, htext, ?_⟩
      rintro ⟨j', node', hj', hnode', hfilter⟩
      cases hj.symm.trans hj'
      cases hnode.symm.trans hnode'
      exact Filter.exists_yields_iff.1 (hfilter _ hf) h
  · rintro ⟨text, htext, hsound⟩
    cases hj : Json.parse? text.2 with
    | error e => exact .notJson htext hj
    | ok j =>
      cases hnode : pointed? selection.pointer j with
      | none => exact .nothingSelected htext hj hnode
      | some node =>
        obtain ⟨f, hf, hfails⟩ : ∃ f, selection.filter = some f ∧ Filter.FailsOn engine f node := by
          by_contra hnone
          refine hsound ⟨j, node, hj, hnode, fun f hf => Filter.exists_yields_iff.2 fun hfails => ?_⟩
          exact hnone ⟨f, hf, hfails⟩
        exact .filterFailed htext hj hnode hf hfails

/-- Sampling a file succeeds when it is not flawed, and gives what is found in it. -/
theorem ofSource?_eq_ok_iff {selection : Selection} {source : String × Except FileError String} {samples : List Sample} :
    ofSource? engine selection source = .ok samples ↔
      ¬Flawed engine selection source ∧ samples = (placed engine selection source).map ofPlaced := by
  obtain ⟨path, e | content⟩ := source
  · constructor
    · intro h
      cases h
    · rintro ⟨hsound, _⟩
      exact absurd (.unreadable path e) hsound
  · have hpasses : ofSource? engine selection (path, .ok content) = .ok samples ↔ ∃ parts : List (List Sample),
        (∃ read, ofFile? selection.lines path content = .ok read ∧ read.mapM (select? engine selection) = .ok parts) ∧
          samples = parts.flatten := by
      simp only [ofSource?]
      cases ofFile? selection.lines path content with
      | error e => simp
      | ok read =>
        simp only [Except.ok.injEq, exists_eq_left']
        cases read.mapM (select? engine selection) <;> simp [Except.map, eq_comm]
    have hplaced : placed engine selection (path, .ok content) = (texts selection.lines content).flatMap fun text =>
        (selected engine selection text.2).map fun output => (⟨path, text.1, output.1⟩, output.2) := rfl
    simp only [hpasses, ofFile?_eq_ok_iff, mapM_eq_ok_iff, exists_forall₂_iff, exists_select?_iff, forall₂_iff_eq_map,
      flawed_iff, hplaced, not_exists, not_and, not_not]
    constructor
    · rintro ⟨parts, ⟨hsound, rfl⟩, rfl⟩
      refine ⟨hsound, ?_⟩
      rw [← List.flatMap_def, List.map_flatMap]
      simp only [List.map_map]
      rfl
    · rintro ⟨hsound, rfl⟩
      refine ⟨_, ⟨hsound, rfl⟩, ?_⟩
      rw [← List.flatMap_def, List.map_flatMap]
      simp only [List.map_map]
      rfl

/-- Sampling files succeeds when none is flawed, and gives what is found in them, one file after the other. -/
theorem ofSources?_eq_ok_iff {selection : Selection} {sources : List (String × Except FileError String)} {samples : List Sample} :
    ofSources? engine selection sources = .ok samples ↔ (∀ source ∈ sources, ¬Flawed engine selection source) ∧
      samples = (sources.flatMap (placed engine selection)).map ofPlaced := by
  have hparts : ofSources? engine selection sources = .ok samples ↔ ∃ parts : List (List Sample),
      sources.mapM (ofSource? engine selection) = .ok parts ∧ samples = parts.flatten := by
    unfold ofSources?
    cases sources.mapM (ofSource? engine selection) <;> simp [Except.map, eq_comm]
  simp only [hparts, mapM_eq_ok_iff, ofSource?_eq_ok_iff, forall₂_iff_eq_map]
  constructor
  · rintro ⟨parts, ⟨hsound, rfl⟩, rfl⟩
    exact ⟨hsound, by rw [← List.flatMap_def, List.map_flatMap]⟩
  · rintro ⟨hsound, rfl⟩
    exact ⟨_, ⟨hsound, rfl⟩, by rw [← List.flatMap_def, List.map_flatMap]⟩

/-! ### No place twice -/

/-- A row made of parts repeats nothing when no part does, and each part can be told from what it holds. -/
theorem nodup_map_flatMap {α β κ τ : Type} {f : α → List β} {key : β → κ} {tag : α → τ} (part : κ → τ) {l : List α}
    (hl : (l.map tag).Nodup) (hpart : ∀ a ∈ l, ∀ b ∈ f a, part (key b) = tag a) (hf : ∀ a ∈ l, ((f a).map key).Nodup) :
    ((l.flatMap f).map key).Nodup := by
  induction l with
  | nil => exact List.nodup_nil
  | cons a l ih =>
    obtain ⟨hfresh, hrest⟩ := List.nodup_cons.1 hl
    rw [List.flatMap_cons, List.map_append, List.nodup_append]
    refine ⟨hf a List.mem_cons_self, ih hrest (fun a ha => hpart a (List.mem_cons_of_mem _ ha))
      fun a ha => hf a (List.mem_cons_of_mem _ ha), ?_⟩
    rintro _ hkey _ hkey' rfl
    obtain ⟨b, hb, rfl⟩ := List.mem_map.1 hkey
    obtain ⟨b', hmem, heq⟩ := List.mem_map.1 hkey'
    obtain ⟨a', ha', hb'⟩ := List.mem_flatMap.1 hmem
    refine hfresh (List.mem_map.2 ⟨a', ha', ?_⟩)
    rw [← hpart a' (List.mem_cons_of_mem _ ha') b' hb', heq, hpart a List.mem_cons_self b hb]

theorem nodup_map_zipIdx {α : Type} (l : List α) (k : Nat) : ((l.zipIdx k).map fun x => some x.2).Nodup := by
  have hnumbers : (l.zipIdx k).map Prod.snd = List.range' k l.length := List.zipIdx_map_snd ..
  have hnodup := (List.nodup_range' (s := k) (n := l.length)).map (Option.some_injective Nat)
  rwa [← hnumbers, List.map_map] at hnodup

/-- The texts of a file are told apart by their lines. -/
theorem nodup_texts (byLine : Bool) (content : String) : ((texts byLine content).map Prod.fst).Nodup := by
  cases byLine with
  | false => exact List.nodup_singleton none
  | true =>
    rw [texts_true, List.map_map, lines]
    exact (nodup_map_zipIdx _ 1).sublist (List.filter_sublist.map _)

/-- What is selected of a text is told apart by the outputs of the filter. -/
theorem nodup_selected (engine : Filter.Engine) (selection : Selection) (text : String) :
    ((selected engine selection text).map Prod.fst).Nodup := by
  unfold selected outputs
  split
  · exact List.nodup_nil
  · split
    · exact List.nodup_singleton none
    · rw [List.map_map]
      exact nodup_map_zipIdx _ 0

/-- In files with different paths nothing is found twice at one place. -/
theorem nodup_placed {selection : Selection} {sources : List (String × Except FileError String)}
    (hpaths : (sources.map Prod.fst).Nodup) : ((sources.flatMap (placed engine selection)).map Prod.fst).Nodup := by
  refine nodup_map_flatMap Place.path hpaths ?_ ?_
  · rintro ⟨path, e | content⟩ _ found hfound
    · cases hfound
    · obtain ⟨text, _, hfound⟩ := List.mem_flatMap.1 hfound
      obtain ⟨output, _, rfl⟩ := List.mem_map.1 hfound
      rfl
  · rintro ⟨path, e | content⟩ _
    · exact List.nodup_nil
    · refine nodup_map_flatMap Place.line (nodup_texts selection.lines content) ?_ ?_
      · intro text _ found hfound
        obtain ⟨output, _, rfl⟩ := List.mem_map.1 hfound
        rfl
      · intro text _
        have houtputs := (nodup_selected engine selection text.2).map (f := Place.mk path text.1) fun o o' h => (Place.mk.inj h).2.2
        rwa [List.map_map] at houtputs ⊢

/-- What is found has the numbers of the selection. -/
theorem fits_of_mem_placed {selection : Selection} {source : String × Except FileError String} {found : Place × Json}
    (h : found ∈ placed engine selection source) : found.1.Fits selection := by
  obtain ⟨path, e | content⟩ := source
  · cases h
  · obtain ⟨text, htext, h⟩ := List.mem_flatMap.1 h
    obtain ⟨output, houtput, rfl⟩ := List.mem_map.1 h
    constructor
    · unfold texts at htext
      split at htext
      · rename_i hlines
        obtain ⟨line, _, hline⟩ := List.mem_filterMap.1 htext
        split at hline
        · cases hline
        · cases hline
          exact hlines.symm
      · rename_i hwhole
        rw [List.mem_singleton.1 htext]
        exact (Bool.not_eq_true _ ▸ hwhole : selection.lines = false).symm
    · unfold selected outputs at houtput
      split at houtput
      · cases houtput
      · split at houtput
        · rename_i hfilter
          rw [List.mem_singleton.1 houtput, hfilter]
          rfl
        · rename_i f hfilter
          obtain ⟨result, _, rfl⟩ := List.mem_map.1 houtput
          rw [hfilter]
          rfl

end Sample

/-- What sampling files comes to, in five parts, whatever engine evaluates filters. A file is given with its path and what came of
reading it.
1. The lines of a text are those that it divides into at line feeds, with or without a carriage return before them.
2. Running a filter gives the JSON values of all outputs that the engine has, in order, unless the filter fails: the engine refuses
   it, or an output is a failure or no JSON.
3. Sampling succeeds exactly when no file is flawed. Then it gives what the files hold and nothing else, in order: file by file, text
   by text, output by output, each under the label of its place.
4. Sampling fails, and gives no samples, exactly when a file is flawed: it cannot be read, or a text of it is no JSON, or selects
   nothing under the pointer, or selects a node on which the filter fails.
5. When the paths of the files are different nothing is found twice at one place, and all labels are different. -/
theorem sampling_exact (engine : Filter.Engine) (selection : Selection) (sources : List (String × Except FileError String)) :
    (∀ text lines, Lines.split text = lines ↔ Lines.Divides text lines) ∧
    (∀ filter node, (∀ js, Filter.run? engine filter node = .ok js ↔ Filter.Yields engine filter node js) ∧
      ((∃ e, Filter.run? engine filter node = .error e) ↔ Filter.FailsOn engine filter node)) ∧
    (∀ samples, Sample.ofSources? engine selection sources = .ok samples ↔
      (∀ source ∈ sources, ¬Sample.Flawed engine selection source) ∧
        samples = (sources.flatMap (Sample.placed engine selection)).map Sample.ofPlaced) ∧
    ((∃ e, Sample.ofSources? engine selection sources = .error e) ↔ ∃ source ∈ sources, Sample.Flawed engine selection source) ∧
    ((sources.map Prod.fst).Nodup → ((sources.flatMap (Sample.placed engine selection)).map Prod.fst).Nodup ∧
      ∀ samples, Sample.ofSources? engine selection sources = .ok samples → (samples.map Sample.label).Nodup) := by
  refine ⟨fun text lines => Lines.divides_iff.symm, fun filter node => ⟨fun js => Filter.run?_eq_ok_iff, Filter.run?_eq_error_iff⟩,
    fun samples => Sample.ofSources?_eq_ok_iff, ?_, fun hpaths => ?_⟩
  · constructor
    · rintro ⟨e, he⟩
      by_contra hnone
      have hsound : ∀ source ∈ sources, ¬Sample.Flawed engine selection source := fun source hsource h => hnone ⟨source, hsource, h⟩
      have hok := Sample.ofSources?_eq_ok_iff.2 ⟨hsound, rfl⟩
      rw [he] at hok
      cases hok
    · rintro ⟨source, hsource, hflawed⟩
      cases hresult : Sample.ofSources? engine selection sources with
      | error e => exact ⟨e, rfl⟩
      | ok samples => exact absurd hflawed ((Sample.ofSources?_eq_ok_iff.1 hresult).1 source hsource)
  · have hplaces : ((sources.flatMap (Sample.placed engine selection)).map Prod.fst).Nodup := Sample.nodup_placed hpaths
    refine ⟨hplaces, fun samples hsamples => ?_⟩
    obtain ⟨_, rfl⟩ := Sample.ofSources?_eq_ok_iff.1 hsamples
    have hlabels : ((sources.flatMap (Sample.placed engine selection)).map Sample.ofPlaced).map Sample.label =
        ((sources.flatMap (Sample.placed engine selection)).map Prod.fst).map Sample.Place.label := by
      rw [List.map_map, List.map_map]
      rfl
    rw [hlabels]
    refine hplaces.map_on ?_
    rintro _ hp _ hq heq
    obtain ⟨found, hfound, rfl⟩ := List.mem_map.1 hp
    obtain ⟨found', hfound', rfl⟩ := List.mem_map.1 hq
    obtain ⟨_, _, hplaced⟩ := List.mem_flatMap.1 hfound
    obtain ⟨_, _, hplaced'⟩ := List.mem_flatMap.1 hfound'
    exact Sample.Place.label_injective (Sample.fits_of_mem_placed hplaced) (Sample.fits_of_mem_placed hplaced') heq

/-! ### Paths that look like labels -/

namespace Ledgers

/-- An engine for the filter `.[]` alone: it gives the elements of a list, and fails on everything else. -/
def engine : Filter.Engine := fun filter node =>
  if filter = ".[]" then
    match node with
    | .array items => .ok (items.map fun item => .ok (Json.print none item))
    | _ => .ok [.error "cannot iterate over a value"]
  else .error (.unreadable [("unexpected token", filter)])

/-- Lines are sampled, of each of them the elements of the first entry. -/
def selection : Selection := { lines := true, pointer := some "/0", filter := some ".[]" }

/-- Two files. The path of the second one is the label of the third line of the first one. -/
def sources : List (String × Except FileError String) :=
  [("a", .ok "[[null,true]]\n \r\n[[false]]"), ("a:3", .ok "[[]]\r\n[[null]]")]

/-- The samples: the blank line is left out and counted, and the filter makes two samples of one line and none of another. -/
def samples : List Sample := [⟨"a:1#0", .null⟩, ⟨"a:1#1", .bool true⟩, ⟨"a:3#0", .bool false⟩, ⟨"a:3:2#0", .null⟩]

end Ledgers

/-- The labels are different although a path is the label of a line in another file, and neither file is flawed. A third file in which
the filter fails, behind a line on which it does not, leaves nothing of the samples, and so does one that is no JSON. -/
theorem sampling_exact_ledgers :
    (Ledgers.sources.map Prod.fst).Nodup ∧
      Sample.ofSources? Ledgers.engine Ledgers.selection Ledgers.sources = .ok Ledgers.samples ∧
      (Ledgers.samples.map Sample.label).Nodup ∧
      (∀ source ∈ Ledgers.sources, ¬Sample.Flawed Ledgers.engine Ledgers.selection source) ∧
      Filter.run? Ledgers.engine ".[]" (.array [.null, .bool true]) = .ok [.null, .bool true] ∧
      (∃ e, Sample.ofSources? Ledgers.engine Ledgers.selection (Ledgers.sources ++ [("b", .ok "[[true]]\n[true]")]) = .error e) ∧
      ∃ e, Sample.ofSources? Ledgers.engine Ledgers.selection (Ledgers.sources ++ [("b", .ok "nul")]) = .error e := by
  have hpaths : (Ledgers.sources.map Prod.fst).Nodup := by decide
  have hok : Sample.ofSources? Ledgers.engine Ledgers.selection Ledgers.sources = .ok Ledgers.samples := by cbv
  obtain ⟨_, hfilter, hsound, _, hdistinct⟩ := sampling_exact Ledgers.engine Ledgers.selection Ledgers.sources
  have hflawed : Sample.Flawed Ledgers.engine Ledgers.selection ("b", .ok "[[true]]\n[true]") := by
    have htext : (some 2, "[true]") ∈ Sample.texts true "[[true]]\n[true]" := by
      have htexts : Sample.texts true "[[true]]\n[true]" = [(some 1, "[[true]]"), (some 2, "[true]")] := by cbv
      rw [htexts]
      exact List.mem_cons_of_mem _ List.mem_cons_self
    have hparse : Json.parse? "[true]" = .ok (.array [.bool true]) := by cbv
    have houtputs : Ledgers.engine ".[]" (.bool true) = .ok [.error "cannot iterate over a value"] := by cbv
    exact .filterFailed htext hparse (by cbv) rfl (.failed houtputs List.mem_cons_self)
  have hnoJson : Sample.Flawed Ledgers.engine Ledgers.selection ("b", .ok "nul") := by
    have htext : (some 1, "nul") ∈ Sample.texts true "nul" := by
      have htexts : Sample.texts true "nul" = [(some 1, "nul")] := by cbv
      rw [htexts]
      exact List.mem_singleton_self _
    have herror : Json.parse? "nul" = .error ⟨.eofValue, ⟨1, 3⟩, []⟩ := by cbv
    exact .notJson htext herror
  refine ⟨hpaths, hok, (hdistinct hpaths).2 _ hok, ((hsound _).1 hok).1, ?_, ?_, ?_⟩
  · refine ((hfilter _ _).1 _).2 ⟨[.ok "null", .ok "true"], by cbv, ?_⟩
    exact .cons ⟨"null", rfl, by cbv⟩ (.cons ⟨"true", rfl, by cbv⟩ .nil)
  · obtain ⟨_, _, _, hfailure, _⟩ :=
      sampling_exact Ledgers.engine Ledgers.selection (Ledgers.sources ++ [("b", .ok "[[true]]\n[true]")])
    exact hfailure.2 ⟨_, List.mem_append_right _ List.mem_cons_self, hflawed⟩
  · obtain ⟨_, _, _, hfailure, _⟩ := sampling_exact Ledgers.engine Ledgers.selection (Ledgers.sources ++ [("b", .ok "nul")])
    exact hfailure.2 ⟨_, List.mem_append_right _ List.mem_cons_self, hnoJson⟩

end Conform
