import Conform.Proofs.Channels
import Conform.Proofs.Sampling

/-!
# A check that fails leaves nothing

A check reads everything before it writes anything. `Check.Fails` says what can go wrong while it reads, each thing on its own and
without a word about the order in which it would be met: the schema document, an input that stands for no paths, or a file that
cannot be sampled, be it the first of its input or the last. A check fails exactly then, and leaves the state as it was and nothing
on the output, whatever it reads from and whatever writer it has been given. Any other check that is to leave its report in a file
writes there what it would have put on the output, but for the line feed at the end (`check_atomic`).

The state is that of any file system: what a reader says of it is a function of the state, and a writer changes it. A reader may
refuse any file and any directory; a tree of files is one such state.
-/

namespace Conform

/-! ### Searches -/

namespace Search

variable {σ α β : Type} {reader : FileReader (ReaderM σ)} {s : σ}

/-- Whether the only error that a search ends in is that of a directory which the reader refuses to read. -/
def FailsAtDirectory (reader : FileReader (ReaderM σ)) (s : σ) (search : ExceptT SearchError (ReaderM σ) α) : Prop :=
  ∀ e, search.run s = .error e →
    ∃ path fault, e = .unreadable path fault ∧ reader.isDirectory path s = true ∧ reader.names path s = .error fault

theorem failsAtDirectory_pure (a : α) : FailsAtDirectory reader s (pure a) := by
  intro e h
  cases h

theorem FailsAtDirectory.andThen {search : ExceptT SearchError (ReaderM σ) α} {next : α → ExceptT SearchError (ReaderM σ) β}
    (h : FailsAtDirectory reader s search) (hnext : ∀ a, FailsAtDirectory reader s (next a)) :
    FailsAtDirectory reader s (search >>= next) := by
  intro e he
  have hrun : (search >>= next).run s = match search.run s with
      | .ok a => (next a).run s
      | .error e => .error e := by
    simp only [bind, ExceptT.bind, ExceptT.run, ExceptT.mk, ReaderT.bind]
    cases search s <;> rfl
  rw [hrun] at he
  cases hsearch : search.run s with
  | error e' =>
    rw [hsearch] at he
    cases he
    exact h e hsearch
  | ok a =>
    rw [hsearch] at he
    exact hnext a e he

theorem failsAtDirectory_ite {p : Prop} [Decidable p] {search other : ExceptT SearchError (ReaderM σ) α}
    (h : FailsAtDirectory reader s search) (hother : FailsAtDirectory reader s other) :
    FailsAtDirectory reader s (if p then search else other) := by
  split
  · exact h
  · exact hother

/-- What the reader is asked outside of searches does not end a search. -/
theorem FailsAtDirectory.lift (question : ReaderM σ α) {next : α → ExceptT SearchError (ReaderM σ) β}
    (hnext : FailsAtDirectory reader s (next (question s))) :
    FailsAtDirectory reader s ((liftM question : ExceptT SearchError (ReaderM σ) α) >>= next) := hnext

theorem failsAtDirectory_entries {path : String} (hpath : reader.isDirectory path s = true) :
    FailsAtDirectory reader s (entries reader path) := by
  refine FailsAtDirectory.lift (reader.names path) ?_
  cases hnames : reader.names path s with
  | error fault =>
    intro e he
    cases he
    exact ⟨path, fault, rfl, hpath, hnames⟩
  | ok names => exact failsAtDirectory_pure _

theorem failsAtDirectory_each {places : List α} {search : α → ExceptT SearchError (ReaderM σ) (List String)}
    (h : ∀ place ∈ places, FailsAtDirectory reader s (search place)) : FailsAtDirectory reader s (each places search) := by
  have hfrom : ∀ found, FailsAtDirectory reader s
      (places.foldlM (fun found place => do pure (found ++ (← search place))) found) := by
    induction places with
    | nil => exact fun found => failsAtDirectory_pure found
    | cons place places ih =>
      intro found
      rw [List.foldlM_cons]
      refine FailsAtDirectory.andThen (.andThen (h place List.mem_cons_self) fun _ => failsAtDirectory_pure _) ?_
      exact ih fun place hplace => h place (List.mem_cons_of_mem _ hplace)
  exact hfrom []

/-- With no names left a search asks at most whether there is a directory. -/
theorem failsAtDirectory_below_nil (directoriesOnly : Bool) (fuel : Nat) (path : String) :
    FailsAtDirectory reader s (below reader directoriesOnly fuel [] path) := by
  rw [below]
  cases directoriesOnly with
  | false => exact failsAtDirectory_pure _
  | true => exact FailsAtDirectory.lift (reader.isDirectory path) (failsAtDirectory_pure _)

/-- A search goes on until a directory refuses to be read. The induction is on how deep it may still go. -/
theorem failsAtDirectory_below (directoriesOnly : Bool) (fuel : Nat) :
    (∀ names path, FailsAtDirectory reader s (below reader directoriesOnly fuel names path)) ∧
      ∀ name rest path entry, FailsAtDirectory reader s (atEntry reader directoriesOnly fuel name rest path entry) := by
  induction fuel with
  | zero =>
    constructor
    · intro names path
      cases names with
      | nil => exact failsAtDirectory_below_nil directoriesOnly 0 path
      | cons name rest =>
        rw [below]
        · exact failsAtDirectory_pure _
        · exact List.cons_ne_nil name rest
    · intro name rest path entry
      rw [atEntry]
      exact failsAtDirectory_pure _
  | succ fuel ih =>
    obtain ⟨hbelow, hentry⟩ := ih
    constructor
    · intro names path
      cases names with
      | nil => exact failsAtDirectory_below_nil directoriesOnly (fuel + 1) path
      | cons name rest =>
        rw [below]
        split
        · rename_i text _
          have hgo : ∀ found : Bool, FailsAtDirectory reader s
              (if found then below reader directoriesOnly fuel rest (child path text) else pure []) := by
            intro found
            cases found with
            | false => exact failsAtDirectory_pure _
            | true => exact hbelow rest _
          by_cases hdots : text = "." ∨ text = ".."
          · simp only [if_pos hdots]
            exact FailsAtDirectory.lift (reader.isDirectory path) (hgo _)
          · simp only [if_neg hdots]
            exact FailsAtDirectory.lift (reader.isPresent (child path text)) (hgo _)
        · refine FailsAtDirectory.lift (reader.isDirectory path) ?_
          cases hdirectory : reader.isDirectory path s with
          | false => exact failsAtDirectory_pure _
          | true =>
            refine FailsAtDirectory.andThen (failsAtDirectory_entries hdirectory) fun names => ?_
            refine FailsAtDirectory.andThen (failsAtDirectory_each fun dot _ => hbelow rest _) fun dotted => ?_
            exact .andThen (failsAtDirectory_each fun entry _ => hentry name rest _ entry) fun found => failsAtDirectory_pure _
    · intro name rest path entry
      rw [atEntry]
      split
      · refine FailsAtDirectory.lift (reader.isDirectory path) ?_
        split
        · split
          · exact .andThen (hbelow _ path) fun _ => failsAtDirectory_pure _
          · exact failsAtDirectory_pure _
        · refine failsAtDirectory_ite (.andThen (hbelow _ path) ?_) (.andThen (failsAtDirectory_pure []) ?_)
          all_goals
            intro here
            refine failsAtDirectory_ite (.andThen (hbelow _ path) ?_) (.andThen (failsAtDirectory_pure []) ?_)
            all_goals exact fun deeper => failsAtDirectory_pure _
      · split
        · exact hbelow rest path
        · exact failsAtDirectory_pure _

/-- When a pattern cannot be searched for, a directory refuses to be read. -/
theorem exists_of_paths_error {glob : Glob} {e : SearchError} (h : paths reader glob s = .error e) :
    ∃ path fault, e = .unreadable path fault ∧ reader.isDirectory path s = true ∧ reader.names path s = .error fault :=
  (failsAtDirectory_below _ _).1 _ _ e h

end Search

/-! ### Inputs -/

namespace Search

variable {σ : Type} {reader : FileReader (ReaderM σ)} {s : σ}

/-- Why an input stands for no paths: it is meant as a pattern, and is none, or leads to a directory that cannot be read, or matches
nothing. -/
inductive Unmatched (reader : FileReader (ReaderM σ)) (s : σ) (text : String) : Prop where
  | malformed {e : GlobError} (hpattern : Glob.isMeant text = true) (h : Glob.parse? text = .error e)
  | unreadable {glob : Glob} {path : String} {fault : FileError} (hpattern : Glob.isMeant text = true)
      (hglob : Glob.parse? text = .ok glob) (h : paths reader glob s = .error (.unreadable path fault))
  | nothing {glob : Glob} (hpattern : Glob.isMeant text = true) (hglob : Glob.parse? text = .ok glob)
      (h : paths reader glob s = .ok [])

/-- What an input stands for: the paths that its pattern matches, or itself. -/
inductive StandsFor (reader : FileReader (ReaderM σ)) (s : σ) (text : String) : String → Prop where
  | itself (h : Glob.isMeant text = false) : StandsFor reader s text text
  | matched {glob : Glob} {found : List String} {path : String} (hpattern : Glob.isMeant text = true)
      (hglob : Glob.parse? text = .ok glob) (hfound : paths reader glob s = .ok found) (h : path ∈ found) :
      StandsFor reader s text path

variable {text : String} {texts found : List String} {e : SearchError}

theorem input_eq (reader : FileReader (ReaderM σ)) (text : String) (s : σ) :
    input reader text s =
      if Glob.isMeant text then
        match Glob.parse? text with
        | .error e => .error (.pattern e)
        | .ok glob =>
          match paths reader glob s with
          | .error e => .error e
          | .ok [] => .error (.noMatch text)
          | .ok (path :: others) => .ok (path :: others)
      else .ok [text] := by
  unfold input
  split
  · cases Glob.parse? text with
    | error e => rfl
    | ok glob =>
      simp only [bind, ReaderT.bind]
      rcases paths reader glob s with e | (_ | ⟨path, others⟩) <;> rfl
  · rfl

/-- An input that fails stands for no paths. -/
theorem unmatched_of_input (h : input reader text s = .error e) : Unmatched reader s text := by
  rw [input_eq] at h
  split at h
  · rename_i hpattern
    split at h
    · rename_i hparse
      exact .malformed hpattern hparse
    · rename_i glob hglob
      split at h
      · rename_i hsearch
        obtain ⟨path, fault, rfl, _, _⟩ := exists_of_paths_error hsearch
        exact .unreadable hpattern hglob hsearch
      · rename_i hnone
        exact .nothing hpattern hglob hnone
      · cases h
  · cases h

/-- An input that is not meant as a pattern stands for itself. -/
theorem standsFor_of_plain (hplain : Glob.isMeant text = false) :
    ¬Unmatched reader s text ∧ ∀ path, path ∈ [text] ↔ StandsFor reader s text path := by
  constructor
  · intro hunmatched
    cases hunmatched with
    | malformed hpattern => cases hplain.symm.trans hpattern
    | unreadable hpattern => cases hplain.symm.trans hpattern
    | nothing hpattern => cases hplain.symm.trans hpattern
  · intro path
    rw [List.mem_singleton]
    constructor
    · rintro rfl
      exact .itself hplain
    · intro hstands
      cases hstands with
      | itself => rfl
      | matched hpattern => cases hplain.symm.trans hpattern

/-- A pattern that matches something stands for what it matches. -/
theorem standsFor_of_matches {glob : Glob} (hpattern : Glob.isMeant text = true) (hglob : Glob.parse? text = .ok glob)
    (hfound : paths reader glob s = .ok found) (hsome : found ≠ []) :
    ¬Unmatched reader s text ∧ ∀ path, path ∈ found ↔ StandsFor reader s text path := by
  constructor
  · intro hunmatched
    cases hunmatched with
    | malformed _ herror => cases hglob.symm.trans herror
    | unreadable _ hglob' herror =>
      cases hglob.symm.trans hglob'
      cases hfound.symm.trans herror
    | nothing _ hglob' hnone =>
      cases hglob.symm.trans hglob'
      cases hfound.symm.trans hnone
      exact hsome rfl
  · intro path
    constructor
    · exact .matched hpattern hglob hfound
    · intro hstands
      cases hstands with
      | itself hplain => cases hpattern.symm.trans hplain
      | matched _ hglob' hfound' hpath =>
        cases hglob.symm.trans hglob'
        cases hfound.symm.trans hfound'
        exact hpath

/-- An input that does not fail gives what it stands for. -/
theorem matched_of_input (h : input reader text s = .ok found) :
    ¬Unmatched reader s text ∧ ∀ path, path ∈ found ↔ StandsFor reader s text path := by
  rw [input_eq] at h
  split at h
  · rename_i hpattern
    split at h
    · cases h
    · rename_i glob hglob
      split at h
      · cases h
      · cases h
      · rename_i first rest hpaths
        cases h
        exact standsFor_of_matches hpattern hglob hpaths (List.cons_ne_nil first rest)
  · rename_i hplain
    cases h
    exact standsFor_of_plain (Bool.eq_false_of_not_eq_true hplain)

theorem inputs_cons (reader : FileReader (ReaderM σ)) (text : String) (texts : List String) (s : σ) :
    inputs reader (text :: texts) s =
      match input reader text s with
      | .error e => .error e
      | .ok found => Except.map (found ++ ·) (inputs reader texts s) := by
  rw [inputs]
  simp only [bind, ReaderT.bind]
  cases input reader text s <;> rfl

/-- When inputs fail one of them stands for no paths. -/
theorem unmatched_of_inputs (h : inputs reader texts s = .error e) : ∃ text ∈ texts, Unmatched reader s text := by
  induction texts with
  | nil => cases h
  | cons text texts ih =>
    rw [inputs_cons] at h
    cases hinput : input reader text s with
    | error e' => exact ⟨text, List.mem_cons_self, unmatched_of_input hinput⟩
    | ok found =>
      rw [hinput] at h
      cases hrest : inputs reader texts s with
      | error e' =>
        rw [hrest] at h
        cases h
        obtain ⟨other, hother, hunmatched⟩ := ih hrest
        exact ⟨other, List.mem_cons_of_mem _ hother, hunmatched⟩
      | ok others =>
        rw [hrest] at h
        cases h

/-- When inputs do not fail all of them stand for paths, and these are found. -/
theorem matched_of_inputs (h : inputs reader texts s = .ok found) :
    (∀ text ∈ texts, ¬Unmatched reader s text) ∧ ∀ path, path ∈ found ↔ ∃ text ∈ texts, StandsFor reader s text path := by
  induction texts generalizing found with
  | nil =>
    cases h
    simp
  | cons text texts ih =>
    rw [inputs_cons] at h
    cases hinput : input reader text s with
    | error e' =>
      rw [hinput] at h
      cases h
    | ok found =>
      rw [hinput] at h
      obtain ⟨others, hrest, rfl⟩ := map_eq_ok_iff.1 h
      obtain ⟨hmatched, hfound⟩ := matched_of_input hinput
      obtain ⟨hothers, hfoundOthers⟩ := ih hrest
      refine ⟨List.forall_mem_cons.2 ⟨hmatched, hothers⟩, fun path => ?_⟩
      simp only [List.mem_append, hfound, hfoundOthers, List.mem_cons, or_and_right, exists_or, exists_eq_left]

end Search

/-! ### Reading -/

namespace Check

section Reading

variable {σ : Type} {engine : Filter.Engine} {reader : FileReader (ReaderM σ)} {c : Check} {s : σ}

/-- Why a check comes to nothing while it reads: the schema document is unreadable or invalid, an input stands for no paths, or a file
that an input stands for cannot be sampled. -/
inductive Fails (engine : Filter.Engine) (reader : FileReader (ReaderM σ)) (c : Check) (s : σ) : Prop where
  | schemaUnreadable {e : FileError} (h : reader.text c.schema s = .error e)
  | schemaInvalid {text : String} {e : PathError} (htext : reader.text c.schema s = .ok text)
      (h : SchemaDocument.parse? text = .error e)
  | unresolved {input : String} (hinput : input ∈ c.inputs) (h : Search.Unmatched reader s input)
  | unsampled {input path : String} (hinput : input ∈ c.inputs) (hpath : Search.StandsFor reader s input path)
      (h : Sample.Flawed engine c.selection (path, reader.text path s))

/-- A check reads everything that it needs unless something is wrong with it. -/
theorem exists_loads_iff : (∃ document samples, c.Loads engine reader s document samples) ↔ ¬c.Fails engine reader s := by
  constructor
  · rintro ⟨document, samples, ⟨text, htext, hdocument⟩, paths, hpaths, hsamples⟩ hfails
    obtain ⟨hmatched, hfound⟩ := Search.matched_of_inputs hpaths
    obtain ⟨hsound, _⟩ := Sample.ofSources?_eq_ok_iff.1 hsamples
    cases hfails with
    | schemaUnreadable h => cases htext.symm.trans h
    | schemaInvalid htext' h =>
      cases htext.symm.trans htext'
      cases hdocument.symm.trans h
    | unresolved hinput h => exact hmatched _ hinput h
    | unsampled hinput hpath h =>
      exact hsound _ (List.mem_map_of_mem ((hfound _).2 ⟨_, hinput, hpath⟩)) h
  · intro hfails
    cases htext : reader.text c.schema s with
    | error e => exact absurd (.schemaUnreadable htext) hfails
    | ok text =>
      cases hdocument : SchemaDocument.parse? text with
      | error e => exact absurd (.schemaInvalid htext hdocument) hfails
      | ok document =>
        cases hpaths : Search.inputs reader c.inputs s with
        | error e =>
          obtain ⟨input, hinput, hunmatched⟩ := Search.unmatched_of_inputs hpaths
          exact absurd (.unresolved hinput hunmatched) hfails
        | ok paths =>
          have hsound : ∀ source ∈ paths.map fun path => (path, reader.text path s),
              ¬Sample.Flawed engine c.selection source := by
            intro source hsource hflawed
            obtain ⟨path, hpath, rfl⟩ := List.mem_map.1 hsource
            obtain ⟨input, hinput, hstands⟩ := ((Search.matched_of_inputs hpaths).2 path).1 hpath
            exact hfails (.unsampled hinput hstands hflawed)
          exact ⟨document, _, ⟨text, htext, hdocument⟩, paths, hpaths, Sample.ofSources?_eq_ok_iff.2 ⟨hsound, rfl⟩⟩

/-- A check that has findings has read everything. -/
theorem exists_loads_of_findings {found : List Finding} (h : findings engine reader c s = .ok found) :
    ∃ document samples, c.Loads engine reader s document samples := by
  rw [findings_eq] at h
  cases htext : reader.text c.schema s with
  | error e =>
    rw [htext] at h
    cases h
  | ok text =>
    cases hdocument : SchemaDocument.parse? text with
    | error e =>
      rw [htext, schemaDocument?, hdocument] at h
      cases h
    | ok document =>
      rw [htext, schemaDocument?_eq_ok hdocument] at h
      cases hpaths : Search.inputs reader c.inputs s with
      | error e =>
        rw [hpaths] at h
        cases h
      | ok paths =>
        rw [hpaths] at h
        obtain ⟨samples, hsamples, _⟩ := map_eq_ok_iff.1 (mapError_eq_ok_iff.1 h)
        exact ⟨document, samples, ⟨text, htext, hdocument⟩, paths, hpaths, hsamples⟩

/-- There are no findings exactly when something is wrong with what is read. -/
theorem findings_eq_error_iff : (∃ e, findings engine reader c s = .error e) ↔ c.Fails engine reader s := by
  rw [← not_iff_not, ← exists_loads_iff]
  constructor
  · intro hnone
    cases hfound : findings engine reader c s with
    | error e => exact absurd ⟨e, hfound⟩ hnone
    | ok found => exact exists_loads_of_findings hfound
  · rintro ⟨document, samples, hloads⟩ ⟨e, he⟩
    cases hloads.findings_eq.symm.trans he

/-- A run without findings asks nothing of its writer. -/
theorem run_of_findings_error {e : CheckError} (h : findings engine reader c s = .error e) (writer : FileWriter (StateM σ))
    (color : Bool) : c.run engine reader writer color s = (⟨"", some e, false⟩, s) := by
  rw [run_eq, h]

/-- Where the report goes does not matter to the findings. -/
theorem findings_out (c : Check) (out : Option String) (s : σ) :
    findings engine reader { c with out := out } s = findings engine reader c s := by
  rw [findings_eq, findings_eq]
  rfl

end Reading

end Check

/-! ### Writing -/

namespace FileWriter

variable {σ : Type}

/-- Creates the directories on the way to a path. -/
def prepare (writer : FileWriter (StateM σ)) (path : String) (s : σ) : Except FileError Unit × σ :=
  match Path.parent? path with
  | none => (.ok (), s)
  | some parent => writer.createDirectories parent s

/-- Whether a text can be written to a path, the directories on the way to it included, and what the state is then. -/
def Takes (writer : FileWriter (StateM σ)) (path text : String) (s after : σ) : Prop :=
  ∃ ready, writer.prepare path s = (.ok (), ready) ∧ writer.write path text ready = (.ok (), after)

end FileWriter

/-- A file that a tree takes holds the text. -/
theorem FileTree.text_of_takes {path text : String} {tree after : FileTree} (h : FileTree.writer.Takes path text tree after) :
    after.text path = .ok text := by
  obtain ⟨ready, _, hwrite⟩ := h
  rw [Check.write_eq] at hwrite
  cases hput : ready.put path text.toUTF8 with
  | error e =>
    rw [hput] at hwrite
    cases hwrite
  | ok written =>
    rw [hput] at hwrite
    cases hwrite
    exact FileTree.text_put hput

namespace Check

section Writing

variable {σ : Type} {writer : FileWriter (StateM σ)} {c : Check} {s after : σ} {path report output : String}

/-- A report for a file is written behind the directories on the way to it. -/
theorem deliver_eq (hout : c.out = some path) (writer : FileWriter (StateM σ)) (report : String) (s : σ) :
    c.deliver writer report s =
      match writer.prepare path s with
      | (.error e, left) => (.error (.noDirectory e), left)
      | (.ok _, ready) =>
        match writer.write path report ready with
        | (.error e, left) => (.error (.unwritten path e), left)
        | (.ok _, after) => (.ok "", after) := by
  have hprepare : (Path.parent? path).elim (pure (.ok ())) writer.createDirectories s = writer.prepare path s := by
    unfold FileWriter.prepare
    cases Path.parent? path <;> rfl
  unfold deliver
  rw [hout]
  simp only [bind, StateT.bind, hprepare]
  rcases writer.prepare path s with ⟨_ | _, ready⟩
  · rfl
  · simp only [StateT.bind]
    rcases writer.write path report ready with ⟨_ | _, left⟩ <;> rfl

/-- A report that can be written is delivered, with nothing left for the output. -/
theorem deliver_of_takes (hout : c.out = some path) (h : writer.Takes path report s after) :
    c.deliver writer report s = (.ok "", after) := by
  obtain ⟨ready, hready, hwrite⟩ := h
  rw [deliver_eq hout, hready]
  simp only [hwrite]

/-- A report for a file that is delivered can be written. -/
theorem takes_of_deliver (hout : c.out = some path) (h : c.deliver writer report s = (.ok output, after)) :
    writer.Takes path report s after := by
  rw [deliver_eq hout] at h
  rcases hready : writer.prepare path s with ⟨e | _, ready⟩
  · rw [hready] at h
    cases h
  · rw [hready] at h
    simp only at h
    rcases hwrite : writer.write path report ready with ⟨e | _, left⟩
    · rw [hwrite] at h
      cases h
    · rw [hwrite] at h
      cases h
      exact ⟨ready, hready, hwrite⟩

end Writing

end Check

/-- That a check fails before it writes or not at all, for every state of a file system and whatever its reader says of it, in three
parts.
1. When something is wrong with what a check reads it fails, whatever its writer is: there is an error, nothing is on the output,
   and the state is what it was, so a file where the report was to go holds what it held.
2. Otherwise there is a report, which the check puts on the output with a line feed when it is to go there. When it is to go into a
   file that can be written, that report is what is written to it and the output is empty; otherwise there is an error. Whether the
   check succeeds does not depend on where the report goes, and the report does not depend on the writer.
3. In a tree of files, what has been written to a file is the text of the file. -/
theorem check_atomic {σ : Type} (engine : Filter.Engine) (reader : FileReader (ReaderM σ)) (c : Check) (color : Bool) (s : σ) :
    (c.Fails engine reader s → ∃ e, ∀ writer : FileWriter (StateM σ),
      c.run engine reader writer color s = (⟨"", some e, false⟩, s)) ∧
    (¬c.Fails engine reader s → ∃ report conforms, ∀ writer : FileWriter (StateM σ),
      Check.run engine reader writer color { c with out := none } s = (⟨report ++ "\n", none, conforms⟩, s) ∧
      ∀ path, c.out = some path →
        (∀ after, writer.Takes path report s after → c.run engine reader writer color s = (⟨"", none, conforms⟩, after)) ∧
        ((¬∃ after, writer.Takes path report s after) →
          ∃ e left, c.run engine reader writer color s = (⟨"", some e, false⟩, left))) ∧
    ∀ path text (tree after : FileTree), FileTree.writer.Takes path text tree after → after.text path = .ok text := by
  refine ⟨?_, ?_, fun path text tree after => FileTree.text_of_takes⟩
  · intro hfails
    obtain ⟨e, he⟩ := Check.findings_eq_error_iff.2 hfails
    exact ⟨e, fun writer => Check.run_of_findings_error he writer color⟩
  · intro hfails
    obtain ⟨found, hfound⟩ : ∃ found, Check.findings engine reader c s = .ok found := by
      obtain ⟨document, samples, hloads⟩ := Check.exists_loads_iff.2 hfails
      exact ⟨_, hloads.findings_eq⟩
    refine ⟨Report.write c.format color found, found.all Finding.isValid, fun writer => ⟨?_, fun path hout => ⟨?_, ?_⟩⟩⟩
    · have hdeliver := Check.deliver_output (c := { c with out := none }) rfl writer (Report.write c.format color found) s
      rw [Check.run_eq, Check.findings_out, hfound]
      simp only [hdeliver]
    · intro after htakes
      rw [Check.run_eq, hfound]
      simp only [Check.deliver_of_takes hout htakes]
    · intro htakes
      rw [Check.run_eq, hfound]
      rcases hdeliver : c.deliver writer (Report.write c.format color found) s with ⟨e | output, left⟩
      · exact ⟨e, left, by simp only [hdeliver]⟩
      · exact absurd ⟨left, Check.takes_of_deliver hout hdeliver⟩ htakes

namespace Locked

/-- Four files and a directory. The last file to be read is no JSON, and there is an old report. -/
def tree : FileTree :=
  ⟨[(["schema"], .file "null".toUTF8), (["a"], .file "null".toUTF8), (["b"], .file "nul".toUTF8), (["locked"], .directory),
    (["report"], .file "old".toUTF8)], []⟩

/-- A reader that may not read the directory. -/
def reader : FileReader (ReaderM FileTree) :=
  { FileTree.reader with
    names := fun path tree => if path = "locked" then .error (.other "Permission denied (os error 13)") else tree.names path }

/-- A check of both files with a report in a file. -/
def check : Check := { schema := "schema", inputs := ["a", "b"], out := some "report" }

/-- It reads files as they are. -/
theorem reader_text (path : String) (tree : FileTree) : reader.text path tree = tree.text path := rfl

theorem texts : reader.text "schema" tree = .ok "null" ∧ reader.text "a" tree = .ok "null" ∧ reader.text "b" tree = .ok "nul" := by
  rw [reader_text, reader_text, reader_text]
  exact ⟨FileTree.text_of_locate rfl, FileTree.text_of_locate rfl, FileTree.text_of_locate rfl⟩

end Locked

/-- A check whose last file is no JSON, one whose pattern is for a directory that is not there, one whose pattern is for a directory
that may not be read, and one whose filter fails leave the old report in its file. The check of the first file alone puts a new report
there. -/
theorem check_atomic_report :
    Locked.tree.text "report" = .ok "old" ∧
      (∃ e, Locked.check.run Ledgers.engine Locked.reader FileTree.writer false Locked.tree = (⟨"", some e, false⟩, Locked.tree)) ∧
      (∀ input ∈ ["logs/*", "locked/*"], ∃ e,
        Check.run Ledgers.engine Locked.reader FileTree.writer false { Locked.check with inputs := ["a", input] } Locked.tree =
          (⟨"", some e, false⟩, Locked.tree)) ∧
      (∃ e, Check.run Ledgers.engine Locked.reader FileTree.writer false
        { Locked.check with inputs := ["a"], selection := { filter := some ".[]" } } Locked.tree =
          (⟨"", some e, false⟩, Locked.tree)) ∧
      ∃ report conforms after,
        Check.run Ledgers.engine Locked.reader FileTree.writer false { Locked.check with inputs := ["a"], out := none } Locked.tree =
          (⟨report ++ "\n", none, conforms⟩, Locked.tree) ∧
        Check.run Ledgers.engine Locked.reader FileTree.writer false { Locked.check with inputs := ["a"] } Locked.tree =
          (⟨"", none, conforms⟩, after) ∧
        after.text "report" = .ok report := by
  obtain ⟨hschema, hfirst, hlast⟩ := Locked.texts
  have hnotJson : Json.parse? "nul" = .error ⟨.eofValue, ⟨1, 3⟩, []⟩ := by cbv
  have hnull : Json.parse? "null" = .ok .null := by cbv
  have hunsampled : Locked.check.Fails Ledgers.engine Locked.reader Locked.tree := by
    have hstands : Search.StandsFor Locked.reader Locked.tree "b" "b" := .itself (by cbv)
    refine .unsampled (List.mem_cons_of_mem _ List.mem_cons_self) hstands ?_
    rw [hlast]
    exact .notJson (List.mem_singleton_self (none, "nul")) hnotJson
  have hnothing : Search.Unmatched Locked.reader Locked.tree "logs/*" := .nothing (by cbv) (by cbv) rfl
  have hlocked : Search.Unmatched Locked.reader Locked.tree "locked/*" := .unreadable (by cbv) (by cbv) rfl
  have hunresolved : ∀ input ∈ ["logs/*", "locked/*"],
      Check.Fails Ledgers.engine Locked.reader { Locked.check with inputs := ["a", input] } Locked.tree := by
    intro input hinput
    have hmem : input ∈ ["a", input] := List.mem_cons_of_mem _ List.mem_cons_self
    refine .unresolved hmem ?_
    rcases List.mem_cons.1 hinput with rfl | hinput
    · exact hnothing
    · rw [List.mem_singleton.1 hinput]
      exact hlocked
  have hfilter : Check.Fails Ledgers.engine Locked.reader
      { Locked.check with inputs := ["a"], selection := { filter := some ".[]" } } Locked.tree := by
    refine .unsampled List.mem_cons_self (.itself (by cbv)) ?_
    rw [hfirst]
    exact .filterFailed (List.mem_singleton_self (none, "null")) hnull rfl rfl (.failed rfl List.mem_cons_self)
  have hloads : Check.Loads Ledgers.engine Locked.reader { Locked.check with inputs := ["a"] } Locked.tree ⟨.null, {}⟩
      [⟨"a", .null⟩] := by
    refine ⟨⟨_, hschema, by cbv⟩, ["a"], rfl, ?_⟩
    rw [List.map_singleton, hfirst]
    cbv
  obtain ⟨hfailed, _, _⟩ := check_atomic Ledgers.engine Locked.reader Locked.check false Locked.tree
  obtain ⟨e, he⟩ := hfailed hunsampled
  refine ⟨FileTree.text_of_locate rfl, ⟨e, he _⟩, fun input hinput => ?_, ?_, ?_⟩
  · obtain ⟨hfailed', _, _⟩ :=
      check_atomic Ledgers.engine Locked.reader { Locked.check with inputs := ["a", input] } false Locked.tree
    obtain ⟨e', he'⟩ := hfailed' (hunresolved input hinput)
    exact ⟨e', he' _⟩
  · obtain ⟨hfailed', _, _⟩ := check_atomic Ledgers.engine Locked.reader
      { Locked.check with inputs := ["a"], selection := { filter := some ".[]" } } false Locked.tree
    obtain ⟨e', he'⟩ := hfailed' hfilter
    exact ⟨e', he' _⟩
  · obtain ⟨_, hdone, hheld⟩ :=
      check_atomic Ledgers.engine Locked.reader { Locked.check with inputs := ["a"] } false Locked.tree
    obtain ⟨report, conforms, hwritten⟩ := hdone (Check.exists_loads_iff.1 ⟨_, _, hloads⟩)
    obtain ⟨houtput, hfile⟩ := hwritten FileTree.writer
    have htakes : FileTree.writer.Takes "report" report Locked.tree
        (Locked.tree.set ["report"] (.file report.toUTF8)) := ⟨Locked.tree, rfl, rfl⟩
    exact ⟨report, conforms, _, houtput, (hfile "report" rfl).1 _ htakes, hheld _ _ _ _ htakes⟩

end Conform
