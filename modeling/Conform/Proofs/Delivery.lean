import Mathlib
import Conform.Check
import Conform.Files.Tree

/-!
# What is written is there

A file that has been put into a tree of files is found where it was put, and holds the text that was written (`FileTree.text_put`).
So a report that a check has delivered is on the output, or in the file that was asked for (`Check.delivered_of_deliver`).
-/

namespace Conform

namespace FileTree

variable {tree tree' : FileTree} {place : List String} {entry : FileEntry}

theorem entry?_set_self (h : place ≠ []) : FileTree.entry? (tree.set place entry) place = some entry := by
  unfold entry?
  rw [if_neg h, set, List.find?_cons_of_pos (by simp)]
  rfl

theorem entry?_set_of_ne {other : List String} (h : other ≠ place) :
    FileTree.entry? (tree.set place entry) other = tree.entry? other := by
  have hkept : (fun e : List String × FileEntry => decide ((e.1 != place) = true ∧ (e.1 == other) = true)) =
      fun e => e.1 == other := by
    funext e
    by_cases he : e.1 = other
    · simp [he, h]
    · simp [he]
  unfold entry?
  rw [set, List.find?_cons_of_neg (by simpa using h.symm), List.find?_filter, hkept]

/-- A directory that was there is there when an entry is set at a place that was none. -/
theorem enter_set (hplace : tree.entry? place ≠ some .directory) {other : List String} (h : tree.enter other = .ok ()) :
    (tree.set place entry).enter other = .ok () := by
  have hother : other ≠ place := by
    rintro rfl
    unfold enter at h
    split at h
    · cases h
    · cases h
    · rename_i hdirectory
      exact hplace hdirectory
  rw [enter, entry?_set_of_ne hother]
  exact h

/-- A name leads from a directory to where it is read off, whatever stands there. -/
theorem step_eq_of_enter {name : String} {next : List String} (h : tree.step place name = .ok next)
    (henter : tree'.enter place = .ok ()) : tree'.step place name = .ok next := by
  unfold step at h ⊢
  rw [henter]
  split at h
  · cases h
  · exact h

theorem enter_of_step {name : String} {next : List String} (h : tree.step place name = .ok next) : tree.enter place = .ok () := by
  unfold step at h
  split at h
  · cases h
  · rename_i u henter
    exact henter

/-- A row of names leads where it led before an entry was set at a place that was no directory. -/
theorem follow_set (hplace : tree.entry? place ≠ some .directory) {start goal : List String} {names : List String}
    (h : tree.follow start names = .ok goal) : (tree.set place entry).follow start names = .ok goal := by
  induction names generalizing start with
  | nil => exact h
  | cons name names ih =>
    unfold follow at h ⊢
    split at h
    · cases h
    · rename_i next hstep
      rw [step_eq_of_enter hstep (enter_set hplace (enter_of_step hstep))]
      exact ih h

theorem follow_append {start goal : List String} {names : List String} (h : tree.follow start names = .ok goal)
    (more : List String) : tree.follow start (names ++ more) = tree.follow goal more := by
  induction names generalizing start with
  | nil =>
    cases h
    rfl
  | cons name names ih =>
    unfold follow at h
    rw [List.cons_append, follow]
    split at h
    · cases h
    · exact ih h

/-- What has to hold for a path to lead to a name in a directory. -/
theorem locateParent_eq_ok {path name : String} (h : tree.locateParent path = .ok (place, some name)) :
    checkPath path = .ok () ∧ tree.follow (tree.start path) (Path.names path).dropLast = .ok place ∧
      tree.enter place = .ok () ∧ Path.names path = (Path.names path).dropLast ++ [name] ∧ name ≠ "." ∧ name ≠ ".." := by
  unfold locateParent at h
  split at h
  · cases h
  · rename_i u hcheck
    split at h
    · cases h
    · rename_i goal hfollow
      split at h
      · cases h
      · rename_i u' henter
        obtain ⟨rfl, hname⟩ := Prod.mk.inj (Except.ok.inj h)
        obtain ⟨hlast, hdots⟩ := Option.filter_eq_some_iff.1 hname
        refine ⟨hcheck, hfollow, henter, ?_, by simpa using hdots⟩
        rw [List.dropLast_append_getLast? name hlast]

/-- What has to hold for a file to be put somewhere, and what is set then. -/
theorem exists_of_put {path : String} {content : ByteArray} (h : tree.put path content = .ok tree') :
    ∃ place name, tree.locateParent path = .ok (place, some name) ∧ Path.endsInSlash path = false ∧
      ¬nameMax < name.utf8ByteSize ∧ tree.entry? (place ++ [name]) ≠ some .directory ∧
      tree' = tree.set (place ++ [name]) (.file content) := by
  unfold put at h
  split at h
  · cases h
  · cases h
  · rename_i place name hparent
    split at h
    · cases h
    · rename_i hslash
      split at h
      · cases h
      · rename_i hshort
        split at h
        · cases h
        · rename_i hplace
          exact ⟨place, name, hparent, by simpa using hslash, hshort, hplace, (Except.ok.inj h).symm⟩

/-- A file that is put somewhere is there. -/
theorem locate_put {path : String} {content : ByteArray} (h : tree.put path content = .ok tree') :
    tree'.locate path = .ok (.file content) := by
  obtain ⟨place, name, hparent, hslash, hshort, hplace, rfl⟩ := exists_of_put h
  obtain ⟨hcheck, hfollow, henter, hnames, hhere, hup⟩ := locateParent_eq_ok hparent
  have hstep : (tree.set (place ++ [name]) (.file content)).follow place [name] = .ok (place ++ [name]) := by
    rw [follow, step, enter_set hplace henter]
    simp only
    rw [if_neg hhere, if_neg hup, if_neg hshort]
    rfl
  have hgoal : (tree.set (place ++ [name]) (.file content)).follow (tree.start path) (Path.names path) = .ok (place ++ [name]) := by
    rw [hnames, follow_append (follow_set hplace hfollow), hstep]
  have hstart : (tree.set (place ++ [name]) (.file content)).start path = tree.start path := rfl
  rw [locate, hcheck, hstart]
  simp only [hgoal, entry?_set_self (List.append_ne_nil_of_right_ne_nil place (List.cons_ne_nil name [])), hslash]

/-- A file with the bytes of a text holds that text. -/
theorem text_of_locate {path text : String} (h : tree.locate path = .ok (.file text.toUTF8)) : tree.text path = .ok text := by
  have hdecode : String.fromUTF8? text.toUTF8 = some text := by
    rw [String.fromUTF8?]
    exact dif_pos text.isValidUTF8
  rw [FileTree.text, h]
  simp only [hdecode]

/-- A text that is written is read back. -/
theorem text_put {path text : String} (h : tree.put path text.toUTF8 = .ok tree') : tree'.text path = .ok text :=
  text_of_locate (locate_put h)

end FileTree

namespace Check

/-- Whether a report has gone where it was to go, when a check has left a tree and an output. -/
def Delivered (c : Check) (report : String) (before after : FileTree) (output : String) : Prop :=
  match c.out with
  | none => output = report ++ "\n" ∧ after = before
  | some path => output = "" ∧ after.text path = .ok report

/-- A report for the output is always delivered. -/
theorem deliver_output {σ : Type} {c : Check} (h : c.out = none) (writer : FileWriter (StateM σ)) (report : String) (s : σ) :
    c.deliver writer report s = (.ok (report ++ "\n"), s) := by
  unfold deliver
  rw [h]
  rfl

/-- Writing a file puts it into the tree. -/
theorem write_eq (path text : String) (tree : FileTree) :
    FileTree.writer.write path text tree =
      match tree.put path text.toUTF8 with
      | .error e => (.error e, tree)
      | .ok after => (.ok (), after) := rfl

/-- A report for a file is put there once the directories are made. -/
theorem deliver_file {c : Check} {path : String} (h : c.out = some path) {report output : String} {before after : FileTree}
    (hdeliver : c.deliver FileTree.writer report before = (.ok output, after)) :
    output = "" ∧ ∃ tree : FileTree, tree.put path report.toUTF8 = .ok after := by
  unfold deliver at hdeliver
  rw [h] at hdeliver
  simp only [bind, StateT.bind] at hdeliver
  split at hdeliver
  rename_i result tree hdirectories
  cases result with
  | error e => cases hdeliver
  | ok _ =>
    simp only [StateT.bind, write_eq] at hdeliver
    cases hput : tree.put path report.toUTF8 with
    | error e =>
      rw [hput] at hdeliver
      cases hdeliver
    | ok written =>
      rw [hput] at hdeliver
      cases hdeliver
      exact ⟨rfl, tree, hput⟩

/-- A report that is delivered has gone where it was to go. -/
theorem delivered_of_deliver {c : Check} {report output : String} {before after : FileTree}
    (h : c.deliver FileTree.writer report before = (.ok output, after)) : c.Delivered report before after output := by
  unfold Delivered
  split
  · rename_i hout
    rw [deliver_output hout] at h
    cases h
    exact ⟨rfl, rfl⟩
  · rename_i path hout
    obtain ⟨rfl, tree, hput⟩ := deliver_file hout h
    exact ⟨rfl, FileTree.text_put hput⟩

end Check

end Conform
