import Conform.Filter.Fragment
import Conform.Proofs.Delivery
import Conform.Proofs.Envelope
import Conform.Proofs.Printing

/-!
# What a check says

A check tells what it found through several channels: the findings themselves, the report for people with its marks and its sum,
the report as JSON, and whether it succeeds. Each is made from the findings on its own, and they agree (`channels_agree`). The
findings are what judging the samples by the definition comes to, under the limit that is given or else the one of the schema
document. So a limit that is given with a bare definition does what it does in an envelope around it (`Check.run_eq_of_limit`).
-/

namespace Conform

/-! ### Findings -/

namespace Finding

/-- What the validator says of a value by a definition under a limit. -/
def verdict (definition : Tree) (limit : Option Nat) (j : Json) : Except Defect Bool :=
  let (heap, v) := Heap.empty.ofJson j
  let (store, d) := Store.empty.plant definition
  (Validator.validate ⟨heap, store, limit⟩ v d).result

/-- Whether a finding is what judging a sample by a definition under a limit comes to: it is valid when the verdict is that the
sample conforms, and has the text of the defect when there is one. -/
structure Tells (definition : Tree) (limit : Option Nat) (s : Sample) (f : Finding) : Prop where
  label : f.label = s.label
  valid : f.isValid = true ↔ verdict definition limit s.value = .ok true
  error : ∀ text, f.error? = some text ↔ ∃ d : Defect, d.message = text ∧ verdict definition limit s.value = .error d
  apart : f.error? ≠ none → f.isValid = false

variable {f : Finding}

theorem isValid_iff : f.isValid = true ↔ f.result = .ok true := by
  unfold isValid
  cases f.result with
  | error d => simp
  | ok b => simp

theorem error?_eq_some_iff {text : String} : f.error? = some text ↔ ∃ d : Defect, d.message = text ∧ f.result = .error d := by
  unfold error?
  cases f.result with
  | error d => simp
  | ok b => simp

theorem isValid_eq_false_of_error? (h : f.error? ≠ none) : f.isValid = false := by
  obtain ⟨text, htext⟩ := Option.ne_none_iff_exists'.1 h
  obtain ⟨d, _, hd⟩ := error?_eq_some_iff.1 htext
  rw [isValid, hd]

/-- The finding of a sample is what judging it comes to, under the limit that is given or else the one of the document. -/
theorem tells_ofSample (document : SchemaDocument) (maxDepth : Option Nat) (s : Sample) :
    Tells document.definition (maxDepth.or document.options.maxDepth) s (ofSample (document.limited maxDepth) s) where
  label := rfl
  valid := by
    rw [isValid_iff]
    cases maxDepth with
    | none => rfl
    | some n => rfl
  error text := by
    rw [error?_eq_some_iff]
    cases maxDepth with
    | none => rfl
    | some n => rfl
  apart := isValid_eq_false_of_error?

end Finding

/-! ### Reports -/

namespace Report

/-- The line of a finding in the report for people: it is marked as an error, with the text, or else as valid or as not valid. -/
def Marked (color : Bool) (f : Finding) (line : String) : Prop :=
  match f.error?, f.isValid with
  | some text, _ => line = emphasize color .yellow "⚠" ++ " " ++ f.label ++ ": " ++ text
  | none, true => line = emphasize color .green "✅" ++ " " ++ f.label
  | none, false => line = emphasize color .red "❌" ++ " " ++ f.label

/-- The fields of a finding in the report as JSON. -/
structure Lists (f : Finding) (fields : List (String × Json)) : Prop where
  document : Fields.get? fields "document" = some (.string f.label)
  valid : Fields.get? fields "valid" = some (.bool f.isValid)
  error : Fields.get? fields "error" = f.error?.map Json.string

theorem marked_line (color : Bool) (f : Finding) : Marked color f (line color f) := by
  unfold Marked line Finding.error? Finding.isValid
  rcases f.result with d | _ | _
  · change emphasize color .yellow "⚠" ++ (" " ++ f.label ++ ": " ++ d.message) = _
    simp only [String.append_assoc]
  · exact String.append_assoc.symm
  · exact String.append_assoc.symm

/-- The sum at the end counts the valid findings. -/
theorem text_eq (color : Bool) (found : List Finding) :
    text color found = "\n".intercalate (found.map (line color) ++
      [emphasize color .bold (toString (found.countP Finding.isValid) ++ "/" ++ toString found.length ++ " documents conform")]) := by
  rw [text, summary, List.countP_eq_length_filter]
  rfl

/-- The fields of the entry of a finding. -/
def fields (f : Finding) : List (String × Json) :=
  match f.error? with
  | none => [("document", .string f.label), ("valid", .bool f.isValid)]
  | some text => [("document", .string f.label), ("valid", .bool f.isValid), ("error", .string text)]

theorem entry_eq (f : Finding) : entry f = .object (fields f) := by
  unfold entry fields
  cases f.error? with
  | none => rfl
  | some text => rfl

theorem lists_fields (f : Finding) : Lists f (fields f) := by
  unfold fields
  cases herror : f.error? with
  | none => exact ⟨rfl, rfl, by rw [herror]; rfl⟩
  | some text => exact ⟨rfl, rfl, by rw [herror]; rfl⟩

/-- An entry is plain enough to be read back. -/
theorem plain_fields (f : Finding) (levels : Nat) : Json.Plain (levels + 1) (.object (fields f)) := by
  unfold fields
  cases f.error? with
  | none =>
    refine .object (by simp [Fields.keys]) ?_
    exact List.forall_mem_cons.2 ⟨.string _, List.forall_mem_singleton.2 (.bool _)⟩
  | some text =>
    refine .object (by simp [Fields.keys]) ?_
    exact List.forall_mem_cons.2 ⟨.string _, List.forall_mem_cons.2 ⟨.bool _, List.forall_mem_singleton.2 (.string _)⟩⟩

/-- The report as JSON is read back as the list of its entries. -/
theorem parse?_json (found : List Finding) :
    Json.parse? (json found) = .ok (.array ((found.map fields).map Json.object)) := by
  have hentries : found.map entry = (found.map fields).map Json.object := by
    rw [List.map_map]
    exact List.map_congr_left fun f _ => entry_eq f
  have hreport : Json.Plain (125 + 1 + 1) (.array ((found.map fields).map Json.object)) := by
    refine .array fun j hj => ?_
    rw [List.map_map] at hj
    obtain ⟨f, _, rfl⟩ := List.mem_map.1 hj
    exact plain_fields f 125
  rw [json, hentries]
  exact Json.parse?_print hreport (some 0)

end Report

/-! ### Runs -/

namespace Check

section Reading

variable {σ : Type} {engine : Filter.Engine} {reader : FileReader (ReaderM σ)} {c : Check} {s : σ}

/-- What a check has to go by once it has read everything: the schema document, and the samples in order. -/
structure Loads (engine : Filter.Engine) (reader : FileReader (ReaderM σ)) (c : Check) (s : σ) (document : SchemaDocument)
    (samples : List Sample) : Prop where
  document : ∃ text, reader.text c.schema s = .ok text ∧ SchemaDocument.parse? text = .ok document
  samples : ∃ paths, Search.inputs reader c.inputs s = .ok paths ∧
    Sample.ofSources? engine c.selection (paths.map fun path => (path, reader.text path s)) = .ok samples

theorem readSources_eq (reader : FileReader (ReaderM σ)) (paths : List String) (s : σ) :
    readSources reader paths s = paths.map fun path => (path, reader.text path s) := by
  induction paths with
  | nil => rfl
  | cons path paths ih =>
    rw [List.map_cons, ← ih]
    rfl

/-- The findings of a check, from what is read. -/
theorem findings_eq (engine : Filter.Engine) (reader : FileReader (ReaderM σ)) (c : Check) (s : σ) :
    findings engine reader c s =
      match c.schemaDocument? (reader.text c.schema s) with
      | .error e => .error e
      | .ok document =>
        match Search.inputs reader c.inputs s with
        | .error e => .error (.unresolved e)
        | .ok paths => c.judge engine document (paths.map fun path => (path, reader.text path s)) := by
  unfold findings
  simp only [bind, ReaderT.bind]
  cases c.schemaDocument? (reader.text c.schema s) with
  | error e => rfl
  | ok document =>
    simp only [ReaderT.bind]
    cases Search.inputs reader c.inputs s with
    | error e => rfl
    | ok paths => exact congrArg (c.judge engine document) (readSources_eq reader paths s)

theorem schemaDocument?_eq_ok {document : SchemaDocument} {text : String} (hdocument : SchemaDocument.parse? text = .ok document) :
    c.schemaDocument? (.ok text) = .ok (document.limited c.maxDepth) := by
  rw [schemaDocument?]
  simp only [hdocument]
  rfl

/-- A check that has read everything finds what judging the samples comes to. -/
theorem Loads.findings_eq {document : SchemaDocument} {samples : List Sample} (h : c.Loads engine reader s document samples) :
    findings engine reader c s = .ok (samples.map (Finding.ofSample (document.limited c.maxDepth))) := by
  obtain ⟨text, htext, hdocument⟩ := h.document
  obtain ⟨paths, hpaths, hsamples⟩ := h.samples
  rw [Check.findings_eq, htext, schemaDocument?_eq_ok hdocument, hpaths]
  simp only [judge, hsamples]
  rfl

/-- A run delivers the report of the findings, and then succeeds when all are valid. -/
theorem run_eq (engine : Filter.Engine) (reader : FileReader (ReaderM σ)) (writer : FileWriter (StateM σ)) (color : Bool) (c : Check)
    (s : σ) : c.run engine reader writer color s =
      match findings engine reader c s with
      | .error e => (⟨"", some e, false⟩, s)
      | .ok found =>
        match c.deliver writer (Report.write c.format color found) s with
        | (.error e, after) => (⟨"", some e, false⟩, after)
        | (.ok output, after) => (⟨output, none, found.all Finding.isValid⟩, after) := by
  have hlift : (liftM (findings engine reader c) : StateM σ _) s = (findings engine reader c s, s) := rfl
  unfold run
  simp only [bind, StateT.bind, hlift]
  cases findings engine reader c s with
  | error e => rfl
  | ok found =>
    simp only [StateT.bind]
    rcases c.deliver writer (Report.write c.format color found) s with ⟨_ | output, after⟩
    · rfl
    · rfl

end Reading

variable {engine : Filter.Engine} {c : Check} {tree after : FileTree}

theorem reader_text (path : String) (tree : FileTree) : FileTree.reader.text path tree = tree.text path := rfl

/-- What a run leaves behind, once there are findings. -/
theorem run_of_findings {color : Bool} {found : List Finding} {reply : Reply} (h : findings engine FileTree.reader c tree = .ok found)
    (hrun : c.run engine FileTree.reader FileTree.writer color tree = (reply, after)) :
    (reply.succeeds = true ↔ reply.error = none ∧ found.countP Finding.isValid = found.length) ∧
      (reply.error = none → c.Delivered (Report.write c.format color found) tree after reply.output) ∧
      (c.out = none → reply.error = none) := by
  rw [run_eq, h] at hrun
  simp only at hrun
  rcases hdeliver : c.deliver FileTree.writer (Report.write c.format color found) tree with ⟨_ | output, left⟩
  · rw [hdeliver] at hrun
    cases hrun
    refine ⟨by simp, nofun, fun hout => ?_⟩
    rw [deliver_output hout] at hdeliver
    cases hdeliver
  · rw [hdeliver] at hrun
    cases hrun
    refine ⟨?_, fun _ => delivered_of_deliver hdeliver, fun _ => rfl⟩
    rw [List.countP_eq_length, List.all_eq_true]
    simp

end Check

/-! ### Limits -/

namespace SchemaDocument

/-- The fields of an envelope around a definition, with a limit. -/
def around (j : Json) (n : Nat) (hn : n < 0x10000000000000000) : List (String × Json) :=
  [("definition", j), ("options", .object [("max_depth", .natural n hn)])]

variable {text : String} {j : Json} {following : Option Json.ReadError} {t : Tree}

/-- A definition that is no envelope is read with the default options. -/
theorem parse?_bare (h : Json.first? text = .ok (j, following)) (hbare : ∀ fields, j = .object fields → ¬Envelope fields)
    (ht : Tree.ofJson? j = .ok t) : parse? text = .ok ⟨t, {}⟩ := by
  rw [parse?_eq_ok_iff h]
  exact .bare hbare ht

theorem ofJson?_limit (n : Nat) (hn : n < 0x10000000000000000) :
    Options.ofJson? (.object [("max_depth", .natural n hn)]) = .ok ⟨some n⟩ := by
  simp [Options.ofJson?, Options.ofFields?, Options.limit?, Json.natural, Except.mapError]

/-- An envelope around a definition is read with its limit, in either order of its keys. -/
theorem parse?_around {n : Nat} {hn : n < 0x10000000000000000} {fields : List (String × Json)}
    (h : Json.first? text = .ok (.object fields, following)) (hperm : (around j n hn).Perm fields)
    (ht : Tree.ofJson? j = .ok t) : parse? text = .ok ⟨t, ⟨some n⟩⟩ := by
  have henvelope : Envelope (around j n hn) := by simp [Envelope, Fields.keys, around]
  have hread : ReadFrom (.object (around j n hn)) ⟨t, ⟨some n⟩⟩ := .envelope henvelope rfl ht (ofJson?_limit n hn)
  rw [parse?_eq_ok_iff h]
  exact hread.perm henvelope (by simp [Fields.keys, around]) hperm

end SchemaDocument

namespace Check

/-- A limit that is given with a bare definition does what it does in an envelope around that definition. -/
theorem run_eq_of_limit {engine : Filter.Engine} {c : Check} {tree : FileTree} {n : Nat} (hn : n < 0x10000000000000000)
    (hlimit : c.maxDepth = some n)
    {path bareText text : String} {j : Json} {fields : List (String × Json)} {following following' : Option Json.ReadError} {t : Tree}
    (hbareText : tree.text c.schema = .ok bareText) (hbareRead : Json.first? bareText = .ok (j, following))
    (hbare : ∀ fields, j = .object fields → ¬SchemaDocument.Envelope fields) (ht : Tree.ofJson? j = .ok t)
    (htext : tree.text path = .ok text) (hread : Json.first? text = .ok (.object fields, following'))
    (hperm : (SchemaDocument.around j n hn).Perm fields) (color : Bool) :
    Check.run engine FileTree.reader FileTree.writer color { c with schema := path, maxDepth := none } tree =
      c.run engine FileTree.reader FileTree.writer color tree := by
  have hdocument : c.schemaDocument? (tree.text c.schema) = .ok ⟨t, ⟨some n⟩⟩ := by
    rw [hbareText, schemaDocument?_eq_ok (SchemaDocument.parse?_bare hbareRead hbare ht), hlimit]
    rfl
  have hdocument' : schemaDocument? { c with schema := path, maxDepth := none } (tree.text path) = .ok ⟨t, ⟨some n⟩⟩ := by
    rw [htext, schemaDocument?_eq_ok (SchemaDocument.parse?_around hread hperm ht)]
    rfl
  have hfindings : findings engine FileTree.reader { c with schema := path, maxDepth := none } tree =
      findings engine FileTree.reader c tree := by
    rw [Check.findings_eq, Check.findings_eq, reader_text, reader_text, hdocument, hdocument']
    rfl
  rw [run_eq, run_eq, hfindings]
  rfl

end Check

/-- What a check says, in two parts.
1. Whatever the schema document and the samples, there is a finding for every sample, in order: what judging the sample comes to by
   the definition of the document, under the limit that is given or else the one of the document. The report for people has a line
   for every finding, in order, with its mark, and then the sum; the report as JSON is read back as a list of all findings, in order.
   These are the findings of a check that has read the document and the samples. Its run succeeds when it fails nowhere and all
   findings are valid, and leaves the report where it was to go; where that is the output, it fails nowhere.
2. A limit that is given with a bare definition does what it does in an envelope around that definition. -/
theorem channels_agree (engine : Filter.Engine) (c : Check) (color : Bool) (tree : FileTree) :
    (∀ document samples, let found := samples.map (Finding.ofSample (document.limited c.maxDepth))
      List.Forall₂ (Finding.Tells document.definition (c.maxDepth.or document.options.maxDepth)) samples found ∧
      (∃ lines, List.Forall₂ (Report.Marked color) found lines ∧ Report.write .text color found = "\n".intercalate (lines ++
        [Report.emphasize color .bold
          (toString (found.countP Finding.isValid) ++ "/" ++ toString found.length ++ " documents conform")])) ∧
      (∃ entries, List.Forall₂ Report.Lists found entries ∧
        Json.parse? (Report.write .json color found) = .ok (.array (entries.map Json.object))) ∧
      (c.Loads engine FileTree.reader tree document samples → Check.findings engine FileTree.reader c tree = .ok found ∧
        ∀ reply after, c.run engine FileTree.reader FileTree.writer color tree = (reply, after) →
          (reply.succeeds = true ↔ reply.error = none ∧ found.countP Finding.isValid = found.length) ∧
          (reply.error = none → c.Delivered (Report.write c.format color found) tree after reply.output) ∧
          (c.out = none → reply.error = none))) ∧
    ∀ n, ∀ hn : n < 0x10000000000000000, c.maxDepth = some n →
      ∀ bareText j following t, tree.text c.schema = .ok bareText → Json.first? bareText = .ok (j, following) →
      (∀ fields, j = .object fields → ¬SchemaDocument.Envelope fields) → Tree.ofJson? j = .ok t →
      ∀ path text fields following', tree.text path = .ok text → Json.first? text = .ok (.object fields, following') →
      (SchemaDocument.around j n hn).Perm fields →
      Check.run engine FileTree.reader FileTree.writer color { c with schema := path, maxDepth := none } tree =
        c.run engine FileTree.reader FileTree.writer color tree := by
  constructor
  · intro document samples found
    refine ⟨?_, ?_, ?_, fun h => ⟨h.findings_eq, ?_⟩⟩
    · rw [List.forall₂_map_right_iff, List.forall₂_same]
      exact fun s _ => Finding.tells_ofSample document c.maxDepth s
    · refine ⟨_, ?_, Report.text_eq color found⟩
      rw [List.forall₂_map_right_iff, List.forall₂_same]
      exact fun f _ => Report.marked_line color f
    · refine ⟨_, ?_, Report.parse?_json found⟩
      rw [List.forall₂_map_right_iff, List.forall₂_same]
      exact fun f _ => Report.lists_fields f
    · intro reply after hrun
      exact Check.run_of_findings h.findings_eq hrun
  · intro n hn hlimit bareText j following t hbareText hbareRead hbare ht path text fields following' htext hread hperm
    exact Check.run_eq_of_limit hn hlimit hbareText hbareRead hbare ht htext hread hperm color

/-- Three samples, line by line: one that conforms, one that does not, and one that is too deep for the limit, which is given with a
bare definition and then in an envelope. -/
theorem channels_agree_lines :
    let tree : FileTree := ⟨[(["bare"], .file "\x7b\"$arrayOf\":[null]\x7d".toUTF8),
      (["wrapped"], .file "\x7b\"options\":\x7b\"max_depth\":1\x7d,\"definition\":\x7b\"$arrayOf\":[null]\x7d\x7d".toUTF8),
      (["log"], .file "[]\nfalse\n[[null]]".toUTF8)], []⟩
    let c : Check := { schema := "bare", inputs := ["log"], selection := { lines := true }, maxDepth := some 1 }
    (∃ found, Check.findings Filter.fragment FileTree.reader c tree = .ok found ∧ found.length = 3) ∧
      Check.run Filter.fragment FileTree.reader FileTree.writer false { c with schema := "wrapped", maxDepth := none } tree =
        c.run Filter.fragment FileTree.reader FileTree.writer false tree := by
  intro tree c
  let body : Json := .object [("$arrayOf", .array [.null])]
  let definition : Tree := .node (.bounded (.node (.tuple [.null])) 0 none)
  have hbare : tree.text "bare" = .ok "\x7b\"$arrayOf\":[null]\x7d" := FileTree.text_of_locate rfl
  have hwrapped : tree.text "wrapped" =
      .ok "\x7b\"options\":\x7b\"max_depth\":1\x7d,\"definition\":\x7b\"$arrayOf\":[null]\x7d\x7d" :=
    FileTree.text_of_locate rfl
  have hlog : tree.text "log" = .ok "[]\nfalse\n[[null]]" := FileTree.text_of_locate rfl
  have hbareRead : Json.first? "\x7b\"$arrayOf\":[null]\x7d" = .ok (body, none) := by cbv
  have hwrappedRead : Json.first? "\x7b\"options\":\x7b\"max_depth\":1\x7d,\"definition\":\x7b\"$arrayOf\":[null]\x7d\x7d" =
      .ok (.object [("options", .object [("max_depth", .natural 1 (by decide))]), ("definition", body)], none) := by cbv
  have hnoEnvelope : ∀ fields, body = .object fields → ¬SchemaDocument.Envelope fields := by
    intro fields hfields
    obtain rfl : [("$arrayOf", Json.array [.null])] = fields := Json.object.inj hfields
    simp [SchemaDocument.Envelope, Fields.keys]
  have hdefinition : Tree.ofJson? body = .ok definition := by cbv
  have hsamples : Sample.ofSources? Filter.fragment { lines := true } [("log", .ok "[]\nfalse\n[[null]]")] =
      .ok [⟨"log:1", .array []⟩, ⟨"log:2", .bool false⟩, ⟨"log:3", .array [.array [.null]]⟩] := by cbv
  have hloads : c.Loads Filter.fragment FileTree.reader tree ⟨definition, {}⟩
      [⟨"log:1", .array []⟩, ⟨"log:2", .bool false⟩, ⟨"log:3", .array [.array [.null]]⟩] := by
    have hschema : FileTree.reader.text c.schema tree = .ok "\x7b\"$arrayOf\":[null]\x7d" := by
      rw [Check.reader_text]
      exact hbare
    refine ⟨⟨_, hschema, SchemaDocument.parse?_bare hbareRead hnoEnvelope hdefinition⟩, ["log"], rfl, ?_⟩
    rw [List.map_singleton, Check.reader_text, hlog]
    exact hsamples
  obtain ⟨hfound, hlimit⟩ := channels_agree Filter.fragment c false tree
  obtain ⟨htells, _, _, hloaded⟩ := hfound ⟨definition, {}⟩ _
  refine ⟨⟨_, (hloaded hloads).1, htells.length_eq.symm⟩, ?_⟩
  exact hlimit 1 (by decide) rfl _ _ _ _ hbare hbareRead hnoEnvelope hdefinition _ _ _ _ hwrapped hwrappedRead (.swap _ _ _)

end Conform
