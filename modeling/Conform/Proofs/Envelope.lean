import Conform.Proofs.Levels
import Conform.Proofs.Planting
import Conform.Proofs.Printing
import Conform.Proofs.Readers

/-!
# Envelopes

A schema document is an envelope when it is an object with a key `definition` and no keys but that and `options`, and a bare
definition otherwise. `SchemaDocument.ReadFrom` says what a JSON value is read as, without the order in which it is read: the
members of an envelope are found by name, and options that are absent are the default ones. A text that is one JSON value and nests
no deeper than the reader of JSON goes is read as just that (`envelope_read`). So a definition in an envelope of its own means what it
means alone, whatever it looks like, and the order of the keys of an envelope does not matter. The envelope takes a level of its own:
a definition whose text nests as deep as it may is read alone and refused in an envelope (`envelope_read_false`).
-/

namespace Conform

namespace SchemaDocument

/-- Whether the fields of an object are those of an envelope: there is a definition, and nothing else but options. -/
def Envelope (fields : List (String × Json)) : Prop :=
  "definition" ∈ Fields.keys fields ∧ ∀ key ∈ Fields.keys fields, key = "definition" ∨ key = "options"

theorem isEnvelope_iff {fields : List (String × Json)} : isEnvelope fields = true ↔ Envelope fields := by
  simp [isEnvelope, Envelope]

/-- What a member that may be absent is read as. -/
def Member {α : Type} (read : Json → Except PathError α) (default : α) : Option Json → α → Prop
  | none, a => a = default
  | some j, a => read j = .ok a

/-- What a JSON value is read as: an envelope by its members, any other value as a definition with the default options. -/
inductive ReadFrom : Json → SchemaDocument → Prop where
  | envelope {fields : List (String × Json)} {body : Json} {document : SchemaDocument} (henvelope : Envelope fields)
      (hbody : Fields.get? fields "definition" = some body) (hdefinition : Tree.ofJson? body = .ok document.definition)
      (hoptions : Member Options.ofJson? {} (Fields.get? fields "options") document.options) : ReadFrom (.object fields) document
  | bare {j : Json} {t : Tree} (hbare : ∀ fields, j = .object fields → ¬Envelope fields) (hdefinition : Tree.ofJson? j = .ok t) :
      ReadFrom j ⟨t, {}⟩

/-! ### The members of an envelope -/

variable {start document : SchemaDocument} {j : Json} {rest : List (String × Json)}

theorem located?_eq_ok_iff {t : Tree} : Tree.located? j = .ok t ↔ Tree.ofJson? j = .ok t := by
  rw [Tree.located?, mapError_eq_ok_iff]

theorem ofFields?_definition_eq_ok_iff : ofFields? start (("definition", j) :: rest) = .ok document ↔
    ∃ t, Tree.located? j = .ok t ∧ ofFields? { start with definition := t } rest = .ok document := by
  rw [ofFields?, if_pos rfl]
  cases Tree.located? j with
  | error e => simp [Except.mapError]
  | ok t => simp [Except.mapError]

theorem ofFields?_options_eq_ok_iff : ofFields? start (("options", j) :: rest) = .ok document ↔
    ∃ options, Options.ofJson? j = .ok options ∧ ofFields? { start with options := options } rest = .ok document := by
  rw [ofFields?, if_neg (by decide)]
  cases Options.ofJson? j with
  | error e => simp [Except.mapError]
  | ok options => simp [Except.mapError]

/-- Reading the fields of an envelope one after the other, into the document so far, is finding them by name. -/
theorem ofFields?_eq_ok_iff {fields : List (String × Json)} (hkeys : (Fields.keys fields).Nodup)
    (hknown : ∀ key ∈ Fields.keys fields, key = "definition" ∨ key = "options") :
    ofFields? start fields = .ok document ↔
      Member Tree.located? start.definition (Fields.get? fields "definition") document.definition ∧
        Member Options.ofJson? start.options (Fields.get? fields "options") document.options := by
  induction fields generalizing start with
  | nil =>
    obtain ⟨t, options⟩ := start
    obtain ⟨t', options'⟩ := document
    simp only [ofFields?, Fields.get?, Member, Except.ok.injEq, SchemaDocument.mk.injEq]
    exact and_congr eq_comm eq_comm
  | cons f rest ih =>
    obtain ⟨key, j⟩ := f
    obtain ⟨hfresh, hrest⟩ := List.nodup_cons.1 hkeys
    have hothers : ∀ k ∈ Fields.keys rest, k = "definition" ∨ k = "options" := fun k hk => hknown k (List.mem_cons_of_mem key hk)
    rcases hknown key List.mem_cons_self with rfl | rfl
    · have hown : Fields.get? (("definition", j) :: rest) "definition" = some j := if_pos rfl
      have hother : Fields.get? (("definition", j) :: rest) "options" = Fields.get? rest "options" := if_neg (by decide)
      rw [ofFields?_definition_eq_ok_iff, hown, hother]
      constructor
      · rintro ⟨t, ht, hread⟩
        obtain ⟨hdefinition, hoptions⟩ := (ih hrest hothers).1 hread
        rw [Fields.get?_eq_none hfresh] at hdefinition
        exact ⟨ht.trans (congrArg Except.ok hdefinition.symm), hoptions⟩
      · rintro ⟨ht, hoptions⟩
        refine ⟨document.definition, ht, (ih hrest hothers).2 ⟨?_, hoptions⟩⟩
        rw [Fields.get?_eq_none hfresh]
        rfl
    · have hown : Fields.get? (("options", j) :: rest) "options" = some j := if_pos rfl
      have hother : Fields.get? (("options", j) :: rest) "definition" = Fields.get? rest "definition" := if_neg (by decide)
      rw [ofFields?_options_eq_ok_iff, hown, hother]
      constructor
      · rintro ⟨options, hoptions, hread⟩
        obtain ⟨hdefinition, hown⟩ := (ih hrest hothers).1 hread
        rw [Fields.get?_eq_none hfresh] at hown
        exact ⟨hdefinition, hoptions.trans (congrArg Except.ok hown.symm)⟩
      · rintro ⟨hdefinition, hoptions⟩
        refine ⟨document.options, hoptions, (ih hrest hothers).2 ⟨hdefinition, ?_⟩⟩
        rw [Fields.get?_eq_none hfresh]
        rfl

/-- What a bare definition is read as. -/
theorem bare?_eq_ok_iff : bare? j = .ok document ↔ Tree.ofJson? j = .ok document.definition ∧ document.options = {} := by
  rw [bare?, map_eq_ok_iff]
  constructor
  · rintro ⟨t, ht, rfl⟩
    exact ⟨located?_eq_ok_iff.1 ht, rfl⟩
  · rintro ⟨hdefinition, hoptions⟩
    exact ⟨document.definition, located?_eq_ok_iff.2 hdefinition, by rw [← hoptions]⟩

/-- A JSON value without repeated keys is read as what it is said to be read as. -/
theorem ofJson?_eq_ok_iff (hj : j.KeysDistinct) : ofJson? j = .ok document ↔ ReadFrom j document := by
  by_cases henvelope : ∃ fields, j = .object fields ∧ Envelope fields
  · obtain ⟨fields, rfl, henvelope⟩ := henvelope
    have hkeys : (Fields.keys fields).Nodup := by
      cases hj with
      | object hkeys _ => exact hkeys
    obtain ⟨body, hbody⟩ := Fields.exists_get?_of_mem_keys henvelope.1
    rw [ofJson?, if_pos (isEnvelope_iff.2 henvelope), ofFields?_eq_ok_iff hkeys henvelope.2, hbody]
    constructor
    · rintro ⟨hdefinition, hoptions⟩
      exact .envelope henvelope hbody (located?_eq_ok_iff.1 hdefinition) hoptions
    · intro h
      cases h with
      | envelope _ hbody' hdefinition hoptions =>
        cases hbody.symm.trans hbody'
        exact ⟨located?_eq_ok_iff.2 hdefinition, hoptions⟩
      | bare hbare => exact absurd henvelope (hbare fields rfl)
  · have hbare : ∀ fields, j = .object fields → ¬Envelope fields := fun fields hj h => henvelope ⟨fields, hj, h⟩
    have hread : ofJson? j = bare? j := by
      cases j with
      | object fields => rw [ofJson?, if_neg (mt isEnvelope_iff.1 (hbare fields rfl))]
      | _ => rfl
    rw [hread, bare?_eq_ok_iff]
    constructor
    · rintro ⟨hdefinition, hoptions⟩
      obtain ⟨t, options⟩ := document
      cases hoptions
      exact .bare hbare hdefinition
    · intro h
      cases h with
      | envelope h => exact absurd h (hbare _ rfl)
      | bare _ hdefinition => exact ⟨hdefinition, rfl⟩

/-- A text is read as what the JSON value at its start is said to be read as. -/
theorem parse?_eq_ok_iff {text : String} {following : Option Json.ReadError} (h : Json.first? text = .ok (j, following)) :
    parse? text = .ok document ↔ ReadFrom j document := by
  rw [parse?, h]
  exact ofJson?_eq_ok_iff (Json.keysDistinct_of_first? h)

/-- The text of a value is read as what the value is said to be read as, unless it nests too deep. -/
theorem parse?_eq_ok_iff_of_readAs {text : String} (h : Json.ReadAs text j) :
    parse? text = .ok document ↔ Json.nesting text ≤ Json.maxLevels ∧ ReadFrom j document := by
  by_cases hlevels : Json.nesting text ≤ Json.maxLevels
  · rw [parse?_eq_ok_iff (h.first?_eq_ok_iff.2 ⟨hlevels, rfl, rfl⟩)]
    exact (and_iff_right hlevels).symm
  · have hrefused : parse? text ≠ .ok document := by
      intro hparse
      unfold parse? at hparse
      split at hparse
      · cases hparse
      · rename_i hfirst
        exact hlevels (h.first?_eq_ok_iff.1 hfirst).1
    exact iff_of_false hrefused fun hread => hlevels hread.1

/-- An envelope with a definition alone is read as its definition with the default options. -/
theorem readFrom_single_iff {body : Json} :
    ReadFrom (.object [("definition", body)]) document ↔ Tree.ofJson? body = .ok document.definition ∧ document.options = {} := by
  have henvelope : Envelope [("definition", body)] := by simp [Envelope, Fields.keys]
  have hbody : Fields.get? [("definition", body)] "definition" = some body := if_pos rfl
  have hoptions : Fields.get? [("definition", body)] "options" = none := if_neg (by decide)
  constructor
  · intro h
    cases h with
    | envelope _ hbody' hdefinition hdefault =>
      cases hbody.symm.trans hbody'
      rw [hoptions] at hdefault
      exact ⟨hdefinition, hdefault⟩
    | bare hbare => exact absurd henvelope (hbare _ rfl)
  · rintro ⟨hdefinition, hdefault⟩
    refine .envelope henvelope hbody hdefinition ?_
    rw [hoptions]
    exact hdefault

/-- The order of the keys of an envelope does not matter. -/
theorem ReadFrom.perm {fields fields' : List (String × Json)} (h : ReadFrom (.object fields) document)
    (henvelope : Envelope fields) (hkeys : (Fields.keys fields).Nodup) (hperm : fields.Perm fields') :
    ReadFrom (.object fields') document := by
  have hsame : ∀ key, key ∈ Fields.keys fields' ↔ key ∈ Fields.keys fields := fun key => (hperm.map Prod.fst).mem_iff.symm
  cases h with
  | envelope _ hbody hdefinition hoptions =>
    refine .envelope ⟨(hsame _).2 henvelope.1, fun key hkey => henvelope.2 key ((hsame key).1 hkey)⟩ ?_ hdefinition ?_
    · rw [Fields.get?_eq_of_perm hkeys hperm]
      exact hbody
    · rw [Fields.get?_eq_of_perm hkeys hperm]
      exact hoptions
  | bare hbare => exact absurd henvelope (hbare fields rfl)

/-! ### Texts of envelopes -/

/-- The text of an envelope with a definition alone, given the text of the definition. -/
def enveloped (text : String) : String := "\x7b\"definition\":" ++ text ++ "\x7d"

variable {text : String}

theorem toList_enveloped :
    (enveloped text).toList = '\x7b' :: '"' :: ("definition".toList ++ '"' :: ':' :: (text.toList ++ ['\x7d'])) := by
  simp [enveloped]

/-- The text of an envelope is the text of the object around the value. -/
theorem readAs_enveloped (h : Json.ReadAs text j) : Json.ReadAs (enveloped text) (.object [("definition", j)]) := by
  obtain ⟨rest, hrest, -, hmore⟩ := h.readValue_eq
  have hvalue := hmore _ le_rfl ['\x7d'] (Json.stops_brace [])
  have hclose : Json.skipBlank (rest ++ ['\x7d']) = ['\x7d'] := by
    rw [(Json.stops_brace []).skipBlank_append, hrest]
    rfl
  have hkey : ∀ cs, Json.readString (("definition".toList ++ '"' :: cs).length + 1) [] ("definition".toList ++ '"' :: cs) =
      .ok ("definition", cs) := fun cs => Json.readString_escaped "definition".toList _ [] cs (Nat.le_succ _)
  refine ⟨Json.nesting text + 1, [], ?_, rfl⟩
  rw [toList_enveloped, Json.readValue, Json.readWith_object rfl]
  refine Json.readObject_eq_ok_iff.2 (Or.inr ⟨_, _, rfl, ?_, rfl⟩)
  refine Json.readFields_succ_eq_ok_iff.2 ⟨("definition", j), rest ++ ['\x7d'], ?_, Or.inl ⟨hclose, rfl⟩⟩
  exact Json.readField_eq_ok_iff.2 ⟨_, _, hkey _, rfl, hvalue⟩

/-- An envelope around a definition is one level deeper than the definition. -/
theorem nesting_enveloped (h : Json.ReadAs text j) : Json.nesting (enveloped text) = Json.nesting text + 1 := by
  obtain ⟨rest, hrest, hwalk, -⟩ := h.readValue_eq
  have hclose : Json.skipBlank (rest ++ ['\x7d']) = ['\x7d'] := by
    rw [(Json.stops_brace []).skipBlank_append, hrest]
    rfl
  have hkey : ∀ cs, Json.Walk 0 .plain ('"' :: ("definition".toList ++ '"' :: ':' :: cs)) .plain cs := by
    intro cs
    iterate 13 refine Json.Walk.cons (fun _ => rfl) ?_
    exact Json.Walk.refl _ _
  have hbody := (hwalk.append ['\x7d']).trans (Json.walk_blanks hclose)
  rw [Nat.max_zero] at hbody
  have henvelope := ((hkey (text.toList ++ ['\x7d'])).after hbody).enclosed (Or.inr rfl) (Or.inr rfl)
  rw [← toList_enveloped] at henvelope
  exact Json.nesting_eq_of_walk henvelope rfl

end SchemaDocument

/-! ### Lists in one another -/

/-- Lists in one another, the innermost one empty. -/
def Json.lists : Nat → Json
  | 0 => .array []
  | n + 1 => .array [lists n]

/-- The definition that lists in one another stand for. -/
def Tree.tuples : Nat → Tree
  | 0 => .node (.tuple [])
  | n + 1 => .node (.tuple [tuples n])

namespace Json

theorem plain_lists (n : Nat) : Plain (n + 1) (lists n) := by
  induction n with
  | zero => exact .array (by simp)
  | succ n ih => exact .array (by simpa using ih)

theorem toList_print_lists (n : Nat) :
    (print none (lists (n + 1))).toList = '[' :: ((print none (lists n)).toList ++ [']']) := by
  simp [lists, print, printItems, enclose]

theorem walk_lists (n : Nat) : Walk (n + 1) .plain (print none (lists n)).toList .plain [] := by
  induction n with
  | zero => exact (Walk.refl .plain [']']).enclosed (Or.inl rfl) (Or.inl rfl)
  | succ n ih =>
    rw [toList_print_lists]
    exact (ih.append [']']).enclosed (Or.inl rfl) (Or.inl rfl)

theorem nesting_lists (n : Nat) : nesting (print none (lists n)) = n + 1 := nesting_eq_of_walk (walk_lists n) rfl

theorem readAs_lists (n : Nat) : ReadAs (print none (lists n)) (lists n) := by
  have hread := readValue_print (plain_lists n) none []
  rw [List.append_nil] at hread
  exact ⟨_, _, hread, rfl⟩

end Json

theorem Tree.ofJson?_lists (n : Nat) : Tree.ofJson? (Json.lists n) = .ok (Tree.tuples n) := by
  induction n with
  | zero => rfl
  | succ n ih => exact Tree.ofJson?_array_eq_ok_iff.2 ⟨[Tree.tuples n], .cons ih .nil, rfl⟩

/-- How a text that is one JSON value is read as a schema document, in four parts.
1. It is read as what its value is said to be read as, and refused when that is nothing: an envelope by its members, any other
   value as a definition with the default options. It is refused as well when it nests deeper than 127 levels, whatever its value.
2. A text of an envelope with this value alone for its definition is read exactly when the value is a definition and the text nests
   no deeper than that. Then it judges every value as the definition does that is read without the envelope and judges without a
   limit, wherever the two are planted.
3. Such a text is made by writing the envelope around the text. It is one level deeper, so it is read exactly when the value is a
   definition and its own text nests at most 126 levels.
4. A text with the same envelope in another order of its keys is read as the same document, unless it nests deeper. -/
theorem envelope_read (text : String) (j : Json) (h : Json.ReadAs text j) :
    (∀ document, SchemaDocument.parse? text = .ok document ↔ Json.nesting text ≤ 127 ∧ SchemaDocument.ReadFrom j document) ∧
    (∀ envelope, Json.ReadAs envelope (.object [("definition", j)]) →
      ((∃ document, SchemaDocument.parse? envelope = .ok document) ↔ Json.nesting envelope ≤ 127 ∧ ∃ t, Tree.ofJson? j = .ok t) ∧
      ∀ document t, SchemaDocument.parse? envelope = .ok document → Tree.ofJson? j = .ok t →
        ∀ (s s' : Store) (heap : Heap) (v : Value),
        Validator.validate ⟨heap, (s.plant document.definition).1, document.options.maxDepth⟩ v (s.plant document.definition).2 =
          Validator.validate ⟨heap, (s'.plant t).1, none⟩ v (s'.plant t).2) ∧
    (Json.ReadAs (SchemaDocument.enveloped text) (.object [("definition", j)]) ∧
      ((∃ document, SchemaDocument.parse? (SchemaDocument.enveloped text) = .ok document) ↔
        Json.nesting text ≤ 126 ∧ ∃ t, Tree.ofJson? j = .ok t)) ∧
    ∀ fields, j = .object fields → SchemaDocument.Envelope fields → ∀ text' fields',
      Json.ReadAs text' (.object fields') → Json.nesting text' ≤ 127 → fields.Perm fields' →
      ∀ document, SchemaDocument.parse? text = .ok document → SchemaDocument.parse? text' = .ok document := by
  have hdocument : ∀ document, SchemaDocument.parse? text = .ok document ↔ _ :=
    fun document => SchemaDocument.parse?_eq_ok_iff_of_readAs h
  have hsingle : ∀ envelope, Json.ReadAs envelope (.object [("definition", j)]) →
      ((∃ document, SchemaDocument.parse? envelope = .ok document) ↔ Json.nesting envelope ≤ 127 ∧ ∃ t, Tree.ofJson? j = .ok t) := by
    intro envelope henvelope
    simp only [SchemaDocument.parse?_eq_ok_iff_of_readAs henvelope, SchemaDocument.readFrom_single_iff]
    constructor
    · rintro ⟨document, hlevels, hdefinition, _⟩
      exact ⟨hlevels, _, hdefinition⟩
    · rintro ⟨hlevels, t, ht⟩
      exact ⟨⟨t, {}⟩, hlevels, ht, rfl⟩
  refine ⟨hdocument, fun envelope henvelope => ⟨hsingle envelope henvelope, ?_⟩, ⟨SchemaDocument.readAs_enveloped h, ?_⟩, ?_⟩
  · intro document t hread ht s s' heap v
    obtain ⟨_, hsame⟩ := (SchemaDocument.parse?_eq_ok_iff_of_readAs henvelope).1 hread
    obtain ⟨hdefinition, hoptions⟩ := SchemaDocument.readFrom_single_iff.1 hsame
    cases hdefinition.symm.trans ht
    rw [hoptions]
    exact Validator.validate_plant_eq (Tree.expressible_of_ofJson? h.keysDistinct ht) s s' heap none v
  · rw [hsingle _ (SchemaDocument.readAs_enveloped h), SchemaDocument.nesting_enveloped h]
    exact and_congr_left fun _ => Nat.succ_le_succ_iff
  · rintro fields rfl henvelope text' fields' h' hlevels hperm document hread
    have hkeys : (Fields.keys fields).Nodup := by
      cases h.keysDistinct with
      | object hkeys _ => exact hkeys
    have hperm' : SchemaDocument.ReadFrom (.object fields') document := ((hdocument document).1 hread).2.perm henvelope hkeys hperm
    exact (SchemaDocument.parse?_eq_ok_iff_of_readAs h').2 ⟨hlevels, hperm'⟩

/-- An envelope in an envelope, with a limit and in either order of the keys: the outer one is the envelope, and the inner one is the
shape that declares a field `definition`. -/
theorem envelope_read_nested :
    let inner : Json := .object [("definition", .null)]
    let options : Json := .object [("max_depth", .natural 2 (by decide))]
    Json.ReadAs "\x7b\"definition\":\x7b\"definition\":null\x7d,\"options\":\x7b\"max_depth\":2\x7d\x7d"
        (.object [("definition", inner), ("options", options)]) ∧
      SchemaDocument.parse? "\x7b\"options\":\x7b\"max_depth\":2\x7d,\"definition\":\x7b\"definition\":null\x7d\x7d" =
        .ok ⟨.node (.shape [("definition", .null)]), ⟨some 2⟩⟩ ∧
      ∃ document, SchemaDocument.parse? (SchemaDocument.enveloped "\x7b\"definition\":null\x7d") = .ok document := by
  intro inner options
  have hforward : Json.first? "\x7b\"definition\":\x7b\"definition\":null\x7d,\"options\":\x7b\"max_depth\":2\x7d\x7d" =
      .ok (.object [("definition", inner), ("options", options)], none) := by cbv
  have hbackward : Json.first? "\x7b\"options\":\x7b\"max_depth\":2\x7d,\"definition\":\x7b\"definition\":null\x7d\x7d" =
      .ok (.object [("options", options), ("definition", inner)], none) := by cbv
  have hinner : Json.first? "\x7b\"definition\":null\x7d" = .ok (inner, none) := by cbv
  obtain ⟨hread, _, _, hreordered⟩ := envelope_read _ _ (Json.readAs_of_first? hforward)
  obtain ⟨_, _, ⟨_, henveloped⟩, _⟩ := envelope_read _ _ (Json.readAs_of_first? hinner)
  have henvelope : SchemaDocument.Envelope [("definition", inner), ("options", options)] := by
    simp [SchemaDocument.Envelope, Fields.keys]
  refine ⟨Json.readAs_of_first? hforward, ?_, henveloped.2 ⟨by decide +kernel, _, rfl⟩⟩
  refine hreordered _ rfl henvelope _ _ (Json.readAs_of_first? hbackward) (by decide +kernel) (.swap _ _ _) _
    ((hread _).2 ⟨by decide +kernel, ?_⟩)
  exact .envelope henvelope rfl rfl rfl

/-- A definition that is read alone is refused in an envelope when its text nests 127 levels. So it is false that a definition in an
envelope is read exactly when the definition is. -/
theorem envelope_read_false :
    let text := Json.print none (Json.lists 126)
    Json.parse? text = .ok (Json.lists 126) ∧ Tree.ofJson? (Json.lists 126) = .ok (Tree.tuples 126) ∧
      Json.ReadAs (SchemaDocument.enveloped text) (.object [("definition", Json.lists 126)]) ∧
      ¬((∃ document, SchemaDocument.parse? (SchemaDocument.enveloped text) = .ok document) ↔
        ∃ t, Tree.ofJson? (Json.lists 126) = .ok t) := by
  intro text
  have htext : Json.ReadAs text (Json.lists 126) := Json.readAs_lists 126
  refine ⟨Json.parse?_print (Json.plain_lists 126) none, Tree.ofJson?_lists 126, SchemaDocument.readAs_enveloped htext, ?_⟩
  intro hiff
  obtain ⟨document, hread⟩ := hiff.2 ⟨_, Tree.ofJson?_lists 126⟩
  have hlevels := ((SchemaDocument.parse?_eq_ok_iff_of_readAs (SchemaDocument.readAs_enveloped htext)).1 hread).1
  rw [SchemaDocument.nesting_enveloped htext, Json.nesting_lists] at hlevels
  exact absurd hlevels (by decide)

end Conform
