import Conform.Proofs.Envelope
import Conform.Proofs.Malformation

/-!
# How options are read

The form of an envelope has its options given by name (`Options.Named`): an object with no key but `max_depth`, whose value is null
or an integer that is not negative and fits a word. Every other spelling of a number, with a fraction, with an exponent or too large
for a word, is a double and no limit. The reader also takes a list of at most one item, which is the limit (`Options.Listed`), so
options are not always given by name (`options_named_false`). All else is refused, with an error at the options or inside them
(`options_read`).
-/

namespace Conform

namespace Options

/-! ### Limits -/

/-- The limit that a value gives: null is none, and an integer that is not negative is itself. -/
inductive Limit : Json → Option Nat → Prop where
  | none : Limit .null none
  | natural (n : Nat) (h : n < 0x10000000000000000) : Limit (.natural n h) (some n)

/-- Why a value is no limit. -/
inductive LimitFault : Json → OptionFault → Prop where
  | negative {n : Int} {fits : -0x8000000000000000 ≤ n ∧ n < 0x10000000000000000} (h : n < 0) :
      LimitFault (.number (.integer n fits)) (.negativeLimit n)
  | kind {j : Json} (hnull : j ≠ .null) (hinteger : ∀ n fits, j ≠ .number (.integer n fits)) : LimitFault j (.notLimit j)

theorem limit?_eq_ok_iff {j : Json} {limit : Option Nat} : limit? j = .ok limit ↔ Limit j limit := by
  constructor
  · intro h
    unfold limit? at h
    split at h
    · cases h
      exact .none
    · rename_i n fits
      split at h
      · rename_i hn
        cases h
        have hnatural : (JsonNumber.integer n fits).natural? = some n.toNat := if_pos hn
        obtain ⟨hsmall, hnumber⟩ := Tree.natural?_eq_some_iff.1 hnatural
        rw [hnumber]
        exact .natural _ hsmall
      · cases h
    · cases h
  · intro h
    cases h with
    | none => rfl
    | natural n h => simp [limit?, Json.natural]

theorem limitFault_of_error {j : Json} {e : PathError} (h : limit? j = .error e) :
    ∃ fault, LimitFault j fault ∧ e = ⟨[], .option fault⟩ := by
  unfold limit? at h
  split at h
  · cases h
  · split at h
    · cases h
    · rename_i hn
      cases h
      exact ⟨_, .negative (Int.not_le.1 hn), rfl⟩
  · rename_i hnull hinteger
    cases h
    exact ⟨_, .kind hnull hinteger, rfl⟩

/-! ### Options -/

/-- The options that a value gives by name: no field is there but a limit of depth, and none is given when that is absent. -/
inductive Named : Json → Options → Prop where
  | default {fields : List (String × Json)} (hknown : ∀ key ∈ Fields.keys fields, key = "max_depth")
      (habsent : Fields.get? fields "max_depth" = none) : Named (.object fields) {}
  | limited {fields : List (String × Json)} {j : Json} {limit : Option Nat} (hknown : ∀ key ∈ Fields.keys fields, key = "max_depth")
      (hgiven : Fields.get? fields "max_depth" = some j) (hlimit : Limit j limit) : Named (.object fields) ⟨limit⟩

/-- The options that a value gives by position: a list with nothing in it, or with a limit of depth alone. -/
inductive Listed : Json → Options → Prop where
  | default : Listed (.array []) {}
  | limited {j : Json} {limit : Option Nat} (hlimit : Limit j limit) : Listed (.array [j]) ⟨limit⟩

/-- Why a value gives no options, seen from the value. -/
inductive Refusal : Json → PathError → Prop where
  | kind {j : Json} (hobject : ∀ fields, j ≠ .object fields) (hlist : ∀ items, j ≠ .array items) :
      Refusal j ⟨[], .option (.notOptions j)⟩
  | unknown {fields : List (String × Json)} {key : String} (hkey : key ∈ Fields.keys fields) (hunknown : key ≠ "max_depth") :
      Refusal (.object fields) ⟨[.key key], .option (.unknownField key)⟩
  | named {fields : List (String × Json)} {j : Json} {fault : OptionFault} (hgiven : ("max_depth", j) ∈ fields)
      (hfault : LimitFault j fault) : Refusal (.object fields) ⟨[.key "max_depth"], .option fault⟩
  | listed {j : Json} {items : List Json} {fault : OptionFault} (hfault : LimitFault j fault) :
      Refusal (.array (j :: items)) ⟨[.index 0], .option fault⟩
  | excess {j : Json} {items : List Json} (hitems : items ≠ []) :
      Refusal (.array (j :: items)) ⟨[], .option (.tooManyItems (items.length + 1))⟩

variable {start options : Options} {fields : List (String × Json)}

/-- Reading the fields of options one after the other is finding the limit by name, when no other field is there. -/
theorem ofFields?_eq_ok_iff (hkeys : (Fields.keys fields).Nodup) :
    ofFields? start fields = .ok options ↔ (∀ key ∈ Fields.keys fields, key = "max_depth") ∧
      SchemaDocument.Member limit? start.maxDepth (Fields.get? fields "max_depth") options.maxDepth := by
  cases fields with
  | nil =>
    obtain ⟨limit⟩ := start
    obtain ⟨limit'⟩ := options
    simp [ofFields?, Fields.keys, Fields.get?, SchemaDocument.Member, eq_comm]
  | cons f rest =>
    obtain ⟨key, j⟩ := f
    obtain ⟨hfresh, _⟩ := List.nodup_cons.1 hkeys
    by_cases hkey : key = "max_depth"
    · subst hkey
      have hown : Fields.get? (("max_depth", j) :: rest) "max_depth" = some j := if_pos rfl
      rw [ofFields?, if_pos rfl, hown]
      -- A second field would be unknown, since the keys are distinct.
      cases rest with
      | nil =>
        obtain ⟨limit'⟩ := options
        cases hlimit : limit? j <;> simp [Except.mapError, ofFields?, Fields.keys, SchemaDocument.Member, hlimit]
      | cons g rest =>
        obtain ⟨other, k⟩ := g
        have hother : other ≠ "max_depth" := fun h => hfresh (h ▸ List.mem_cons_self)
        cases limit? j <;> simp [Except.mapError, ofFields?, Fields.keys, hother]
    · rw [ofFields?, if_neg hkey]
      simp [Fields.keys, hkey]

/-- The error of the fields of options is that of one of them. -/
theorem refusal_of_ofFields?_error {e : PathError} (h : ofFields? start fields = .error e) : Refusal (.object fields) e := by
  -- The induction goes down a part of the fields, and what is refused is all of them.
  suffices hsome : ∀ all : List (String × Json), fields ⊆ all → Refusal (.object all) e from hsome fields (List.Subset.refl _)
  intro all hall
  induction fields generalizing start with
  | nil => cases h
  | cons f rest ih =>
    obtain ⟨key, j⟩ := f
    have hmem : (key, j) ∈ all := hall List.mem_cons_self
    by_cases hkey : key = "max_depth"
    · subst hkey
      rw [ofFields?, if_pos rfl] at h
      cases hlimit : limit? j with
      | error e' =>
        obtain ⟨fault, hfault, rfl⟩ := limitFault_of_error hlimit
        rw [hlimit] at h
        cases h
        exact .named hmem hfault
      | ok limit =>
        rw [hlimit] at h
        exact ih h fun g hg => hall (List.mem_cons_of_mem _ hg)
    · rw [ofFields?, if_neg hkey] at h
      cases h
      exact .unknown (List.mem_map_of_mem hmem) hkey

/-- The fields of an object are read as the options that the object gives by name. -/
theorem ofFields?_eq_ok_iff_named (hkeys : (Fields.keys fields).Nodup) :
    ofFields? {} fields = .ok options ↔ Named (.object fields) options := by
  obtain ⟨limit⟩ := options
  rw [ofFields?_eq_ok_iff hkeys]
  constructor
  · rintro ⟨hknown, hlimit⟩
    cases hgiven : Fields.get? fields "max_depth" with
    | none =>
      rw [hgiven] at hlimit
      cases hlimit
      exact .default hknown hgiven
    | some j =>
      rw [hgiven] at hlimit
      exact .limited hknown hgiven (limit?_eq_ok_iff.1 hlimit)
  · intro h
    cases h with
    | default hknown habsent => exact ⟨hknown, by rw [habsent]; rfl⟩
    | limited hknown hgiven hlimit => exact ⟨hknown, by rw [hgiven]; exact limit?_eq_ok_iff.2 hlimit⟩

/-- A list is read as the options that it gives by position. -/
theorem ofJson?_array_eq_ok_iff_listed {items : List Json} :
    ofJson? (.array items) = .ok options ↔ Listed (.array items) options := by
  constructor
  · intro h
    cases items with
    | nil =>
      cases h
      exact .default
    | cons j items =>
      cases hlimit : limit? j with
      | error e => simp [ofJson?, hlimit, Except.mapError] at h
      | ok limit =>
        cases items with
        | nil =>
          simp only [ofJson?, hlimit, Except.mapError, List.isEmpty_nil, if_true, Except.ok.injEq] at h
          subst h
          exact .limited (limit?_eq_ok_iff.1 hlimit)
        | cons k items => simp [ofJson?, hlimit, Except.mapError] at h
  · intro h
    cases h with
    | default => rfl
    | limited hlimit => simp [ofJson?, limit?_eq_ok_iff.2 hlimit, Except.mapError]

/-- A value without repeated keys is read as the options that it gives, by name or by position. -/
theorem ofJson?_eq_ok_iff {j : Json} (hj : j.KeysDistinct) : ofJson? j = .ok options ↔ Named j options ∨ Listed j options := by
  cases j with
  | object fields =>
    have hkeys : (Fields.keys fields).Nodup := by
      cases hj with
      | object hkeys _ => exact hkeys
    have hlisted : ¬Listed (.object fields) options := nofun
    rw [or_iff_left hlisted]
    exact ofFields?_eq_ok_iff_named hkeys
  | array items =>
    have hnamed : ¬Named (.array items) options := nofun
    rw [or_iff_right hnamed]
    exact ofJson?_array_eq_ok_iff_listed
  | _ =>
    simp only [ofJson?, reduceCtorEq, false_iff]
    rintro (h | h) <;> cases h

/-- The error of a value that gives no options says why. -/
theorem refusal_of_ofJson?_error {j : Json} {e : PathError} (h : ofJson? j = .error e) : Refusal j e := by
  cases j with
  | object fields => exact refusal_of_ofFields?_error h
  | array items =>
    cases items with
    | nil => cases h
    | cons j items =>
      cases hlimit : limit? j with
      | error e' =>
        obtain ⟨fault, hfault, rfl⟩ := limitFault_of_error hlimit
        simp only [ofJson?, hlimit, Except.mapError, Except.error.injEq] at h
        subst h
        exact .listed hfault
      | ok limit =>
        cases items with
        | nil => simp [ofJson?, hlimit, Except.mapError] at h
        | cons k items =>
          simp only [ofJson?, hlimit, Except.mapError, List.isEmpty_cons, Bool.false_eq_true, if_false, Except.error.injEq] at h
          subst h
          exact .excess (List.cons_ne_nil _ _)
  | _ =>
    cases h
    exact .kind nofun nofun

end Options

namespace SchemaDocument

/-- An envelope whose definition is read fails where its options do. -/
theorem ofFields?_eq_error {start : SchemaDocument} {fields : List (String × Json)} {e : PathError}
    (hknown : ∀ key ∈ Fields.keys fields, key = "definition" ∨ key = "options")
    (hdefinition : ∀ body, ("definition", body) ∈ fields → ∃ t, Tree.ofJson? body = .ok t) (h : ofFields? start fields = .error e) :
    ∃ j e', ("options", j) ∈ fields ∧ Options.ofJson? j = .error e' ∧ e = e'.within (.key "options") := by
  induction fields generalizing start with
  | nil => cases h
  | cons f rest ih =>
    obtain ⟨key, j⟩ := f
    have hothers : ∀ k ∈ Fields.keys rest, k = "definition" ∨ k = "options" := fun k hk => hknown k (List.mem_cons_of_mem key hk)
    have hbodies : ∀ body, ("definition", body) ∈ rest → ∃ t, Tree.ofJson? body = .ok t :=
      fun body hbody => hdefinition body (List.mem_cons_of_mem _ hbody)
    have hlater : ∀ start', ofFields? start' rest = .error e →
        ∃ k e', ("options", k) ∈ (key, j) :: rest ∧ Options.ofJson? k = .error e' ∧ e = e'.within (.key "options") := by
      intro start' hrest
      obtain ⟨k, e', hk, hfails⟩ := ih hothers hbodies hrest
      exact ⟨k, e', List.mem_cons_of_mem _ hk, hfails⟩
    rcases hknown key List.mem_cons_self with rfl | rfl
    · obtain ⟨t, ht⟩ := hdefinition j List.mem_cons_self
      rw [ofFields?, if_pos rfl, located?_eq_ok_iff.2 ht] at h
      exact hlater _ h
    · rw [ofFields?, if_neg (by decide)] at h
      cases hoptions : Options.ofJson? j with
      | error e' =>
        rw [hoptions] at h
        cases h
        exact ⟨j, e', List.mem_cons_self, hoptions, rfl⟩
      | ok options =>
        rw [hoptions] at h
        exact hlater _ h

section Definition

variable {text : String} {fields : List (String × Json)} {following : Option Json.ReadError} {body : Json} {t : Tree}
  {document : SchemaDocument} {e : PathError}

theorem parse?_of_envelope (h : Json.first? text = .ok (.object fields, following)) (henvelope : Envelope fields) :
    parse? text = ofFields? ⟨.null, {}⟩ fields := by
  rw [parse?, h]
  exact if_pos (isEnvelope_iff.2 henvelope)

theorem nodup_keys_of_first? (h : Json.first? text = .ok (.object fields, following)) : (Fields.keys fields).Nodup := by
  cases Json.keysDistinct_of_first? h with
  | object hkeys _ => exact hkeys

/-- An envelope whose definition is read holds it, and what its options are read as. -/
theorem parse?_eq_ok_iff_of_definition (h : Json.first? text = .ok (.object fields, following)) (henvelope : Envelope fields)
    (hbody : Fields.get? fields "definition" = some body) (ht : Tree.ofJson? body = .ok t) :
    parse? text = .ok document ↔
      document.definition = t ∧ Member Options.ofJson? {} (Fields.get? fields "options") document.options := by
  have hdefinition : Tree.located? body = .ok document.definition ↔ document.definition = t := by
    rw [located?_eq_ok_iff, ht, Except.ok.injEq, eq_comm]
  rw [parse?_of_envelope h henvelope, ofFields?_eq_ok_iff (nodup_keys_of_first? h) henvelope.2, hbody]
  exact and_congr_left' hdefinition

/-- When an envelope is refused whose definition is read, its options are. -/
theorem exists_of_parse?_error (h : Json.first? text = .ok (.object fields, following)) (henvelope : Envelope fields)
    (hbody : Fields.get? fields "definition" = some body) (ht : Tree.ofJson? body = .ok t) (herror : parse? text = .error e) :
    ∃ j e', Fields.get? fields "options" = some j ∧ Options.ofJson? j = .error e' ∧ e = e'.within (.key "options") := by
  have hkeys := nodup_keys_of_first? h
  have hdefinition : ∀ body', ("definition", body') ∈ fields → ∃ t, Tree.ofJson? body' = .ok t := by
    intro body' hbody'
    obtain rfl := Option.some.inj ((Fields.get?_of_mem hkeys hbody').symm.trans hbody)
    exact ⟨t, ht⟩
  rw [parse?_of_envelope h henvelope] at herror
  obtain ⟨j, e', hj, hfails⟩ := ofFields?_eq_error henvelope.2 hdefinition herror
  exact ⟨j, e', Fields.get?_of_mem hkeys hj, hfails⟩

/-- What is given for options repeats no keys. -/
theorem keysDistinct_options {j : Json} (h : Json.first? text = .ok (.object fields, following))
    (hj : Fields.get? fields "options" = some j) : j.KeysDistinct := by
  cases Json.keysDistinct_of_first? h with
  | object _ hfields => exact hfields _ (Fields.mem_of_get? hj)

end Definition

end SchemaDocument

/-- What the options of an envelope are read as, when its definition is read, in two parts.
1. The document holds that definition. Its options are the default ones when none are given, and otherwise those that are given, by
   name or by position.
2. What gives no options is refused with an error at the options or inside them, which says why. -/
theorem options_read (text : String) (fields : List (String × Json)) (following : Option Json.ReadError) (body : Json) (t : Tree)
    (h : Json.first? text = .ok (.object fields, following)) (henvelope : SchemaDocument.Envelope fields)
    (hbody : Fields.get? fields "definition" = some body) (ht : Tree.ofJson? body = .ok t) :
    (∀ document, SchemaDocument.parse? text = .ok document ↔ document.definition = t ∧
      (Fields.get? fields "options" = none ∧ document.options = {} ∨
        ∃ j, Fields.get? fields "options" = some j ∧ (Options.Named j document.options ∨ Options.Listed j document.options))) ∧
    ∀ j, Fields.get? fields "options" = some j → (∀ options, ¬Options.Named j options ∧ ¬Options.Listed j options) →
      ∃ e, Options.Refusal j e ∧ SchemaDocument.parse? text = .error (e.within (.key "options")) := by
  have hread : ∀ document, SchemaDocument.parse? text = .ok document ↔ document.definition = t ∧
      SchemaDocument.Member Options.ofJson? {} (Fields.get? fields "options") document.options :=
    fun _ => SchemaDocument.parse?_eq_ok_iff_of_definition h henvelope hbody ht
  have hgives : ∀ j, Fields.get? fields "options" = some j → ∀ options,
      Options.ofJson? j = .ok options ↔ Options.Named j options ∨ Options.Listed j options :=
    fun j hj _ => Options.ofJson?_eq_ok_iff (SchemaDocument.keysDistinct_options h hj)
  constructor
  · intro document
    rw [hread]
    refine and_congr_right' ?_
    cases hoptions : Fields.get? fields "options" with
    | none => simp [SchemaDocument.Member]
    | some j => simp [SchemaDocument.Member, hgives j hoptions]
  · intro j hj hnone
    cases hresult : SchemaDocument.parse? text with
    | ok document =>
      obtain ⟨_, hoptions⟩ := (hread document).1 hresult
      rw [hj] at hoptions
      exact absurd ((hgives j hj _).1 hoptions) (not_or.2 (hnone _))
    | error e =>
      obtain ⟨j', e', hj', hfails, rfl⟩ := SchemaDocument.exists_of_parse?_error h henvelope hbody ht hresult
      obtain rfl := Option.some.inj (hj'.symm.trans hj)
      exact ⟨e', Options.refusal_of_ofJson?_error hfails, rfl⟩

/-- A limit is read under its name and as the one item of a list, and a limit below zero is refused where it stands. -/
theorem options_read_limits :
    SchemaDocument.parse? "\x7b\"definition\":\"any\",\"options\":\x7b\"max_depth\":3\x7d\x7d" = .ok ⟨.token "any", ⟨some 3⟩⟩ ∧
      SchemaDocument.parse? "\x7b\"definition\":\"any\",\"options\":[3]\x7d" = .ok ⟨.token "any", ⟨some 3⟩⟩ ∧
      ∃ e, Options.Refusal (.object [("max_depth", .number (.integer (-1) (by decide)))]) e ∧
        SchemaDocument.parse? "\x7b\"definition\":\"any\",\"options\":\x7b\"max_depth\":-1\x7d\x7d" =
          .error (e.within (.key "options")) := by
  have henvelope : ∀ j, SchemaDocument.Envelope [("definition", .string "any"), ("options", j)] := by
    intro j
    simp [SchemaDocument.Envelope, Fields.keys]
  have hdefinition : Tree.ofJson? (.string "any") = .ok (.token "any") := by cbv
  have hthree : Options.Limit (.natural 3 (by decide)) (some 3) := .natural 3 (by decide)
  have hbelow : ∀ limit, ¬Options.Limit (.number (.integer (-1) (by decide))) limit := by
    intro limit hlimit
    have hread := Options.limit?_eq_ok_iff.2 hlimit
    cases hread
  refine ⟨((options_read _ _ none _ _ (by cbv) (henvelope _) rfl hdefinition).1 _).2 ⟨rfl, .inr ⟨_, rfl, .inl ?_⟩⟩,
    ((options_read _ _ none _ _ (by cbv) (henvelope _) rfl hdefinition).1 _).2 ⟨rfl, .inr ⟨_, rfl, .inr (.limited hthree)⟩⟩,
    (options_read _ _ none _ _ (by cbv) (henvelope _) rfl hdefinition).2 _ rfl fun options => ⟨?_, ?_⟩⟩
  · exact .limited (by simp [Fields.keys]) (if_pos rfl) hthree
  · intro hnamed
    cases hnamed with
    | default _ habsent => cases habsent
    | limited _ hgiven hlimit =>
      obtain rfl := Option.some.inj hgiven
      exact hbelow _ hlimit
  · intro hlisted
    cases hlisted

/-- The options of an envelope are not always given by name: a list that holds a number is read as the limit of that number. -/
theorem options_named_false :
    ¬∀ text fields following body t, Json.first? text = .ok (.object fields, following) → SchemaDocument.Envelope fields →
      Fields.get? fields "definition" = some body → Tree.ofJson? body = .ok t → ∀ document,
        (SchemaDocument.parse? text = .ok document ↔ document.definition = t ∧
          (Fields.get? fields "options" = none ∧ document.options = {} ∨
            ∃ j, Fields.get? fields "options" = some j ∧ Options.Named j document.options)) := by
  intro hnamed
  have hfirst : Json.first? "\x7b\"definition\":\"any\",\"options\":[3]\x7d" =
      .ok (.object [("definition", .string "any"), ("options", .array [.natural 3 (by decide)])], none) := by cbv
  have henvelope : SchemaDocument.Envelope [("definition", .string "any"), ("options", .array [.natural 3 (by decide)])] := by
    simp [SchemaDocument.Envelope, Fields.keys]
  have hread : SchemaDocument.parse? "\x7b\"definition\":\"any\",\"options\":[3]\x7d" = .ok ⟨.token "any", ⟨some 3⟩⟩ := by cbv
  obtain ⟨_, ⟨habsent, _⟩ | ⟨j, hj, hobject⟩⟩ := (hnamed _ _ _ _ _ hfirst henvelope rfl (by cbv) _).1 hread
  · cases habsent
  · obtain rfl := Option.some.inj hj
    cases hobject

end Conform
