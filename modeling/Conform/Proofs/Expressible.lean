import Conform.Proofs.DistinctKeys
import Conform.Proofs.Double
import Conform.Proofs.Unfolding
import Conform.Tree.OfJson

/-!
# The trees that JSON can express

Not every definition can be written in JSON: a shape whose keys are those of a directive is read as the directive, a bounded
array has bounds that fit a word and leave room, a class has to be builtin, and what stands for nothing is a boolean or a finite
number. Nothing else is lost: the trees that the reading of JSON values gives are exactly the trees that respect these limits
at every node (`image_of_json`).
-/

namespace Conform

/-- Whether a set of keys marks a directive. -/
inductive Directive (keys : List String) : Prop where
  | single (name : String) (hname : name ∈ ["$undefined", "$union", "$optional", "$instanceOf"])
      (hkeys : ∀ key, key ∈ keys ↔ key = name)
  | arrayOf (bounds : List String) (hbounds : bounds ⊆ ["$min", "$max"])
      (hkeys : ∀ key, key ∈ keys ↔ key ∈ "$arrayOf" :: bounds)

/-- Whether JSON has a form for a node over parts that it has a form for. -/
def Node.Expressible {δ : Type} : Node δ → Prop
  | .tuple _ => True
  | .union _ => True
  | .bounded _ min max => min < 2 ^ 64 ∧ ∀ m, max = some m → min ≤ m ∧ m < 2 ^ 64
  | .shape fields => (Fields.keys fields).Nodup ∧ ¬Directive (Fields.keys fields)

/-- Whether JSON has a form for a tree. -/
inductive Tree.Expressible : Tree → Prop where
  | token (text : String) : Expressible (.token text)
  | null : Expressible .null
  | undefined : Expressible .undefined
  | nominal {cls : Class} (hcls : cls ∈ [Class.object, Class.array, Class.error]) : Expressible (.nominal cls)
  | bool (b : Bool) : Expressible (.other (.bool b))
  | number {x : Float} (hfinite : x.isFinite = true) : Expressible (.other (.number x))
  | node {n : Node Tree} (hnode : n.Expressible) (hparts : ∀ t ∈ n.children, Expressible t) : Expressible (.node n)

/-! ### The keys of directives -/

variable {keys : List String}

/-- Whether a key is among the keys of an object, and beside it none but the given ones. -/
def HoldsOnly (keys : List String) (key : String) (others : List String) : Prop :=
  key ∈ keys ∧ ∀ k ∈ keys, k ∈ key :: others

theorem holdsOnly_iff {key : String} {others : List String} :
    (keys.contains key && keys.all (key :: others).contains) = true ↔ HoldsOnly keys key others := by
  simp [HoldsOnly]

/-- The keys are one name and nothing else. -/
theorem holdsOnly_nil_iff {name : String} : HoldsOnly keys name [] ↔ ∀ key, key ∈ keys ↔ key = name := by
  constructor
  · rintro ⟨hmem, honly⟩ key
    refine ⟨fun hkey => List.mem_singleton.1 (honly key hkey), ?_⟩
    rintro rfl
    exact hmem
  · intro hkeys
    exact ⟨(hkeys name).2 rfl, fun key hkey => List.mem_singleton.2 ((hkeys key).1 hkey)⟩

/-- The keys are one name and some of the others. -/
theorem holdsOnly_iff_exists {name : String} {others : List String} :
    HoldsOnly keys name others ↔ ∃ held, held ⊆ others ∧ ∀ key, key ∈ keys ↔ key ∈ name :: held := by
  constructor
  · rintro ⟨hmem, honly⟩
    refine ⟨others.filter (· ∈ keys), List.filter_subset_self _, fun key => ?_⟩
    simp only [List.mem_cons, List.mem_filter, decide_eq_true_eq]
    constructor
    · intro hkey
      exact (List.mem_cons.1 (honly key hkey)).imp_right fun h => ⟨h, hkey⟩
    · rintro (rfl | ⟨-, hkey⟩)
      · exact hmem
      · exact hkey
  · rintro ⟨held, hheld, hkeys⟩
    refine ⟨(hkeys name).2 List.mem_cons_self, fun key hkey => ?_⟩
    exact List.cons_subset_cons name hheld ((hkeys key).1 hkey)

/-- The five forms of an object that are no shape, told by its keys. -/
theorem directive_iff :
    Directive keys ↔ HoldsOnly keys "$undefined" [] ∨ HoldsOnly keys "$union" [] ∨ HoldsOnly keys "$optional" [] ∨
      HoldsOnly keys "$arrayOf" ["$min", "$max"] ∨ HoldsOnly keys "$instanceOf" [] := by
  simp only [holdsOnly_nil_iff]
  rw [holdsOnly_iff_exists]
  constructor
  · rintro (⟨name, hname, hkeys⟩ | ⟨bounds, hbounds, hkeys⟩)
    · simp only [List.mem_cons, List.not_mem_nil, or_false] at hname
      rcases hname with rfl | rfl | rfl | rfl
      · exact .inl hkeys
      · exact .inr (.inl hkeys)
      · exact .inr (.inr (.inl hkeys))
      · exact .inr (.inr (.inr (.inr hkeys)))
    · exact .inr (.inr (.inr (.inl ⟨bounds, hbounds, hkeys⟩)))
  · rintro (hkeys | hkeys | hkeys | ⟨bounds, hbounds, hkeys⟩ | hkeys)
    · exact .single _ (by simp) hkeys
    · exact .single _ (by simp) hkeys
    · exact .single _ (by simp) hkeys
    · exact .arrayOf bounds hbounds hkeys
    · exact .single _ (by simp) hkeys

/-- An object stands for a shape exactly when its keys mark no directive. -/
theorem ofKeys_eq_shape_iff : ObjectForm.ofKeys keys = .shape ↔ ¬Directive keys := by
  simp only [directive_iff, ← holdsOnly_iff]
  unfold ObjectForm.ofKeys
  dsimp only
  split_ifs <;> simp only [*, true_or, or_true, not_true_eq_false, not_false_eq_true, reduceCtorEq, or_self]

/-! ### What a reading that succeeds has read -/

section Except

variable {ε ε' α β : Type} {x : Except ε α}

theorem map_eq_ok_iff {f : α → β} {b : β} : x.map f = .ok b ↔ ∃ a, x = .ok a ∧ f a = b := by
  cases x <;> simp [Except.map]

theorem mapError_eq_ok_iff {f : ε → ε'} {a : α} : x.mapError f = .ok a ↔ x = .ok a := by
  cases x <;> simp [Except.mapError]

theorem bind_eq_ok_iff {f : α → Except ε β} {b : β} : x.bind f = .ok b ↔ ∃ a, x = .ok a ∧ f a = .ok b := by
  cases x <;> simp [Except.bind]

end Except

namespace Tree

/-- The items of a list are read one by one. -/
theorem ofItems?_eq_ok_iff {i : Nat} {items : List Json} {ts : List Tree} :
    ofItems? i items = .ok ts ↔ List.Forall₂ (fun j t => ofJson? j = .ok t) items ts := by
  induction items generalizing i ts with
  | nil => simp [ofItems?, eq_comm]
  | cons j js ih =>
    simp only [ofItems?, bind, bind_eq_ok_iff, mapError_eq_ok_iff, ih, List.forall₂_cons_left_iff, Except.ok.injEq]
    constructor
    · rintro ⟨t, ht, ts, hts, rfl⟩
      exact ⟨t, ts, ht, hts, rfl⟩
    · rintro ⟨t, ts, ht, hts, rfl⟩
      exact ⟨t, ht, ts, hts, rfl⟩

/-- The fields of a shape are read one by one under their keys. -/
theorem ofFields?_eq_ok_iff {fields : List (String × Json)} {ts : List (String × Tree)} :
    ofFields? fields = .ok ts ↔ List.Forall₂ (fun f g => f.1 = g.1 ∧ ofJson? f.2 = .ok g.2) fields ts := by
  induction fields generalizing ts with
  | nil => simp [ofFields?, eq_comm]
  | cons f fields ih =>
    obtain ⟨key, j⟩ := f
    simp only [ofFields?, bind, bind_eq_ok_iff, mapError_eq_ok_iff, ih, List.forall₂_cons_left_iff, Except.ok.injEq]
    constructor
    · rintro ⟨t, ht, ts, hts, rfl⟩
      exact ⟨(key, t), ts, ⟨rfl, ht⟩, hts, rfl⟩
    · rintro ⟨⟨_, t⟩, ts, ⟨rfl, ht⟩, hts, rfl⟩
      exact ⟨t, ht, ts, hts, rfl⟩

/-- The definition under a key is the one that an entry stands for, or null. -/
theorem eq_null_or_exists_of_ofField? {key : String} {fields : List (String × Json)} {t : Tree}
    (h : ofField? key fields = .ok t) : t = .null ∨ ∃ f ∈ fields, ofJson? f.2 = .ok t := by
  induction fields with
  | nil =>
    cases h
    exact Or.inl rfl
  | cons f fields ih =>
    obtain ⟨k, j⟩ := f
    unfold ofField? at h
    split at h
    · exact Or.inr ⟨(k, j), List.mem_cons_self, mapError_eq_ok_iff.1 h⟩
    · refine (ih h).imp_right ?_
      rintro ⟨f, hf, ht⟩
      exact ⟨f, List.mem_cons_of_mem _ hf, ht⟩

/-- A list stands for the tuple of what its items stand for. -/
theorem ofJson?_array_eq_ok_iff {items : List Json} {t : Tree} :
    ofJson? (.array items) = .ok t ↔
      ∃ ts, List.Forall₂ (fun j t => ofJson? j = .ok t) items ts ∧ .node (.tuple ts) = t := by
  simp only [ofJson?, map_eq_ok_iff, ofItems?_eq_ok_iff]

/-- The alternatives of a union are the items of a tuple that stands in the object. -/
theorem exists_of_ofAlternatives? {fields : List (String × Json)} {ts : List Tree} (h : ofAlternatives? fields = .ok ts) :
    ∃ f ∈ fields, ofJson? f.2 = .ok (.node (.tuple ts)) := by
  unfold ofAlternatives? at h
  split at h
  · exact ⟨_, List.mem_cons_self, ofJson?_array_eq_ok_iff.2 ⟨ts, ofItems?_eq_ok_iff.1 (mapError_eq_ok_iff.1 h), rfl⟩⟩
  · cases h

/-- A bound fits a word. -/
theorem lt_of_bound? {fields : List (String × Json)} {key : String} {n : Nat} (h : bound? fields key = .ok (some n)) :
    n < 2 ^ 64 := by
  unfold bound? at h
  split at h
  · cases h
  · cases h
  · rename_i number _
    cases number with
    | float x finite => cases h
    | integer m fits =>
      unfold JsonNumber.natural? at h
      by_cases hm : 0 ≤ m
      · simp only [if_pos hm] at h
        cases h
        omega
      · simp only [if_neg hm] at h
        cases h
  · cases h

/-- An array directive is read when both bounds are and leave room between them. A lower bound that is missing is zero. -/
theorem arrayOf?_eq_ok_iff {fields : List (String × Json)} {element t : Tree} :
    arrayOf? fields element = .ok t ↔ ∃ lower max, bound? fields "$min" = .ok lower ∧ bound? fields "$max" = .ok max ∧
      (∀ m, max = some m → lower.getD 0 ≤ m) ∧ .node (.bounded element (lower.getD 0) max) = t := by
  simp only [arrayOf?, bind, bind_eq_ok_iff]
  refine exists_congr fun lower => ?_
  simp only [← exists_and_left]
  refine exists_congr fun max => and_congr_right fun _ => and_congr_right fun _ => ?_
  cases max with
  | none => simp
  | some m =>
    by_cases hroom : m < lower.getD 0
    · simp [hroom]
    · simp [hroom, Nat.le_of_not_lt hroom]

/-- An array directive leaves room between its bounds. -/
theorem expressible_of_arrayOf? {fields : List (String × Json)} {element t : Tree} (helement : element.Expressible)
    (h : arrayOf? fields element = .ok t) : t.Expressible := by
  obtain ⟨lower, max, hlower, hmax, hroom, rfl⟩ := arrayOf?_eq_ok_iff.1 h
  have hmin : lower.getD 0 < 2 ^ 64 := by
    cases lower with
    | none => decide
    | some n => exact lt_of_bound? hlower
  refine .node ⟨hmin, ?_⟩ fun t ht => List.mem_singleton.1 ht ▸ helement
  rintro m rfl
  exact ⟨hroom m rfl, lt_of_bound? hmax⟩

/-- A class by name is builtin. -/
theorem expressible_of_instanceOf? {fields : List (String × Json)} {t : Tree} (h : instanceOf? fields = .ok t) :
    t.Expressible := by
  unfold instanceOf? at h
  split at h
  · split at h
    · rename_i cls hcls
      cases h
      exact .nominal (List.mem_of_find?_eq_some hcls)
    · cases h
  · cases h

/-- The flag of the undefined directive gives the literal. -/
theorem expressible_of_undefined? {fields : List (String × Json)} {t : Tree} (h : undefined? fields = .ok t) :
    t.Expressible := by
  unfold undefined? at h
  split at h
  · cases h
    exact .undefined
  · cases h

/-- A definition or a value for missing is expressible with the definition. -/
theorem Expressible.optional {t : Tree} (h : t.Expressible) : t.optional.Expressible := by
  refine .node trivial fun u hu => ?_
  simp only [Node.children, List.mem_cons, List.not_mem_nil, or_false] at hu
  rcases hu with rfl | rfl | rfl
  · exact .null
  · exact .undefined
  · exact h

/-! ### Every tree that is read is expressible -/

/-- What a value without repeated keys stands for is expressible. -/
theorem expressible_of_ofJson? {j : Json} (hj : j.KeysDistinct) {t : Tree} (h : ofJson? j = .ok t) : t.Expressible := by
  induction hj generalizing t with
  | null =>
    cases h
    exact .null
  | bool b =>
    cases h
    exact .bool b
  | number n =>
    cases h
    exact .number n.isFinite_toFloat
  | string text =>
    cases h
    exact .token text
  | array hitems ih =>
    obtain ⟨ts, hts, rfl⟩ := ofJson?_array_eq_ok_iff.1 h
    refine .node trivial fun t ht => ?_
    obtain ⟨j, hj, hread⟩ := exists_mem_of_forall₂ hts.flip t ht
    exact ih j hj hread
  | @object fields hkeys hfields ih =>
    -- What a field stands for is expressible, whichever directive asks for it.
    have hfield {key : String} {t : Tree} (h : ofField? key fields = .ok t) : t.Expressible := by
      rcases eq_null_or_exists_of_ofField? h with rfl | ⟨f, hf, hread⟩
      · exact .null
      · exact ih f hf hread
    unfold ofJson? at h
    split at h
    · exact expressible_of_undefined? h
    · obtain ⟨ts, hts, rfl⟩ := map_eq_ok_iff.1 h
      obtain ⟨f, hf, hread⟩ := exists_of_ofAlternatives? hts
      cases ih f hf hread with
      | node hnode hparts => exact .node trivial hparts
    · obtain ⟨u, hu, rfl⟩ := map_eq_ok_iff.1 h
      exact (hfield hu).optional
    · obtain ⟨u, hu, hbounded⟩ := bind_eq_ok_iff.1 h
      exact expressible_of_arrayOf? (hfield hu) hbounded
    · exact expressible_of_instanceOf? h
    · rename_i hshape
      obtain ⟨ts, hts, rfl⟩ := map_eq_ok_iff.1 h
      have hsame : Fields.keys ts = Fields.keys fields := (Fields.keys_eq_of_forall₂ (ofFields?_eq_ok_iff.1 hts)).symm
      refine .node ⟨hsame ▸ hkeys, hsame ▸ ofKeys_eq_shape_iff.1 hshape⟩ fun t ht => ?_
      obtain ⟨g, hg, rfl⟩ := List.mem_map.1 ht
      obtain ⟨f, hf, -, hread⟩ := exists_mem_of_forall₂ (ofFields?_eq_ok_iff.1 hts).flip g hg
      exact ih f hf hread

/-! ### Every expressible tree is read -/

/-- A row is related to some row when every member is related to something. -/
theorem exists_forall₂ {α β : Type} {P : α → Prop} {R : α → β → Prop} {bs : List β}
    (h : ∀ b ∈ bs, ∃ a, P a ∧ R a b) : ∃ as, (∀ a ∈ as, P a) ∧ List.Forall₂ R as bs := by
  induction bs with
  | nil => exact ⟨[], by simp, .nil⟩
  | cons b bs ih =>
    obtain ⟨a, ha, hR⟩ := h b List.mem_cons_self
    obtain ⟨as, has, hRs⟩ := ih fun b hb => h b (List.mem_cons_of_mem _ hb)
    exact ⟨a :: as, List.forall_mem_cons.2 ⟨ha, has⟩, .cons hR hRs⟩

/-- Every bound that fits a word is read from some value, and so is the missing bound. -/
theorem exists_bound (n : Option Nat) (hn : ∀ m, n = some m → m < 2 ^ 64) :
    ∃ j : Json, j.KeysDistinct ∧ ∀ fields key, Fields.get? fields key = some j → bound? fields key = .ok n := by
  cases n with
  | none =>
    refine ⟨.null, .null, fun fields key hget => ?_⟩
    simp only [bound?, hget]
  | some m =>
    refine ⟨.natural m (hn m rfl), .number _, fun fields key hget => ?_⟩
    simp [bound?, hget, Json.natural, JsonNumber.natural?]

/-- Every expressible tree is what some JSON value stands for. -/
theorem Expressible.exists_ofJson? {t : Tree} (ht : t.Expressible) : ∃ j, j.KeysDistinct ∧ ofJson? j = .ok t := by
  induction ht with
  | token text => exact ⟨.string text, .string text, rfl⟩
  | null => exact ⟨.null, .null, rfl⟩
  | undefined => exact ⟨.object [("$undefined", .bool true)], .single (.bool true), by rfl⟩
  | @nominal cls hcls =>
    refine ⟨.object [("$instanceOf", .string cls.name)], .single (.string _), ?_⟩
    simp only [List.mem_cons, List.not_mem_nil, or_false] at hcls
    rcases hcls with rfl | rfl | rfl
    · rfl
    · rfl
    · rfl
  | bool b => exact ⟨.bool b, .bool b, rfl⟩
  | @number x hfinite => exact ⟨.number (.float x hfinite), .number _, rfl⟩
  | @node n hnode hparts ih =>
    cases n with
    | tuple items =>
      obtain ⟨js, hjs, hread⟩ := exists_forall₂ ih
      exact ⟨.array js, .array hjs, ofJson?_array_eq_ok_iff.2 ⟨items, hread, rfl⟩⟩
    | union alternatives =>
      obtain ⟨js, hjs, hread⟩ := exists_forall₂ ih
      refine ⟨.object [("$union", .array js)], .single (.array hjs), ?_⟩
      have hitems : ofItems? 0 js = .ok alternatives := ofItems?_eq_ok_iff.2 hread
      have hform : ObjectForm.ofKeys ["$union"] = .union := by decide
      simp [ofJson?, Fields.keys, hform, ofAlternatives?, hitems, Except.mapError, Except.map]
    | bounded element min max =>
      obtain ⟨hmin, hmax⟩ := hnode
      obtain ⟨j, hj, hread⟩ := ih element List.mem_cons_self
      obtain ⟨lower, hlower, hreadLower⟩ := exists_bound (some min) (by rintro _ ⟨⟩; exact hmin)
      obtain ⟨upper, hupper, hreadUpper⟩ := exists_bound max fun m hm => (hmax m hm).2
      have hform : ObjectForm.ofKeys ["$arrayOf", "$min", "$max"] = .arrayOf := by decide
      refine ⟨.object [("$arrayOf", j), ("$min", lower), ("$max", upper)], .object (by simp [Fields.keys]) ?_, ?_⟩
      · simp [hj, hlower, hupper]
      · have helement : ofField? "$arrayOf" [("$arrayOf", j), ("$min", lower), ("$max", upper)] = .ok element := by
          simp [ofField?, hread, Except.mapError]
        simp only [ofJson?, Fields.keys, List.map_cons, List.map_nil, hform, helement, Except.bind]
        exact arrayOf?_eq_ok_iff.2
          ⟨some min, max, hreadLower _ _ (by rfl), hreadUpper _ _ (by rfl), fun m hm => (hmax m hm).1, rfl⟩
    | shape fields =>
      obtain ⟨hkeys, hdirective⟩ := hnode
      have hfields : ∀ g ∈ fields, ∃ f : String × Json, f.2.KeysDistinct ∧ f.1 = g.1 ∧ ofJson? f.2 = .ok g.2 := by
        intro g hg
        obtain ⟨j, hj, hread⟩ := ih g.2 (List.mem_map_of_mem hg)
        exact ⟨(g.1, j), hj, rfl, hread⟩
      obtain ⟨fs, hfs, hread⟩ := exists_forall₂ hfields
      rw [← Fields.keys_eq_of_forall₂ hread] at hkeys hdirective
      refine ⟨.object fs, .object hkeys hfs, ?_⟩
      unfold ofJson?
      rw [ofKeys_eq_shape_iff.2 hdirective]
      exact map_eq_ok_iff.2 ⟨fields, ofFields?_eq_ok_iff.2 hread, rfl⟩

end Tree

/-- What JSON can express, in two parts.
1. A value that is read from a text repeats no key in any of its objects.
2. The trees that values without repeated keys stand for are exactly the expressible ones. -/
theorem image_of_json :
    (∀ text j following, Json.first? text = .ok (j, following) → j.KeysDistinct) ∧
      ∀ t : Tree, (∃ j : Json, j.KeysDistinct ∧ Tree.ofJson? j = .ok t) ↔ t.Expressible := by
  refine ⟨fun text j following hfirst => Json.keysDistinct_of_first? hfirst, fun t => ⟨?_, ?_⟩⟩
  · rintro ⟨j, hj, hread⟩
    exact Tree.expressible_of_ofJson? hj hread
  · intro ht
    exact ht.exists_ofJson?

/-- A bound without its array is a key of a shape; no value stands for a shape whose one key is the name of a directive. -/
theorem image_of_json_stray :
    Json.first? "\x7b\"$min\":null\x7d" = .ok (.object [("$min", .null)], none) ∧
      (Tree.node (.shape [("$min", .null)])).Expressible ∧
      ¬∃ j : Json, j.KeysDistinct ∧ Tree.ofJson? j = .ok (.node (.shape [("$optional", .null)])) := by
  obtain ⟨hdistinct, himage⟩ := image_of_json
  have hfirst : Json.first? "\x7b\"$min\":null\x7d" = .ok (.object [("$min", .null)], none) := by cbv
  refine ⟨hfirst, (himage _).1 ⟨_, hdistinct _ _ _ hfirst, by rfl⟩, ?_⟩
  rw [himage]
  intro hexpressible
  cases hexpressible with
  | node hnode hparts => exact hnode.2 (.single "$optional" (by simp) (by simp [Fields.keys]))

end Conform
