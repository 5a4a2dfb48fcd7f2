import Conform.Proofs.Conformance
import Conform.Proofs.Malformation
import Conform.Proofs.Planting

/-!
# The order of keys

Two JSON values may differ in nothing but the order of the keys of their objects, at any depth (`Json.Reordered`). What they stand
for then differs in nothing but the order of the fields of shapes (`Tree.Reordered`): the keys that mark a directive and the
entries of a directive are looked up by name. A definition accepts the same values whatever the order of its fields
(`conforms_iff_of_reordered`), so the order in which a definition is written in JSON is not observed (`key_order_irrelevant`).
-/

namespace Conform

/-- Whether two values differ in nothing but the order of the keys of objects, at any depth. -/
inductive Json.Reordered : Json → Json → Prop where
  | null : Reordered .null .null
  | bool (b : Bool) : Reordered (.bool b) (.bool b)
  | number (n : JsonNumber) : Reordered (.number n) (.number n)
  | string (text : String) : Reordered (.string text) (.string text)
  | array {items items' : List Json} (hitems : List.Forall₂ Reordered items items') : Reordered (.array items) (.array items')
  | object {fields fields' : List (String × Json)} (hkeys : (Fields.keys fields).Perm (Fields.keys fields'))
      (hentries : ∀ f ∈ fields, ∀ f' ∈ fields', f.1 = f'.1 → Reordered f.2 f'.2) : Reordered (.object fields) (.object fields')

/-- Whether two trees differ in nothing but the order of the fields of shapes, at any depth. -/
inductive Tree.Reordered : Tree → Tree → Prop where
  | token (text : String) : Reordered (.token text) (.token text)
  | null : Reordered .null .null
  | undefined : Reordered .undefined .undefined
  | nominal (cls : Class) : Reordered (.nominal cls) (.nominal cls)
  | other (v : Value) : Reordered (.other v) (.other v)
  | node {n n' : Node Tree} (hframe : n.frame = n'.frame) (hparts : List.Forall₂ Reordered n.children n'.children) :
      Reordered (.node n) (.node n')
  | shape {fields fields' : List (String × Tree)} (hkeys : (Fields.keys fields).Perm (Fields.keys fields'))
      (hentries : ∀ f ∈ fields, ∀ f' ∈ fields', f.1 = f'.1 → Reordered f.2 f'.2) :
      Reordered (.node (.shape fields)) (.node (.shape fields'))

/-! ### Rows with the same names -/

namespace Fields

variable {α β : Type} {fields : List (String × α)} {fields' : List (String × β)}

/-- Every entry of one row has an entry with its name in the other row. -/
theorem exists_mem_of_perm_keys (h : (keys fields).Perm (keys fields')) {f : String × α} (hf : f ∈ fields) :
    ∃ f' ∈ fields', f.1 = f'.1 := by
  obtain ⟨f', hf', hname⟩ := List.mem_map.1 (h.mem_iff.1 (List.mem_map_of_mem hf))
  exact ⟨f', hf', hname.symm⟩

/-- What holds of the entries of one row holds of those of the other row when it holds of both or neither under every name. -/
theorem forall_mem_iff_of_perm_keys (h : (keys fields).Perm (keys fields')) {P : String × α → Prop} {P' : String × β → Prop}
    (hsame : ∀ f ∈ fields, ∀ f' ∈ fields', f.1 = f'.1 → (P f ↔ P' f')) : (∀ f ∈ fields, P f) ↔ ∀ f' ∈ fields', P' f' := by
  constructor
  · intro hall f' hf'
    obtain ⟨f, hf, hname⟩ := exists_mem_of_perm_keys h.symm hf'
    exact (hsame f hf f' hf' hname.symm).1 (hall f hf)
  · intro hall f hf
    obtain ⟨f', hf', hname⟩ := exists_mem_of_perm_keys h hf
    exact (hsame f hf f' hf' hname).2 (hall f' hf')

end Fields

/-- The form of an object does not depend on the order of its keys. -/
theorem ObjectForm.ofKeys_eq_of_perm {keys keys' : List String} (h : keys.Perm keys') : ofKeys keys = ofKeys keys' := by
  have honly : ∀ (key : String) (others : List String),
      (keys.contains key && keys.all (key :: others).contains) = (keys'.contains key && keys'.all (key :: others).contains) := by
    intro key others
    rw [Bool.eq_iff_iff, holdsOnly_iff, holdsOnly_iff]
    simp only [HoldsOnly, h.mem_iff]
  simp only [ofKeys, honly]

/-! ### Reordering values -/

namespace Json

variable {j j' : Json} {fields fields' : List (String × Json)} {key : String}

theorem Reordered.symm (hj : j.KeysDistinct) (h : j.Reordered j') : j'.Reordered j := by
  induction hj generalizing j' with
  | null =>
    cases h
    exact .null
  | bool b =>
    cases h
    exact .bool b
  | number n =>
    cases h
    exact .number n
  | string text =>
    cases h
    exact .string text
  | array _ ih =>
    cases h with
    | array hitems => exact .array (((List.forall₂_and_left _ _).2 ⟨ih, hitems⟩).flip.imp fun _ _ hj => hj.1 hj.2)
  | object _ _ ih =>
    cases h with
    | object hkeys hentries =>
      exact .object hkeys.symm fun f' hf' f hf hname => ih f hf (hentries f hf f' hf' hname.symm)

/-- Another order repeats no key either. -/
theorem Reordered.keysDistinct (hj : j.KeysDistinct) (h : j.Reordered j') : j'.KeysDistinct := by
  induction hj generalizing j' with
  | array _ ih =>
    cases h with
    | array hitems =>
      refine .array fun k' hk' => ?_
      obtain ⟨k, hk, hR⟩ := exists_mem_of_forall₂ hitems.flip k' hk'
      exact ih k hk hR
  | object hnodup _ ih =>
    cases h with
    | object hkeys hentries =>
      refine .object (hkeys.nodup_iff.1 hnodup) fun f' hf' => ?_
      obtain ⟨f, hf, hname⟩ := Fields.exists_mem_of_perm_keys hkeys.symm hf'
      exact ih f hf (hentries f hf f' hf' hname.symm)
  | _ =>
    cases h
    constructor

/-- Names that lead to a part of a value lead to the part in another order. -/
theorem Reordered.leads (h : j.Reordered j') {names : List String} {k : Json} (hk : Pointer.Leads names j k) :
    ∃ k', Pointer.Leads names j' k' ∧ k.Reordered k' := by
  induction hk generalizing j' with
  | here j => exact ⟨j', .here j', h⟩
  | field hfield _ ih =>
    cases h with
    | object hkeys hentries =>
      rcases Fields.get?_of_perm_keys hkeys _ with ⟨hnone, _⟩ | ⟨a, b, ha, hb⟩
      · cases hnone.symm.trans hfield
      · cases ha.symm.trans hfield
        obtain ⟨k', hleads, hk'⟩ := ih (hentries _ (Fields.mem_of_get? ha) _ (Fields.mem_of_get? hb) rfl)
        exact ⟨k', .field hb hleads, hk'⟩
  | element hitem _ ih =>
    cases h with
    | array hitems =>
      obtain ⟨j', hitem', hj'⟩ := exists_getElem?_of_forall₂ hitems hitem
      obtain ⟨k', hleads, hk'⟩ := ih hj'
      exact ⟨k', .element hitem' hleads, hk'⟩

end Json

/-! ### Reading both -/

namespace Tree

variable {fields fields' : List (String × Json)}

section

variable (hkeys : (Fields.keys fields).Perm (Fields.keys fields'))
  (hentries : ∀ f ∈ fields, ∀ f' ∈ fields', f.1 = f'.1 → f.2.Reordered f'.2)

include hkeys hentries

/-- Under every key both objects hold reordered values, or neither holds any. -/
theorem get?_of_reordered (key : String) :
    (Fields.get? fields key = none ∧ Fields.get? fields' key = none) ∨
      ∃ j j', Fields.get? fields key = some j ∧ Fields.get? fields' key = some j' ∧ j.Reordered j' := by
  refine (Fields.get?_of_perm_keys hkeys key).imp_right ?_
  rintro ⟨j, j', hj, hj'⟩
  exact ⟨j, j', hj, hj', hentries _ (Fields.mem_of_get? hj) _ (Fields.mem_of_get? hj') rfl⟩

theorem bound?_eq_of_reordered (key : String) : bound? fields key = bound? fields' key := by
  rcases get?_of_reordered hkeys hentries key with ⟨hj, hj'⟩ | ⟨j, j', hj, hj', h⟩
  · simp only [bound?, hj, hj']
  · simp only [bound?, hj, hj']
    cases h <;> rfl

theorem undefined?_eq_of_reordered : undefined? fields = undefined? fields' := by
  rcases get?_of_reordered hkeys hentries "$undefined" with ⟨hj, hj'⟩ | ⟨j, j', hj, hj', h⟩
  · simp only [undefined?, hj, hj']
  · simp only [undefined?, hj, hj']
    cases h <;> rfl

theorem instanceOf?_eq_of_reordered : instanceOf? fields = instanceOf? fields' := by
  rcases get?_of_reordered hkeys hentries "$instanceOf" with ⟨hj, hj'⟩ | ⟨j, j', hj, hj', h⟩
  · simp only [instanceOf?, hj, hj']
  · simp only [instanceOf?, hj, hj']
    cases h <;> rfl

end

/-- The alternatives of a union directive are the items of a list. -/
theorem ofAlternatives?_eq_ok_iff {key : String} {j : Json} {ts : List Tree} :
    ofAlternatives? [(key, j)] = .ok ts ↔ (∃ items, j = .array items) ∧ ofJson? j = .ok (.node (.tuple ts)) := by
  cases j with
  | array items =>
    simp only [ofAlternatives?, mapError_eq_ok_iff, ofJson?, map_eq_ok_iff]
    simp
  | _ => simp [ofAlternatives?]

/-! ### Reading in another order -/

theorem Reordered.refl (t : Tree) : t.Reordered t := by
  induction t using Tree.induction with
  | token text => exact .token text
  | null => exact .null
  | undefined => exact .undefined
  | nominal cls => exact .nominal cls
  | other v => exact .other v
  | node n ih => exact .node rfl (List.forall₂_same.2 ih)

theorem Reordered.optional {t t' : Tree} (h : t.Reordered t') : t.optional.Reordered t'.optional :=
  .node rfl (.cons .null (.cons .undefined (.cons h .nil)))

theorem Reordered.tuple {ts ts' : List Tree} (h : List.Forall₂ Reordered ts ts') :
    (Tree.node (.tuple ts)).Reordered (.node (.tuple ts')) :=
  .node (by simp [Node.frame, Node.map, List.map_const', h.length_eq]) h

theorem Reordered.union {ts ts' : List Tree} (h : List.Forall₂ Reordered ts ts') :
    (Tree.node (.union ts)).Reordered (.node (.union ts')) :=
  .node (by simp [Node.frame, Node.map, List.map_const', h.length_eq]) h

/-- Whatever definition one value is read as, another value is read as that definition up to the order of fields. -/
def ReadAlike (j j' : Json) : Prop := ∀ t, ofJson? j = .ok t → ∃ t', ofJson? j' = .ok t' ∧ t.Reordered t'

/-- The items of a list are read when those of another list are, one by one. -/
theorem exists_reordered_of_items {items items' : List Json} {ts : List Tree}
    (hread : List.Forall₂ (fun j t => ofJson? j = .ok t) items ts) (h : List.Forall₂ ReadAlike items items') :
    ∃ ts', List.Forall₂ (fun j t => ofJson? j = .ok t) items' ts' ∧ List.Forall₂ Reordered ts ts' := by
  induction hread generalizing items' with
  | nil =>
    cases h
    exact ⟨[], .nil, .nil⟩
  | cons ht _ ih =>
    cases h with
    | cons hfirst hrest =>
      obtain ⟨t', ht', hR⟩ := hfirst _ ht
      obtain ⟨ts', hts', hRs⟩ := ih hrest
      exact ⟨t' :: ts', .cons ht' hts', .cons hR hRs⟩

theorem readAlike_array {items items' : List Json} (h : List.Forall₂ ReadAlike items items') :
    ReadAlike (.array items) (.array items') := by
  intro t ht
  obtain ⟨ts, hts, rfl⟩ := ofJson?_array_eq_ok_iff.1 ht
  obtain ⟨ts', hts', hRs⟩ := exists_reordered_of_items hts h
  exact ⟨_, ofJson?_array_eq_ok_iff.2 ⟨ts', hts', rfl⟩, .tuple hRs⟩

section

variable (hkeys : (Fields.keys fields).Perm (Fields.keys fields'))
  (hread : ∀ f ∈ fields, ∀ f' ∈ fields', f.1 = f'.1 → ReadAlike f.2 f'.2)

include hkeys hread

/-- The definition under a key is read when it is read under the key in another order. -/
theorem exists_reordered_of_ofField? {key : String} {t : Tree} (hkey : key ∈ Fields.keys fields)
    (ht : ofField? key fields = .ok t) : ∃ t', ofField? key fields' = .ok t' ∧ t.Reordered t' := by
  obtain ⟨j, hget⟩ := Fields.exists_get?_of_mem_keys hkey
  obtain ⟨j', hget'⟩ := Fields.exists_get?_of_mem_keys (hkeys.mem_iff.1 hkey)
  rw [ofField?_eq hget, mapError_eq_ok_iff] at ht
  obtain ⟨t', ht', hR⟩ := hread _ (Fields.mem_of_get? hget) _ (Fields.mem_of_get? hget') rfl t ht
  exact ⟨t', by rw [ofField?_eq hget', mapError_eq_ok_iff, ht'], hR⟩

/-- The fields of a shape are read when they are read in another order. -/
theorem exists_reordered_of_ofFields? {ts : List (String × Tree)} (hts : ofFields? fields = .ok ts) :
    ∃ ts', ofFields? fields' = .ok ts' ∧ (Tree.node (.shape ts)).Reordered (.node (.shape ts')) := by
  have hrow := ofFields?_eq_ok_iff.1 hts
  have heach : ∀ f' ∈ fields', ∃ g' : String × Tree, True ∧ f'.1 = g'.1 ∧ ofJson? f'.2 = .ok g'.2 := by
    intro f' hf'
    obtain ⟨f, hf, hname⟩ := Fields.exists_mem_of_perm_keys hkeys.symm hf'
    obtain ⟨g, _, _, ht⟩ := exists_mem_of_forall₂ hrow f hf
    obtain ⟨t', ht', _⟩ := hread f hf f' hf' hname.symm g.2 ht
    exact ⟨(f'.1, t'), trivial, rfl, ht'⟩
  obtain ⟨ts', _, hrow'⟩ := exists_forall₂ heach
  refine ⟨ts', ofFields?_eq_ok_iff.2 hrow'.flip, .shape ?_ fun g hg g' hg' hname => ?_⟩
  · rw [← Fields.keys_eq_of_forall₂ hrow, ← Fields.keys_eq_of_forall₂ hrow'.flip]
    exact hkeys
  · obtain ⟨f, hf, hfirst, ht⟩ := exists_mem_of_forall₂ hrow.flip g hg
    obtain ⟨f', hf', hsecond, ht'⟩ := exists_mem_of_forall₂ hrow' g' hg'
    obtain ⟨u, hu, hR⟩ := hread f hf f' hf' (hfirst.trans (hname.trans hsecond.symm)) g.2 ht
    cases ht'.symm.trans hu
    exact hR

/-- The alternatives of a union directive, which holds nothing else, are read when they are read in another order. -/
theorem exists_reordered_of_ofAlternatives? (hnodup : (Fields.keys fields).Nodup)
    (hmarked : ObjectForm.union.Marked (Fields.keys fields))
    (hentries : ∀ f ∈ fields, ∀ f' ∈ fields', f.1 = f'.1 → f.2.Reordered f'.2) {ts : List Tree}
    (hts : ofAlternatives? fields = .ok ts) :
    ∃ ts', ofAlternatives? fields' = .ok ts' ∧ (Tree.node (.union ts)).Reordered (.node (.union ts')) := by
  have hmarked' : ObjectForm.union.Marked (Fields.keys fields') :=
    ⟨hkeys.mem_iff.1 hmarked.1, fun key hkey => hmarked.2 key (hkeys.mem_iff.2 hkey)⟩
  obtain ⟨j', rfl⟩ := eq_singleton_of_holdsOnly (hkeys.nodup_iff.1 hnodup) hmarked'
  obtain ⟨j, rfl⟩ := eq_singleton_of_holdsOnly hnodup hmarked
  obtain ⟨⟨items, rfl⟩, htuple⟩ := ofAlternatives?_eq_ok_iff.1 hts
  obtain ⟨t', ht', htree⟩ := hread _ List.mem_cons_self _ List.mem_cons_self rfl _ htuple
  cases hentries _ List.mem_cons_self _ List.mem_cons_self rfl with
  | array hitems =>
    obtain ⟨ts', _, rfl⟩ := ofJson?_array_eq_ok_iff.1 ht'
    cases htree with
    | node _ hparts => exact ⟨ts', ofAlternatives?_eq_ok_iff.2 ⟨⟨_, rfl⟩, ht'⟩, .union hparts⟩

end

/-- An object is read when it is read in another order, if the values under its keys are. -/
theorem readAlike_object (hnodup : (Fields.keys fields).Nodup) (hkeys : (Fields.keys fields).Perm (Fields.keys fields'))
    (hentries : ∀ f ∈ fields, ∀ f' ∈ fields', f.1 = f'.1 → f.2.Reordered f'.2)
    (hread : ∀ f ∈ fields, ∀ f' ∈ fields', f.1 = f'.1 → ReadAlike f.2 f'.2) : ReadAlike (.object fields) (.object fields') := by
  intro t ht
  have hmarked := ObjectForm.marked_ofKeys (Fields.keys fields)
  simp only [ofJson?, ← ObjectForm.ofKeys_eq_of_perm hkeys] at ht ⊢
  cases hform : ObjectForm.ofKeys (Fields.keys fields) with
  | undefined =>
    simp only [hform] at ht ⊢
    exact ⟨t, (undefined?_eq_of_reordered hkeys hentries).symm.trans ht, .refl t⟩
  | union =>
    rw [hform] at hmarked
    simp only [hform] at ht ⊢
    obtain ⟨ts, hts, rfl⟩ := map_eq_ok_iff.1 ht
    obtain ⟨ts', hts', hR⟩ := exists_reordered_of_ofAlternatives? hkeys hread hnodup hmarked hentries hts
    exact ⟨_, map_eq_ok_iff.2 ⟨ts', hts', rfl⟩, hR⟩
  | optional =>
    rw [hform] at hmarked
    simp only [hform] at ht ⊢
    obtain ⟨u, hu, rfl⟩ := map_eq_ok_iff.1 ht
    obtain ⟨u', hu', hR⟩ := exists_reordered_of_ofField? hkeys hread hmarked.1 hu
    exact ⟨_, map_eq_ok_iff.2 ⟨u', hu', rfl⟩, hR.optional⟩
  | arrayOf =>
    rw [hform] at hmarked
    simp only [hform] at ht ⊢
    obtain ⟨u, hu, hbounded⟩ := bind_eq_ok_iff.1 ht
    obtain ⟨u', hu', hR⟩ := exists_reordered_of_ofField? hkeys hread hmarked.1 hu
    obtain ⟨lower, max, hlower, hmax, hroom, rfl⟩ := arrayOf?_eq_ok_iff.1 hbounded
    rw [bound?_eq_of_reordered hkeys hentries] at hlower hmax
    have hbounded' : arrayOf? fields' u' = .ok (.node (.bounded u' (lower.getD 0) max)) :=
      arrayOf?_eq_ok_iff.2 ⟨lower, max, hlower, hmax, hroom, rfl⟩
    exact ⟨_, bind_eq_ok_iff.2 ⟨u', hu', hbounded'⟩, .node rfl (.cons hR .nil)⟩
  | instanceOf =>
    simp only [hform] at ht ⊢
    exact ⟨t, (instanceOf?_eq_of_reordered hkeys hentries).symm.trans ht, .refl t⟩
  | shape =>
    simp only [hform] at ht ⊢
    obtain ⟨ts, hts, rfl⟩ := map_eq_ok_iff.1 ht
    obtain ⟨ts', hts', hR⟩ := exists_reordered_of_ofFields? hkeys hread hts
    exact ⟨_, map_eq_ok_iff.2 ⟨ts', hts', rfl⟩, hR⟩

/-- Without repeated keys, values in another order are read alike. -/
theorem readAlike_of_reordered {j j' : Json} (hj : j.KeysDistinct) (h : j.Reordered j') : ReadAlike j j' := by
  induction hj generalizing j' with
  | array _ ih =>
    cases h with
    | array hitems => exact readAlike_array (((List.forall₂_and_left _ _).2 ⟨ih, hitems⟩).imp fun _ _ hj => hj.1 hj.2)
  | object hnodup _ ih =>
    cases h with
    | object hkeys hentries =>
      exact readAlike_object hnodup hkeys hentries fun f hf f' hf' hname => ih f hf (hentries f hf f' hf' hname)
  | _ =>
    cases h
    exact fun t ht => ⟨t, ht, .refl t⟩

end Tree

/-! ### Judging by both -/

/-- The answers that are right to inquiries that correspond are the same when those to related questions are. -/
theorem Inquiry.holds_iff_of_matches {κ ι : Type} {R : κ → ι → Prop} {q : Inquiry κ} {q' : Inquiry ι} {P : κ → Prop} {P' : ι → Prop}
    (hq : q.Matches R q') (h : ∀ k k', R k k' → (P k ↔ P' k')) : q.Holds P ↔ q'.Holds P' := by
  obtain ⟨decisive, questions⟩ := q
  obtain ⟨decisive', questions'⟩ := q'
  obtain ⟨hdecisive, hquestions⟩ := hq
  simp only at hdecisive hquestions
  subst hdecisive
  induction hquestions with
  | nil => simp [Holds]
  | cons hk _ ih =>
    cases decisive with
    | false =>
      simp only [Holds, Bool.false_eq_true, if_false, List.forall_mem_cons] at ih ⊢
      exact and_congr (h _ _ hk) ih
    | true =>
      simp only [Holds, if_true, List.mem_cons, exists_eq_or_imp] at ih ⊢
      exact or_congr (h _ _ hk) ih

/-- A definition that unfolds to a shape is a shape with the same names, whose fields unfold one by one. -/
theorem Store.Unfolds.exists_shape {s : Store} {d : Definition} {fields : List (String × Tree)}
    (h : s.Unfolds d (.node (.shape fields))) : ∃ ref parts, d = .node ref ∧ s.node ref = .shape parts ∧
      Fields.keys parts = Fields.keys fields ∧ List.Forall₂ (fun f g => f.1 = g.1 ∧ s.Unfolds f.2 g.2) parts fields := by
  cases h with
  | @node ref _ hframe hparts =>
    cases hn : s.node ref with
    | shape parts =>
      simp only [hn, Node.frame, Node.map, Node.shape.injEq] at hframe
      have hnames := congrArg (List.map Prod.fst) hframe
      rw [List.map_map, List.map_map] at hnames
      rw [hn] at hparts
      exact ⟨ref, parts, rfl, hn, hnames, forall₂_fields hframe hparts⟩
    | _ => simp [hn, Node.frame, Node.map] at hframe

/-- The order of fields does not change what is accepted. The induction is on the tree that one of the definitions unfolds to. -/
theorem conforms_iff_of_reordered {heap : Heap} {s s' : Store} {d d' : Definition} {t t' : Tree} (h : t.Reordered t')
    (ht : s.Unfolds d t) (ht' : s'.Unfolds d' t') (v : Value) : Conforms heap s v d ↔ Conforms heap s' v d' := by
  induction t using Tree.induction generalizing d d' t' v with
  | node n ih =>
    cases h with
    | @node _ n' hframe hparts =>
      cases ht with
      | @node ref _ hunfolds hchildren =>
        cases ht' with
        | @node ref' _ hunfolds' hchildren' =>
          have hsame : (s.node ref).frame = (s'.node ref').frame := hunfolds.trans (hframe.trans hunfolds'.symm)
          -- The parts of both nodes unfold to trees that are parts of the two trees, one by one.
          have hright : List.Forall₂ (fun d' t => ∃ t', s'.Unfolds d' t' ∧ t ∈ n.children ∧ t.Reordered t')
              (s'.node ref').children n.children :=
            Store.forall₂_of_forall₂_right hchildren' ((List.forall₂_and_left _ _).2 ⟨fun t ht => ht, hparts⟩)
          have hrows := Store.forall₂_of_forall₂_right hchildren hright
          rw [conforms_node_iff, conforms_node_iff]
          refine Inquiry.holds_iff_of_matches (Node.matches_inquiry_of_frame_eq hsame hrows heap v) ?_
          rintro ⟨w, e⟩ ⟨_, e'⟩ ⟨rfl, t, ht, t', ht', hmem, hR⟩
          exact ih t hmem hR ht ht' w
    | @shape fields fields' hkeys hentries =>
      obtain ⟨ref, parts, rfl, hn, hnames, hrow⟩ := ht.exists_shape
      obtain ⟨ref', parts', rfl, hn', hnames', hrow'⟩ := ht'.exists_shape
      have hperm : (Fields.keys parts).Perm (Fields.keys parts') := by
        rw [hnames, hnames']
        exact hkeys
      rw [conforms_shape_iff hn, conforms_shape_iff hn']
      refine and_congr_right fun _ => Fields.forall_mem_iff_of_perm_keys hperm fun f hf f' hf' hname => ?_
      obtain ⟨g, hg, hfirst, hunfolds⟩ := exists_mem_of_forall₂ hrow f hf
      obtain ⟨g', hg', hsecond, hunfolds'⟩ := exists_mem_of_forall₂ hrow' f' hf'
      have hR : g.2.Reordered g'.2 := hentries g hg g' hg' (hfirst.symm.trans (hname.trans hsecond))
      rw [hname]
      exact ih g.2 (List.mem_map_of_mem hg) hR hunfolds hunfolds' _
  | other w =>
    cases h
    cases ht
    cases ht'
    exact ⟨nofun, nofun⟩
  | _ =>
    cases h
    cases ht
    cases ht'
    exact ⟨fun h => h.of_leaf nofun, fun h => h.of_leaf nofun⟩

/-! ### Definitions written in another order -/

/-- Wherever one value holds an object, another value holds an object of the same form with the same bounds. -/
def Json.DirectivesIn (j j' : Json) : Prop := ∀ names fields, Pointer.Leads names j (.object fields) →
  ∃ fields', Pointer.Leads names j' (.object fields') ∧
    ObjectForm.ofKeys (Fields.keys fields) = ObjectForm.ofKeys (Fields.keys fields') ∧
    ∀ key, Tree.bound? fields key = Tree.bound? fields' key

theorem Json.Reordered.directivesIn {j j' : Json} (h : j.Reordered j') : j.DirectivesIn j' := by
  intro names fields hleads
  obtain ⟨k', hleads', hk'⟩ := h.leads hleads
  cases hk' with
  | object hkeys hentries =>
    exact ⟨_, hleads', ObjectForm.ofKeys_eq_of_perm hkeys, Tree.bound?_eq_of_reordered hkeys hentries⟩

/-- The order in which keys are written is not observed, in three parts. The two values differ in nothing but the order of keys.
1. Their objects mark the same directives with the same bounds.
2. Both are read as definitions, or neither is.
3. When they are read, the definitions differ in nothing but the order of the fields of shapes, and wherever they are planted, runs
   without a limit answer the same for every value. -/
theorem key_order_irrelevant (j j' : Json) (hj : j.KeysDistinct) (h : j.Reordered j') :
    (j.DirectivesIn j' ∧ j'.DirectivesIn j) ∧
      ((∃ t, Tree.ofJson? j = .ok t) ↔ ∃ t', Tree.ofJson? j' = .ok t') ∧
      ∀ t t', Tree.ofJson? j = .ok t → Tree.ofJson? j' = .ok t' → t.Reordered t' ∧
        ∀ (heap : Heap) (s s' : Store) (v : Value), ∃ b,
          (Validator.validate ⟨heap, (s.plant t).1, none⟩ v (s.plant t).2).result = .ok b ∧
          (Validator.validate ⟨heap, (s'.plant t').1, none⟩ v (s'.plant t').2).result = .ok b := by
  have hj' : j'.KeysDistinct := h.keysDistinct hj
  have hback : j'.Reordered j := h.symm hj
  refine ⟨⟨h.directivesIn, hback.directivesIn⟩, ⟨?_, ?_⟩, fun t t' ht ht' => ?_⟩
  · rintro ⟨t, ht⟩
    obtain ⟨t', ht', _⟩ := Tree.readAlike_of_reordered hj h t ht
    exact ⟨t', ht'⟩
  · rintro ⟨t', ht'⟩
    obtain ⟨t, ht, _⟩ := Tree.readAlike_of_reordered hj' hback t' ht'
    exact ⟨t, ht⟩
  · obtain ⟨u, hu, hR⟩ := Tree.readAlike_of_reordered hj h t ht
    cases ht'.symm.trans hu
    refine ⟨hR, fun heap s s' v => ?_⟩
    have hunfolds := Store.unfolds_plant (Tree.expressible_of_ofJson? hj ht) s
    have hunfolds' := Store.unfolds_plant (Tree.expressible_of_ofJson? hj' ht') s'
    have hacyclic := Store.acyclicFrom_iff_exists_unfolds.2 ⟨t, hunfolds⟩
    have hacyclic' := Store.acyclicFrom_iff_exists_unfolds.2 ⟨t', hunfolds'⟩
    obtain ⟨b, hb⟩ := Validator.exists_ok_of_acyclicFrom ⟨heap, (s.plant t).1, none⟩ v rfl hacyclic
    obtain ⟨b', hb'⟩ := Validator.exists_ok_of_acyclicFrom ⟨heap, (s'.plant t').1, none⟩ v rfl hacyclic'
    have hconforms := Validator.ok_iff_conforms _ (.root v _) hb
    have hconforms' := Validator.ok_iff_conforms _ (.root v _) hb'
    have hsame : Conforms heap _ v _ ↔ Conforms heap _ v _ := conforms_iff_of_reordered hR hunfolds hunfolds' v
    have hb_eq : b = b' := Bool.eq_iff_iff.2 ((hconforms.trans hsame).trans hconforms'.symm)
    exact ⟨b, hb, hb_eq ▸ hb'⟩

/-! ### An owner of pets -/

namespace Pets

/-- A pet with its name first. -/
def pet : Json := .object [("name", .string "string"), ("age", .string "number?")]

/-- A pet with its age first. -/
def petByAge : Json := .object [("age", .string "number?"), ("name", .string "string")]

/-- One pet to three. -/
def list : Json := .object [("$arrayOf", pet), ("$min", .natural 1 (by decide)), ("$max", .natural 3 (by decide))]

/-- One pet to three, the upper bound first and the pet last. -/
def listByMax : Json := .object [("$max", .natural 3 (by decide)), ("$min", .natural 1 (by decide)), ("$arrayOf", petByAge)]

/-- The pets of an owner. -/
def owned : Json := .object [("pets", list), ("owner", .string "string")]

/-- The owner of pets. -/
def owner : Json := .object [("owner", .string "string"), ("pets", listByMax)]

/-- What the pets of an owner are read as. -/
def tree : Tree := .node (.shape
  [("pets", .node (.bounded (.node (.shape [("name", .token "string"), ("age", .token "number?")])) 1 (some 3))),
    ("owner", .token "string")])

/-- What the owner of pets is read as. -/
def treeByOwner : Tree := .node (.shape
  [("owner", .token "string"),
    ("pets", .node (.bounded (.node (.shape [("age", .token "number?"), ("name", .token "string")])) 1 (some 3)))])

/-- The pets of an owner, planted. -/
def store : Store :=
  ⟨#[.shape [("name", .token "string"), ("age", .token "number?")], .bounded (.node ⟨.shape, 0⟩) 1 (some 3),
    .shape [("pets", .node ⟨.bounded, 1⟩), ("owner", .token "string")]]⟩

/-- The owner of pets, planted. -/
def storeByOwner : Store :=
  ⟨#[.shape [("age", .token "number?"), ("name", .token "string")], .bounded (.node ⟨.shape, 0⟩) 1 (some 3),
    .shape [("owner", .token "string"), ("pets", .node ⟨.bounded, 1⟩)]]⟩

/-- The shape of the owner, which is planted last. -/
def root : Definition := .node ⟨.shape, 2⟩

theorem keysDistinct : owned.KeysDistinct := by
  have hpet : pet.KeysDistinct := .object (by decide) (by simp [Json.KeysDistinct.string])
  have hlist : list.KeysDistinct := .object (by decide) (by simp [hpet, Json.natural, Json.KeysDistinct.number])
  exact .object (by decide) (by simp [hlist, Json.KeysDistinct.string])

theorem reordered : owned.Reordered owner := by
  have hpet : pet.Reordered petByAge := .object (by decide) (by simp [Json.Reordered.string])
  have hlist : list.Reordered listByMax := .object (by decide) (by simp [hpet, Json.natural, Json.Reordered.number])
  exact .object (by decide) (by simp [hlist, Json.Reordered.string])

end Pets

/-- Both ways of writing are read, as definitions with the fields in different orders, and every value is answered the same. -/
theorem key_order_irrelevant_pets :
    Pets.tree.Reordered Pets.treeByOwner ∧ Pets.owned.DirectivesIn Pets.owner ∧ (∃ t', Tree.ofJson? Pets.owner = .ok t') ∧
      ∀ (heap : Heap) (v : Value), ∃ b, (Validator.validate ⟨heap, Pets.store, none⟩ v Pets.root).result = .ok b ∧
        (Validator.validate ⟨heap, Pets.storeByOwner, none⟩ v Pets.root).result = .ok b := by
  have hread : Tree.ofJson? Pets.owned = .ok Pets.tree := by rfl
  have hread' : Tree.ofJson? Pets.owner = .ok Pets.treeByOwner := by rfl
  have hplant : Store.empty.plant Pets.tree = (Pets.store, Pets.root) := by rfl
  have hplant' : Store.empty.plant Pets.treeByOwner = (Pets.storeByOwner, Pets.root) := by rfl
  obtain ⟨⟨hdirectives, _⟩, hboth, hsame⟩ := key_order_irrelevant Pets.owned Pets.owner Pets.keysDistinct Pets.reordered
  obtain ⟨hreordered, hanswers⟩ := hsame _ _ hread hread'
  refine ⟨hreordered, hdirectives, hboth.1 ⟨_, hread⟩, fun heap v => ?_⟩
  have hanswer := hanswers heap .empty .empty v
  rwa [hplant, hplant'] at hanswer

end Conform
