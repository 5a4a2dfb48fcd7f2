import Conform.Proofs.Conformance

/-!
# The order of classes

A class is below the classes on its chain, which are a tail of the chain of every class below it (`Class.mem_chain_iff`), so being
below is an order in which the superclasses of a class stand in a row. The judge compares serial numbers instead of classes. In a
registry that a sequence of creations leads to (`Registry.Created`) that comes to the same: every class has a serial number of its
own and is younger than the class it extends (`Registry.Orderly`). So the search through the superclasses ends, decides an order
with the root at the top, and takes no notice of names (`subclass_order`).
-/

namespace Conform

namespace Class

/-- The class that a class extends. The root extends none. -/
def parent? : Class → Option Class
  | .object => none
  | .extending _ _ parent => some parent

/-- The search for a class among another one and its superclasses, one class after the other, which may look at no more than the
given number of classes. It gives nothing when these are not enough. -/
def search? (d : Class) : Nat → Option Class → Option Bool
  | _, none => some false
  | 0, some _ => none
  | n + 1, some c => if c.same d then some true else search? d n c.parent?

/-! ### Chains -/

theorem mem_chain_self (c : Class) : c ∈ c.chain := by
  cases c with
  | object => exact List.mem_singleton_self _
  | extending => exact List.mem_cons_self

/-- A class is on the chain of another one when its own chain is the end of that chain. -/
theorem mem_chain_iff {c d : Class} : d ∈ c.chain ↔ d.chain <:+ c.chain := by
  constructor
  · intro h
    induction c with
    | object => exact List.mem_singleton.1 h ▸ List.suffix_rfl
    | extending serial name parent ih =>
      rcases List.mem_cons.1 h with rfl | h
      · exact List.suffix_rfl
      · exact (ih h).trans (List.suffix_cons _ _)
  · intro h
    exact h.subset d.mem_chain_self

/-- Classes with the same chain are the same. -/
theorem eq_of_chain_eq {c d : Class} (h : c.chain = d.chain) : c = d := by
  have hhead : ∀ e : Class, e.chain.head? = some e := by
    intro e
    cases e <;> rfl
  have hheads := congrArg List.head? h
  rw [hhead, hhead] at hheads
  exact Option.some.inj hheads

/-- The root is on every chain. -/
theorem object_mem_chain (c : Class) : .object ∈ c.chain := by
  induction c with
  | object => exact List.mem_singleton_self _
  | extending serial name parent ih => exact List.mem_cons_of_mem _ ih

/-- The search ends when it may look at all classes of the chain, and decides whether the class is among them. -/
theorem search?_eq {c d : Class} {n : Nat} (h : c.chain.length ≤ n) : search? d n (some c) = some (c.isSubclassOf d) := by
  induction c generalizing n with
  | object =>
    obtain ⟨n, rfl⟩ : ∃ m, n = m + 1 := ⟨n - 1, by simp only [chain, List.length_singleton] at h; omega⟩
    cases hsame : Class.object.same d <;> simp [search?, isSubclassOf, chain, parent?, hsame]
  | extending serial name parent ih =>
    obtain ⟨n, rfl⟩ : ∃ m, n = m + 1 := ⟨n - 1, by simp only [chain, List.length_cons] at h; omega⟩
    have hrest : search? d n (some parent) = some (parent.isSubclassOf d) :=
      ih (by simpa only [chain, List.length_cons, Nat.add_le_add_iff_right] using h)
    cases hsame : (Class.extending serial name parent).same d
    · simp only [search?, hsame, parent?, hrest]
      simp [isSubclassOf, chain, hsame]
    · simp [search?, isSubclassOf, chain, hsame]

/-- Of the superclasses only the serial numbers count. -/
theorem isSubclassOf_eq_contains (c d : Class) : c.isSubclassOf d = (c.chain.map serial).contains d.serial := by
  rw [isSubclassOf, List.contains_eq_any_beq, List.any_map]
  refine List.any_congr rfl fun a => ?_
  exact Bool.beq_comm ..

end Class

/-! ### Sequences of creations -/

namespace Registry

/-- Whether a registry is what creations lead to, one after the other, from the builtin classes: every class is created under one
that is there, with any name. A class of its own is created under the root. -/
inductive Created : Registry → Prop where
  | builtin : Created builtin
  | extend {r : Registry} {parent : Class} (h : Created r) (name : String) (hparent : parent ∈ r.created) :
      Created (r.extend name parent).1

/-- Two registries that the same creations lead to, but for the names that are given to the classes. -/
inductive Renamed : Registry → Registry → Prop where
  | builtin : Renamed builtin builtin
  | extend {r r' : Registry} {parent parent' : Class} (h : Renamed r r') (name name' : String) (hparent : parent ∈ r.created)
      (hparent' : parent' ∈ r'.created) (hsame : parent.same parent' = true) :
      Renamed (r.extend name parent).1 (r'.extend name' parent').1

/-- The classes of a registry are numbered in the order of their creation, and the class that a class extends is an older one of
the registry. -/
structure Orderly (r : Registry) : Prop where
  serials : r.created.map Class.serial = (List.range r.created.length).reverse
  object_mem : .object ∈ r.created
  older : ∀ c ∈ r.created, ∀ parent, c.parent? = some parent → parent ∈ r.created ∧ parent.serial < c.serial

namespace Orderly

variable {r : Registry} {c d : Class}

/-- The serial number of a class is smaller than the number of classes. -/
theorem serial_lt (h : r.Orderly) (hc : c ∈ r.created) : c.serial < r.created.length := by
  have hmem := List.mem_map_of_mem (f := Class.serial) hc
  rw [h.serials, List.mem_reverse, List.mem_range] at hmem
  exact hmem

/-- No two classes have the same serial number. -/
theorem eq_of_serial_eq (h : r.Orderly) (hc : c ∈ r.created) (hd : d ∈ r.created) (heq : c.serial = d.serial) : c = d := by
  have hnodup : (r.created.map Class.serial).Nodup := h.serials ▸ List.nodup_reverse.2 List.nodup_range
  exact List.inj_on_of_nodup_map hnodup hc hd heq

/-- The superclasses of a class of the registry are classes of the registry. -/
theorem mem_of_mem_chain (h : r.Orderly) (hc : c ∈ r.created) (hd : d ∈ c.chain) : d ∈ r.created := by
  induction c with
  | object => exact List.mem_singleton.1 hd ▸ hc
  | extending serial name parent ih =>
    rcases List.mem_cons.1 hd with rfl | hd
    · exact hc
    · exact ih (h.older _ hc parent rfl).1 hd

/-- A class has no more superclasses than there are older classes. -/
theorem length_chain_le (h : r.Orderly) (hc : c ∈ r.created) : c.chain.length ≤ c.serial + 1 := by
  induction c with
  | object => exact Nat.le_refl 1
  | extending serial name parent ih =>
    obtain ⟨hparent, holder⟩ := h.older _ hc parent rfl
    have hlength := ih hparent
    simp only [Class.chain, List.length_cons]
    omega

/-- In a registry being a subclass is having the class on the chain. -/
theorem isSubclassOf_iff (h : r.Orderly) (hc : c ∈ r.created) (hd : d ∈ r.created) :
    c.isSubclassOf d = true ↔ d.chain <:+ c.chain := by
  rw [← Class.mem_chain_iff]
  simp only [Class.isSubclassOf, List.any_eq_true, Class.same, beq_iff_eq]
  constructor
  · rintro ⟨a, ha, heq⟩
    exact h.eq_of_serial_eq (h.mem_of_mem_chain hc ha) hd heq ▸ ha
  · intro hmem
    exact ⟨d, hmem, rfl⟩

/-! The chain of a class holds the chains of its superclasses as its ends. What makes ends an order makes being a subclass one. -/

theorem isSubclassOf_trans {e : Class} (h : r.Orderly) (hc : c ∈ r.created) (hd : d ∈ r.created) (he : e ∈ r.created)
    (hcd : c.isSubclassOf d = true) (hde : d.isSubclassOf e = true) : c.isSubclassOf e = true := by
  rw [h.isSubclassOf_iff hc hd] at hcd
  rw [h.isSubclassOf_iff hd he] at hde
  exact (h.isSubclassOf_iff hc he).2 (hde.trans hcd)

theorem isSubclassOf_antisymm (h : r.Orderly) (hc : c ∈ r.created) (hd : d ∈ r.created) (hcd : c.isSubclassOf d = true)
    (hdc : d.isSubclassOf c = true) : c = d := by
  rw [h.isSubclassOf_iff hc hd] at hcd
  rw [h.isSubclassOf_iff hd hc] at hdc
  have hchains : c.chain = d.chain := hdc.eq_of_length (Nat.le_antisymm hdc.length_le hcd.length_le)
  exact Class.eq_of_chain_eq hchains

theorem isSubclassOf_object (h : r.Orderly) (hc : c ∈ r.created) : c.isSubclassOf .object = true :=
  (h.isSubclassOf_iff hc h.object_mem).2 (Class.mem_chain_iff.1 c.object_mem_chain)

/-- The builtin classes are numbered. -/
theorem builtin : Registry.builtin.Orderly where
  serials := rfl
  object_mem := by simp [Registry.builtin]
  older c hc parent hparent := by
    simp only [Registry.builtin, List.mem_cons, List.not_mem_nil, or_false] at hc
    rcases hc with rfl | rfl | rfl
    · cases hparent
      exact ⟨by simp [Registry.builtin], Nat.succ_pos 1⟩
    · cases hparent
      exact ⟨by simp [Registry.builtin], Nat.succ_pos 0⟩
    · cases hparent

/-- Creating a class keeps the numbers: the new class is the youngest one. -/
theorem extend {parent : Class} (h : r.Orderly) (name : String) (hparent : parent ∈ r.created) :
    (r.extend name parent).1.Orderly where
  serials := by
    simp only [Registry.extend, List.map_cons, List.length_cons, List.range_succ, List.reverse_append, List.reverse_singleton,
      List.singleton_append, h.serials]
    rfl
  object_mem := List.mem_cons_of_mem _ h.object_mem
  older c hc p hp := by
    rcases List.mem_cons.1 hc with rfl | hc
    · cases hp
      exact ⟨List.mem_cons_of_mem _ hparent, h.serial_lt hparent⟩
    · obtain ⟨hmem, hlt⟩ := h.older c hc p hp
      exact ⟨List.mem_cons_of_mem _ hmem, hlt⟩

end Orderly

/-- Whatever is created, the classes stay numbered. -/
theorem Created.orderly {r : Registry} (h : r.Created) : r.Orderly := by
  induction h with
  | builtin => exact .builtin
  | extend _ name hparent ih => exact ih.extend name hparent

namespace Renamed

variable {r r' : Registry}

theorem orderly (h : r.Renamed r') : r.Orderly ∧ r'.Orderly := by
  induction h with
  | builtin => exact ⟨.builtin, .builtin⟩
  | extend _ name name' hparent hparent' _ ih => exact ⟨ih.1.extend name hparent, ih.2.extend name' hparent'⟩

theorem length_eq (h : r.Renamed r') : r.created.length = r'.created.length := by
  induction h with
  | builtin => rfl
  | extend _ _ _ _ _ _ ih => exact congrArg (· + 1) ih

/-- Classes with the same serial number have superclasses with the same serial numbers. -/
theorem serials_chain_eq (h : r.Renamed r') {c c' : Class} (hc : c ∈ r.created) (hc' : c' ∈ r'.created)
    (heq : c.serial = c'.serial) : c.chain.map Class.serial = c'.chain.map Class.serial := by
  induction h generalizing c c' with
  | builtin => rw [Orderly.builtin.eq_of_serial_eq hc hc' heq]
  | @extend r r' parent parent' hbefore name name' hparent hparent' hsame ih =>
    have hlength := hbefore.length_eq
    rcases List.mem_cons.1 hc with rfl | hc
    · rcases List.mem_cons.1 hc' with rfl | hc'
      · simp only [Class.chain, List.map_cons, Class.serial]
        rw [hlength, ih hparent hparent' (beq_iff_eq.1 hsame)]
      · -- The newest class of one registry has no older class of the other one for its counterpart.
        have hlt : c'.serial < r'.created.length := hbefore.orderly.2.serial_lt hc'
        exact absurd (heq.symm.trans hlength) hlt.ne
    · rcases List.mem_cons.1 hc' with rfl | hc'
      · have hlt : c.serial < r.created.length := hbefore.orderly.1.serial_lt hc
        exact absurd (heq.trans hlength.symm) hlt.ne
      · exact ih hc hc' heq

end Renamed

end Registry

/-! ### Judging by a class -/

/-- A run that begins with a class looks at the class of the value at once. -/
theorem Validator.validate_nominal (vd : Validator) (v : Value) (cls : Class) :
    (vd.validate v (.nominal cls)).result = .ok (v.isNonPrimitive && v.instanceOf cls) := by
  have hclear : vd.obstacle? (.root v (.nominal cls)) = none :=
    obstacle?_eq_none_iff.2 ⟨fun a _ => List.not_mem_nil, fun n _ => Nat.zero_le n⟩
  rw [validate_eq_answer, answer_of_obstacle?_eq_none hclear, inquiry, Subject.run_inquiry]
  rfl

/-- A class accepts the values with a class below it. -/
theorem Validator.accepts_nominal_iff {vd : Validator} {v : Value} {cls : Class} :
    (vd.validate v (.nominal cls)).result = .ok true ↔ ∃ own, v.class? = some own ∧ own.isSubclassOf cls = true := by
  simp only [validate_nominal, Except.ok.injEq, Value.instanceOf_iff, Class.isSubclassOf_iff]

/-- The classes of a registry, in seven parts. The registry is what some sequence of creations leads to, with any names.
1. The search through the superclasses of a class ends: it looks at no more classes than were there when the class was created,
   and at the class itself.
2. Two classes are the same exactly when they have the same identity.
3. Being a subclass is reflexive, transitive and, on identities, antisymmetric.
4. Every class is a subclass of the root.
5. Of two superclasses of a class one is a subclass of the other.
6. Names play no part: the same creations with other names lead to classes in the same order.
7. A value whose class was created is accepted by all superclasses of a class that accepts it, and the root accepts exactly the
   arrays and the objects, whatever the limit. -/
theorem subclass_order (r : Registry) (hr : r.Created) :
    (∀ c ∈ r.created, ∀ d n, c.serial < n → Class.search? d n (some c) = some (c.isSubclassOf d)) ∧
    (∀ c ∈ r.created, ∀ d ∈ r.created, c.same d = true ↔ c = d) ∧
    ((∀ c ∈ r.created, c.isSubclassOf c = true) ∧
      (∀ c ∈ r.created, ∀ d ∈ r.created, ∀ e ∈ r.created,
        c.isSubclassOf d = true → d.isSubclassOf e = true → c.isSubclassOf e = true) ∧
      ∀ c ∈ r.created, ∀ d ∈ r.created, c.isSubclassOf d = true → d.isSubclassOf c = true → c.same d = true) ∧
    (.object ∈ r.created ∧ ∀ c ∈ r.created, c.isSubclassOf .object = true) ∧
    (∀ c ∈ r.created, ∀ d ∈ r.created, ∀ e ∈ r.created, c.isSubclassOf d = true → c.isSubclassOf e = true →
      d.isSubclassOf e = true ∨ e.isSubclassOf d = true) ∧
    (∀ r', r.Renamed r' → ∀ c ∈ r.created, ∀ d ∈ r.created, ∀ c' ∈ r'.created, ∀ d' ∈ r'.created, c.same c' = true →
      d.same d' = true → c'.isSubclassOf d' = c.isSubclassOf d) ∧
    ∀ (vd : Validator) (v : Value), (∀ own, v.class? = some own → own ∈ r.created) →
      (∀ c ∈ r.created, ∀ d ∈ r.created, c.isSubclassOf d = true → (vd.validate v (.nominal c)).result = .ok true →
        (vd.validate v (.nominal d)).result = .ok true) ∧
      ((vd.validate v (.nominal .object)).result = .ok true ↔
        (∃ cell, v = .array cell) ∨ ∃ cls cell, v = .object cls cell) := by
  have h := hr.orderly
  refine ⟨fun c hc d n hn => ?_, fun c hc d hd => ?_, ⟨fun c hc => ?_, fun c hc d hd e he => h.isSubclassOf_trans hc hd he,
    fun c hc d hd hcd hdc => ?_⟩, ⟨h.object_mem, fun c hc => h.isSubclassOf_object hc⟩, fun c hc d hd e he hcd hce => ?_, ?_,
    fun vd v hv => ⟨fun c hc d hd hcd haccepted => ?_, ?_⟩⟩
  · exact Class.search?_eq ((h.length_chain_le hc).trans hn)
  · refine ⟨fun hsame => h.eq_of_serial_eq hc hd (beq_iff_eq.1 hsame), ?_⟩
    rintro rfl
    exact beq_self_eq_true _
  · exact (h.isSubclassOf_iff hc hc).2 List.suffix_rfl
  · rw [h.isSubclassOf_antisymm hc hd hcd hdc]
    exact beq_self_eq_true _
  · rw [h.isSubclassOf_iff hc hd] at hcd
    rw [h.isSubclassOf_iff hc he] at hce
    rw [h.isSubclassOf_iff hd he, h.isSubclassOf_iff he hd]
    exact (List.suffix_or_suffix_of_suffix hcd hce).symm
  · intro r' hrenamed c hc d hd c' hc' d' hd' hsamec hsamed
    rw [Class.isSubclassOf_eq_contains, Class.isSubclassOf_eq_contains,
      hrenamed.serials_chain_eq hc hc' (beq_iff_eq.1 hsamec), beq_iff_eq.1 hsamed]
  · obtain ⟨own, hown, hbelow⟩ := Validator.accepts_nominal_iff.1 haccepted
    have hupper : own.isSubclassOf d = true := h.isSubclassOf_trans (hv own hown) hc hd hbelow hcd
    exact Validator.accepts_nominal_iff.2 ⟨own, hown, hupper⟩
  · rw [Validator.accepts_nominal_iff]
    constructor
    · rintro ⟨own, hown, _⟩
      cases v with
      | array cell => exact .inl ⟨cell, rfl⟩
      | object cls cell => exact .inr ⟨cls, cell, rfl⟩
      | _ => cases hown
    · rintro (⟨cell, rfl⟩ | ⟨cls, cell, rfl⟩)
      · exact ⟨.array, rfl, rfl⟩
      · exact ⟨cls, rfl, h.isSubclassOf_object (hv cls rfl)⟩

/-! ### Classes that share a name with the root -/

namespace Homonyms

/-- A class by the name of the root. -/
def outer : Class := .extending 3 "Object" .object

/-- A class of the same name below it. -/
def inner : Class := .extending 4 "Object" outer

/-- The registry after both were created. -/
def registry : Registry := ⟨[inner, outer, .error, .array, .object]⟩

theorem created : registry.Created := by
  have hroot : Class.object ∈ Registry.builtin.created := by decide
  have houter : outer ∈ (Registry.builtin.extend "Object" .object).1.created := by decide
  exact .extend (.extend .builtin "Object" hroot) "Object" houter

/-- The class in the place of the outer one when both have names of their own. -/
def shape : Class := .extending 3 "Shape" .object

/-- The class in the place of the inner one. -/
def circle : Class := .extending 4 "Circle" shape

/-- The registry of the classes with names of their own. -/
def renamed : Registry := ⟨[circle, shape, .error, .array, .object]⟩

theorem renamed_registry : registry.Renamed renamed := by
  have hroot : Class.object ∈ Registry.builtin.created := by decide
  have houter : outer ∈ (Registry.builtin.extend "Object" .object).1.created := by decide
  have hshape : shape ∈ (Registry.builtin.extend "Shape" .object).1.created := by decide
  exact .extend (.extend .builtin "Object" "Shape" hroot hroot rfl) "Object" "Circle" houter hshape rfl

end Homonyms

/-- Two classes named like the root, one below the other: the search from the inner one comes to the root, the outer one is not
below the inner one, classes with other names are in the same order, and the outer one accepts the objects of the inner one. -/
theorem subclass_order_homonyms :
    Homonyms.registry.Created ∧ Homonyms.registry.Renamed Homonyms.renamed ∧
      Class.search? .object 5 (some Homonyms.inner) = some true ∧ Homonyms.outer.isSubclassOf Homonyms.inner = false ∧
      Homonyms.circle.isSubclassOf Homonyms.shape = true ∧
      (∀ vd cell, (Validator.validate vd (.object Homonyms.inner cell) (.nominal Homonyms.outer)).result = .ok true) ∧
      ∀ vd cell, (Validator.validate vd (.object Homonyms.inner cell) (.nominal .object)).result = .ok true := by
  obtain ⟨hsearch, hidentity, ⟨_, _, hantisymm⟩, ⟨_, hroot⟩, _, hnames, hvalues⟩ :=
    subclass_order Homonyms.registry Homonyms.created
  have hinner : Homonyms.inner ∈ Homonyms.registry.created := by decide
  have houter : Homonyms.outer ∈ Homonyms.registry.created := by decide
  have hbelow : Homonyms.inner.isSubclassOf Homonyms.outer = true := by decide
  have hclass : ∀ cell own, (Value.object Homonyms.inner cell).class? = some own → own ∈ Homonyms.registry.created := by
    rintro cell _ ⟨⟩
    exact hinner
  refine ⟨Homonyms.created, Homonyms.renamed_registry, ?_, ?_, ?_, fun vd cell => ?_, fun vd cell => ?_⟩
  · rw [hsearch _ hinner .object 5 (by decide), hroot _ hinner]
  · by_contra habove
    have hsame := hantisymm _ hinner _ houter hbelow (Bool.not_eq_false _ ▸ habove)
    exact absurd ((hidentity _ hinner _ houter).1 hsame) (by decide)
  · rw [hnames _ Homonyms.renamed_registry _ hinner _ houter _ (by decide) _ (by decide) rfl rfl, hbelow]
  · refine (hvalues vd _ (hclass cell)).1 _ hinner _ houter hbelow ?_
    rw [Validator.validate_nominal]
    rfl
  · exact (hvalues vd _ (hclass cell)).2.2 (.inr ⟨_, _, rfl⟩)

end Conform
