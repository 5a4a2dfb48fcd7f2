import Conform.Proofs.Faults

/-!
# Where a definition is malformed

Reading a JSON value as a definition goes through the places of the definition in their order (`Json.Earlier`) and stops at the
first fault (`Finds`), so it fails exactly when there is a fault (`Json.HasFault`), and the pointer of the error leads to it
(`fault_located`).
-/

namespace Conform

/-! ### What a reading finds -/

/-- What a reading should find among faults in an order: it succeeds where there is no fault, and otherwise it fails with the
fault that all others come after. -/
def Finds {α : Type} (IsFault : Malformed → Prop) (Before : List String → List String → Prop) : Except Malformed α → Prop
  | .ok _ => ∀ e, ¬IsFault e
  | .error e => IsFault e ∧ ∀ e', IsFault e' → e' = e ∨ Before e.path e'.path

namespace Finds

variable {α β : Type} {F G : Malformed → Prop} {B B' : List String → List String → Prop} {x : Except Malformed α}

theorem congr (h : Finds F B x) (hFG : ∀ e, G e ↔ F e) : Finds G B x := by
  obtain rfl : G = F := funext fun e => propext (hFG e)
  exact h

theorem map_iff (f : α → β) : Finds F B (x.map f) ↔ Finds F B x := by
  cases x with
  | error e => exact Iff.rfl
  | ok a => exact Iff.rfl

/-- What is found in a part is found in the whole, further down. -/
theorem within (h : Finds F B x) (name : String) (hB : ∀ p q, B p q → B' (name :: p) (name :: q)) :
    Finds (fun e => ∃ e₀, F e₀ ∧ e = e₀.within name) B' (x.mapError (Malformed.within name)) := by
  cases x with
  | ok a =>
    rintro _ ⟨e₀, he₀, rfl⟩
    exact h e₀ he₀
  | error e =>
    refine ⟨⟨e, h.1, rfl⟩, ?_⟩
    rintro _ ⟨e₀, he₀, rfl⟩
    rcases h.2 e₀ he₀ with rfl | hbefore
    · exact .inl rfl
    · exact .inr (hB _ _ hbefore)

/-- Two readings one after the other find the faults of both, when those of the first come first. -/
theorem bind {f : α → Except Malformed β} (hx : Finds F B x) (hf : ∀ a, x = .ok a → Finds G B (f a))
    (hFG : ∀ e e', F e → G e' → B e.path e'.path) : Finds (fun e => F e ∨ G e) B (x.bind f) := by
  cases x with
  | error e =>
    refine ⟨.inl hx.1, fun e' he' => ?_⟩
    rcases he' with he' | he'
    · exact hx.2 e' he'
    · exact .inr (hFG e e' hx.1 he')
  | ok a =>
    have hboth : ∀ e, (F e ∨ G e) ↔ G e := fun e => or_iff_right (hx e)
    exact (hf a rfl).congr hboth

end Finds

namespace Tree

/-! ### Rows -/

/-- The faults of the values of a row, each under its name. -/
def RowFault (row : List (String × Json)) (e : Malformed) : Prop := ∃ f ∈ row, ∃ e₀, f.2.Faulty e₀ ∧ e = e₀.within f.1

/-- Reading the fields of a row one by one finds the faults of their values, when those of earlier fields come first. -/
theorem finds_ofFields? {row : List (String × Json)} {B : List String → List String → Prop}
    (hread : ∀ f ∈ row, Finds f.2.Faulty f.2.Earlier (ofJson? f.2))
    (hinside : ∀ f ∈ row, ∀ p q, f.2.Earlier p q → B (f.1 :: p) (f.1 :: q))
    (hacross : row.Pairwise fun f g => ∀ p q, B (f.1 :: p) (g.1 :: q)) : Finds (RowFault row) B (ofFields? row) := by
  induction row with
  | nil =>
    rintro e ⟨f, hf, _⟩
    exact absurd hf List.not_mem_nil
  | cons f row ih =>
    obtain ⟨key, j⟩ := f
    obtain ⟨hfirst, hreadRest⟩ := List.forall_mem_cons.1 hread
    obtain ⟨hinsideFirst, hinsideRest⟩ := List.forall_mem_cons.1 hinside
    obtain ⟨hbefore, hacrossRest⟩ := List.pairwise_cons.1 hacross
    have hrest : Finds (RowFault row) B (ofFields? row) := ih hreadRest hinsideRest hacrossRest
    have hrow : ∀ e, RowFault ((key, j) :: row) e ↔ (∃ e₀, j.Faulty e₀ ∧ e = e₀.within key) ∨ RowFault row e := by
      intro e
      simp only [RowFault, List.mem_cons, or_and_right, exists_or, exists_eq_left]
    refine ((hfirst.within key hinsideFirst).bind (fun t _ => ?_) ?_).congr hrow
    · exact (Finds.map_iff fun ts => (key, t) :: ts).2 hrest
    · rintro _ _ ⟨e₀, _, rfl⟩ ⟨g, hg, e₁, _, rfl⟩
      exact hbefore g hg _ _

/-- The items of a list under the numerals of their positions, the first one at the given position. -/
def numbered (i : Nat) (items : List Json) : List (String × Json) := (items.zipIdx i).map fun p => (toString p.2, p.1)

/-- Reading items is reading fields under the numerals of the positions. -/
theorem ofItems?_eq (i : Nat) (items : List Json) :
    ofItems? i items = (ofFields? (numbered i items)).map (List.map Prod.snd) := by
  induction items generalizing i with
  | nil => rfl
  | cons j js ih =>
    show (((ofJson? j).mapError (Malformed.within (toString i))).bind fun t => (ofItems? (i + 1) js).bind fun ts => .ok (t :: ts)) =
      (((ofJson? j).mapError (Malformed.within (toString i))).bind fun t =>
        (ofFields? (numbered (i + 1) js)).bind fun ts => .ok ((toString i, t) :: ts)).map (List.map Prod.snd)
    rw [ih]
    cases ofJson? j with
    | error e => rfl
    | ok t => cases ofFields? (numbered (i + 1) js) <;> rfl

theorem mem_numbered {items : List Json} {f : String × Json} :
    f ∈ numbered 0 items ↔ ∃ i : Nat, items[i]? = some f.2 ∧ f.1 = toString i := by
  obtain ⟨name, k⟩ := f
  simp only [numbered, List.mem_map, Prod.exists, Prod.mk.injEq, List.mk_mem_zipIdx_iff_getElem?]
  constructor
  · rintro ⟨k, i, hitem, rfl, rfl⟩
    exact ⟨i, hitem, rfl⟩
  · rintro ⟨i, hitem, rfl⟩
    exact ⟨k, i, hitem, rfl, rfl⟩

/-- Reading the items of a list finds the faults of the list. -/
theorem finds_ofItems? {items : List Json} (hread : ∀ j ∈ items, Finds j.Faulty j.Earlier (ofJson? j)) :
    Finds (Json.array items).Faulty (Json.array items).Earlier (ofItems? 0 items) := by
  have hrow : ∀ e, (Json.array items).Faulty e ↔ RowFault (numbered 0 items) e := by
    intro e
    rw [Json.faulty_array_iff]
    constructor
    · rintro ⟨i, k, e₀, hitem, hk, rfl⟩
      exact ⟨(toString i, k), mem_numbered.2 ⟨i, hitem, rfl⟩, e₀, hk, rfl⟩
    · rintro ⟨f, hf, e₀, hk, rfl⟩
      obtain ⟨i, hitem, hname⟩ := mem_numbered.1 hf
      exact ⟨i, f.2, e₀, hitem, hk, by rw [hname]⟩
  rw [ofItems?_eq]
  refine ((Finds.map_iff _).2 (finds_ofFields? (fun f hf => ?_) (fun f hf p q h => ?_) ?_)).congr hrow
  · obtain ⟨i, hitem, _⟩ := mem_numbered.1 hf
    exact hread f.2 (List.mem_of_getElem? hitem)
  · obtain ⟨i, hitem, hname⟩ := mem_numbered.1 hf
    rw [hname]
    exact .inside (.item hitem) h
  · refine List.pairwise_map.2 ((List.pairwise_iff_getElem.2 ?_))
    intro i k hi hk hik p q
    simp only [List.getElem_zipIdx, Nat.zero_add]
    exact .item hik p q

/-! ### Directives -/

section

variable {fields : List (String × Json)} {name key : String} {j : Json} {B : List String → List String → Prop}

/-- An object with one key holds one field. -/
theorem eq_singleton_of_holdsOnly (hkeys : (Fields.keys fields).Nodup) (h : HoldsOnly (Fields.keys fields) name []) :
    ∃ j, fields = [(name, j)] := by
  obtain ⟨hmem, honly⟩ := h
  match fields with
  | [] => exact absurd hmem List.not_mem_nil
  | [(key, j)] =>
    obtain rfl : key = name := List.mem_singleton.1 (honly key List.mem_cons_self)
    exact ⟨j, rfl⟩
  | (key, j) :: (key', j') :: rest =>
    -- Both keys are the one name, against their being different.
    have hfirst : key = name := List.mem_singleton.1 (honly key List.mem_cons_self)
    have hsecond : key' = name := List.mem_singleton.1 (honly key' (List.mem_cons_of_mem _ List.mem_cons_self))
    have hne := (List.nodup_cons.1 hkeys).1
    rw [hfirst, ← hsecond] at hne
    exact absurd List.mem_cons_self hne

/-- The definition under a key is that of its entry. -/
theorem ofField?_eq (h : Fields.get? fields key = some j) :
    ofField? key fields = (ofJson? j).mapError (Malformed.within key) := by
  induction fields with
  | nil => cases h
  | cons f rest ih =>
    obtain ⟨k, j'⟩ := f
    by_cases hk : k = key
    · rw [Fields.get?, if_pos hk, Option.some.injEq] at h
      rw [ofField?, if_pos hk, h]
    · rw [Fields.get?, if_neg hk] at h
      rw [ofField?, if_neg hk, ih h]

/-- A number is an unsigned integer of one word exactly when it is read as one. -/
theorem natural?_eq_some_iff {number : JsonNumber} {n : Nat} :
    number.natural? = some n ↔ ∃ h, Json.number number = Json.natural n h := by
  cases number with
  | float x finite => simp [JsonNumber.natural?, Json.natural]
  | integer m fits =>
    simp only [JsonNumber.natural?, Json.natural, Json.number.injEq, JsonNumber.integer.injEq, exists_prop]
    split
    · rw [Option.some.injEq]
      omega
    · simp only [reduceCtorEq, false_iff, not_and]
      omega

/-- A bound is read as a number exactly when it is an unsigned integer of one word. -/
theorem bound?_eq_some_iff {n : Nat} :
    bound? fields key = .ok (some n) ↔ ∃ h, Fields.get? fields key = some (Json.natural n h) := by
  unfold bound?
  split
  · rename_i hget
    simp [hget]
  · rename_i hget
    simp [hget, Json.natural]
  · rename_i number hget
    rw [hget]
    simp only [Option.some.injEq, ← natural?_eq_some_iff]
    cases number.natural? <;> simp
  · rename_i j hnull hnumber hget
    rw [hget]
    simp only [reduceCtorEq, Option.some.injEq, false_iff, not_exists]
    rintro h rfl
    exact hnumber _ rfl

/-- Reading a bound finds that the entry is no bound. -/
theorem finds_bound? (fields : List (String × Json)) (key : String) (B : List String → List String → Prop) :
    Finds (fun e => ∃ j, Fields.get? fields key = some j ∧ ¬j.IsBound ∧ e = ⟨[key], .bound⟩) B (bound? fields key) := by
  have hone : ∀ {j : Json}, Fields.get? fields key = some j → ¬j.IsBound →
      Finds (α := Option Nat) (fun e => ∃ j, Fields.get? fields key = some j ∧ ¬j.IsBound ∧ e = ⟨[key], .bound⟩) B
        (.error ⟨[key], .bound⟩) := by
    intro j hget hbound
    refine ⟨⟨j, hget, hbound, rfl⟩, ?_⟩
    rintro _ ⟨_, _, _, rfl⟩
    exact .inl rfl
  unfold bound?
  split
  · rename_i hget
    rintro e ⟨j, hj, _⟩
    exact absurd (hj.symm.trans hget) nofun
  · rename_i hget
    rintro e ⟨j, hj, hbound, _⟩
    cases hj.symm.trans hget
    exact hbound .null
  · rename_i number hget
    cases hnatural : number.natural? with
    | some n =>
      obtain ⟨h, heq⟩ := natural?_eq_some_iff.1 hnatural
      rintro e ⟨j, hj, hbound, _⟩
      cases hj.symm.trans hget
      rw [heq] at hbound
      exact hbound (.natural n h)
    | none =>
      refine hone hget fun hbound => ?_
      generalize heq : Json.number number = j at hbound
      cases hbound with
      | null => cases heq
      | natural n h => exact absurd (natural?_eq_some_iff.2 ⟨h, heq⟩) (by rw [hnatural]; nofun)
  · rename_i j hnull hnumber hget
    refine hone hget fun hbound => ?_
    cases hbound with
    | null => exact hnull rfl
    | natural n h => exact hnumber _ rfl

/-- A reading that fails with the only fault finds it. -/
theorem finds_error {α : Type} {F : Malformed → Prop} {e : Malformed} (he : F e) (honly : ∀ e', F e' → e' = e) :
    Finds (α := α) F B (.error e) :=
  ⟨he, fun e' he' => .inl (honly e' he')⟩

/-- An object of a form without parts has the faults of the form itself only. -/
theorem faulty_iff_own {form : ObjectForm} (hform : form.Marked (Fields.keys fields))
    (hparts : ∀ names k, ¬FormPart fields form names k) (e : Malformed) :
    (Json.object fields).Faulty e ↔ ∃ node, FormFault fields form e node := by
  rw [Json.faulty_object_iff hform]
  refine or_iff_left ?_
  rintro ⟨names, k, _, hpart, _⟩
  exact hparts names k hpart

/-- The flag of the undefined directive has to be true. -/
theorem finds_undefined? (hform : ObjectForm.undefined.Marked (Fields.keys fields)) :
    Finds (Json.object fields).Faulty B (undefined? fields) := by
  refine Finds.congr ?_ (faulty_iff_own hform nofun)
  unfold undefined?
  split
  · rename_i hget
    rintro e ⟨node, hfault⟩
    cases hfault with
    | undefinedFlag hget' hflag => exact hflag (Option.some.inj (hget'.symm.trans hget))
  · rename_i hother
    obtain ⟨j, hget⟩ := Fields.exists_get?_of_mem_keys hform.1
    refine finds_error ⟨j, .undefinedFlag hget fun hflag => hother (hflag ▸ hget)⟩ ?_
    rintro e' ⟨node, hfault⟩
    cases hfault
    rfl

theorem builtin?_eq_none_iff {name : String} : Class.builtin? name = none ↔ name ∉ ["Object", "Array", "Error"] := by
  simp only [Class.builtin?, List.find?_eq_none, List.mem_cons, List.not_mem_nil, or_false, forall_eq_or_imp, forall_eq,
    beq_iff_eq, not_or]
  exact and_congr ne_comm (and_congr ne_comm ne_comm)

/-- The value of the class directive has to be the name of a builtin class. -/
theorem finds_instanceOf? (hform : ObjectForm.instanceOf.Marked (Fields.keys fields)) :
    Finds (Json.object fields).Faulty B (instanceOf? fields) := by
  refine Finds.congr ?_ (faulty_iff_own hform nofun)
  unfold instanceOf?
  split
  · rename_i name hget
    split
    · rename_i cls hcls
      rintro e ⟨node, hfault⟩
      cases hfault with
      | classText hget' htext => exact htext name (Option.some.inj (hget'.symm.trans hget))
      | unknownClass hget' hname =>
        cases hget'.symm.trans hget
        exact absurd (builtin?_eq_none_iff.2 hname) (by rw [hcls]; nofun)
    · rename_i hcls
      refine finds_error ⟨_, .unknownClass hget (builtin?_eq_none_iff.1 hcls)⟩ ?_
      rintro e' ⟨node, hfault⟩
      cases hfault with
      | classText hget' htext => exact absurd (Option.some.inj (hget'.symm.trans hget)) (htext name)
      | unknownClass hget' hname =>
        cases hget'.symm.trans hget
        rfl
  · rename_i hother
    obtain ⟨j, hget⟩ := Fields.exists_get?_of_mem_keys hform.1
    refine finds_error ⟨j, .classText hget fun name htext => hother name (htext ▸ hget)⟩ ?_
    rintro e' ⟨node, hfault⟩
    cases hfault with
    | classText hget' htext => rfl
    | unknownClass hget' hname => exact absurd hget' (hother _)

/-- A union over a list has the faults of the list. -/
theorem faulty_union_iff {items : List Json} (hform : ObjectForm.union.Marked (Fields.keys fields))
    (hget : Fields.get? fields "$union" = some (.array items)) (e : Malformed) :
    (Json.object fields).Faulty e ↔ ∃ e₀, (Json.array items).Faulty e₀ ∧ e = e₀.within "$union" := by
  rw [Json.faulty_object_iff hform]
  constructor
  · rintro (⟨node, hfault⟩ | ⟨names, k, e₀, hpart, hk, rfl⟩)
    · cases hfault with
      | unionList hget' hnone => exact absurd (Option.some.inj (hget'.symm.trans hget)) (hnone items)
    · cases hpart with
      | @alternative items' i k hget' hitem =>
        cases hget'.symm.trans hget
        exact ⟨e₀.within (toString i), Json.faulty_array_iff.2 ⟨i, k, e₀, hitem, hk, rfl⟩, rfl⟩
  · rintro ⟨_, hitems, rfl⟩
    obtain ⟨i, k, e₀, hitem, hk, rfl⟩ := Json.faulty_array_iff.1 hitems
    exact .inr ⟨_, k, e₀, .alternative hget hitem, hk, rfl⟩

/-- The places in a union are read in the order of the places in its list. -/
theorem earlier_union {items : List Json} (hform : ObjectForm.union.Marked (Fields.keys fields))
    (hget : Fields.get? fields "$union" = some (.array items)) (p q : List String) (h : (Json.array items).Earlier p q) :
    (Json.object fields).Earlier ("$union" :: p) ("$union" :: q) := by
  cases h with
  | item hik p q => exact .ofForm hform (.alternative hik p q)
  | inside hpart h =>
    cases hpart with
    | item hitem => exact .inside (.ofForm hform (.alternative hget hitem)) h

/-- The value of the union directive has to be a list, and its items are read as the items of a list are. -/
theorem finds_ofAlternatives? (hkeys : (Fields.keys fields).Nodup) (hform : ObjectForm.union.Marked (Fields.keys fields))
    (hread : ∀ items, ("$union", Json.array items) ∈ fields →
      Finds (Json.array items).Faulty (Json.array items).Earlier (ofItems? 0 items)) :
    Finds (Json.object fields).Faulty (Json.object fields).Earlier (ofAlternatives? fields) := by
  obtain ⟨j, rfl⟩ := eq_singleton_of_holdsOnly hkeys hform
  have hget : Fields.get? [("$union", j)] "$union" = some j := Fields.get?_of_mem hkeys List.mem_cons_self
  by_cases hlist : ∃ items, j = .array items
  · obtain ⟨items, rfl⟩ := hlist
    have hitems := hread items List.mem_cons_self
    exact (hitems.within "$union" (earlier_union hform hget)).congr (faulty_union_iff hform hget)
  · have hnone : ∀ items, j ≠ .array items := fun items hj => hlist ⟨items, hj⟩
    have hunread : ofAlternatives? [("$union", j)] = .error ⟨["$union"], .unionList⟩ := by
      cases j with
      | array items => exact absurd rfl (hnone items)
      | _ => rfl
    rw [hunread]
    refine finds_error ((Json.faulty_object_iff hform).2 (.inl ⟨j, .unionList hget hnone⟩)) fun e' he' => ?_
    rcases (Json.faulty_object_iff hform).1 he' with ⟨node, hfault⟩ | ⟨names, k, e₀, hpart, _, _⟩
    · cases hfault
      rfl
    · cases hpart with
      | alternative hget' hitem => exact absurd (Option.some.inj (hget.symm.trans hget')) (hnone _)

/-- The value of the optional directive is read as a definition. -/
theorem finds_optional? (hform : ObjectForm.optional.Marked (Fields.keys fields))
    (hread : ∀ f ∈ fields, Finds f.2.Faulty f.2.Earlier (ofJson? f.2)) :
    Finds (Json.object fields).Faulty (Json.object fields).Earlier (ofField? "$optional" fields) := by
  obtain ⟨j, hget⟩ := Fields.exists_get?_of_mem_keys hform.1
  have hfaulty : ∀ e, (Json.object fields).Faulty e ↔ ∃ e₀, j.Faulty e₀ ∧ e = e₀.within "$optional" := by
    intro e
    rw [Json.faulty_object_iff hform]
    constructor
    · rintro (⟨node, hfault⟩ | ⟨names, k, e₀, hpart, hk, rfl⟩)
      · cases hfault
      · cases hpart with
        | optional hget' =>
          cases hget'.symm.trans hget
          exact ⟨e₀, hk, rfl⟩
    · rintro ⟨e₀, hj, rfl⟩
      exact .inr ⟨_, j, e₀, .optional hget, hj, rfl⟩
  rw [ofField?_eq hget]
  have hj : Finds j.Faulty j.Earlier (ofJson? j) := hread _ (Fields.mem_of_get? hget)
  exact (hj.within "$optional" fun p q h => .inside (.ofForm hform (.optional hget)) h).congr hfaulty

/-! ### Array directives -/

/-- The fault that a range has no room, with both bounds given. -/
def RangeFault (fields : List (String × Json)) (e : Malformed) : Prop :=
  ∃ min max hmin hmax, Fields.get? fields "$min" = some (Json.natural min hmin) ∧
    Fields.get? fields "$max" = some (Json.natural max hmax) ∧ max < min ∧ e = ⟨[], .emptyRange max min⟩

/-- The fault that the entry under a key is no bound. -/
def BoundFault (fields : List (String × Json)) (key : String) (e : Malformed) : Prop :=
  ∃ j, Fields.get? fields key = some j ∧ ¬j.IsBound ∧ e = ⟨[key], .bound⟩

/-- The faults of an array directive: those of the element, those of the bounds, and that of the range. -/
theorem faulty_arrayOf_iff (hform : ObjectForm.arrayOf.Marked (Fields.keys fields))
    (hget : Fields.get? fields "$arrayOf" = some j) (e : Malformed) :
    (Json.object fields).Faulty e ↔ (∃ e₀, j.Faulty e₀ ∧ e = e₀.within "$arrayOf") ∨
      BoundFault fields "$min" e ∨ BoundFault fields "$max" e ∨ RangeFault fields e := by
  rw [Json.faulty_object_iff hform]
  constructor
  · rintro (⟨node, hfault⟩ | ⟨names, k, e₀, hpart, hk, rfl⟩)
    · cases hfault with
      | bound hkey hget' hbound =>
        simp only [List.mem_cons, List.not_mem_nil, or_false] at hkey
        rcases hkey with rfl | rfl
        · exact .inr (.inl ⟨_, hget', hbound, rfl⟩)
        · exact .inr (.inr (.inl ⟨_, hget', hbound, rfl⟩))
      | emptyRange hlower hupper hroom => exact .inr (.inr (.inr ⟨_, _, _, _, hlower, hupper, hroom, rfl⟩))
    · cases hpart with
      | element hget' =>
        cases hget'.symm.trans hget
        exact .inl ⟨e₀, hk, rfl⟩
  · rintro (⟨e₀, hj, rfl⟩ | ⟨k, hk, hbound, rfl⟩ | ⟨k, hk, hbound, rfl⟩ | ⟨min, max, hmin, hmax, hlower, hupper, hroom, rfl⟩)
    · exact .inr ⟨_, j, e₀, .element hget, hj, rfl⟩
    · exact .inl ⟨k, .bound (by simp) hk hbound⟩
    · exact .inl ⟨k, .bound (by simp) hk hbound⟩
    · exact .inl ⟨_, .emptyRange hlower hupper hroom⟩

/-- With both bounds read, the range has to have room. -/
theorem finds_range {element : Tree} {lower upper : Option Nat} (hlower : bound? fields "$min" = .ok lower)
    (hupper : bound? fields "$max" = .ok upper) :
    Finds (RangeFault fields) B
      (match upper with
        | none => Except.ok (Tree.node (.bounded element (lower.getD 0) none))
        | some m =>
          if m < lower.getD 0 then .error ⟨[], .emptyRange m (lower.getD 0)⟩
          else .ok (.node (.bounded element (lower.getD 0) (some m)))) := by
  -- The bounds of a range without room are the bounds that are read.
  have hbounds : ∀ e, RangeFault fields e → ∃ min max, lower = some min ∧ upper = some max ∧ max < min ∧
      e = ⟨[], .emptyRange max min⟩ := by
    rintro e ⟨min, max, hmin, hmax, hgetMin, hgetMax, hroom, rfl⟩
    have hmin' : lower = some min := Except.ok.inj (hlower.symm.trans (bound?_eq_some_iff.2 ⟨hmin, hgetMin⟩))
    have hmax' : upper = some max := Except.ok.inj (hupper.symm.trans (bound?_eq_some_iff.2 ⟨hmax, hgetMax⟩))
    exact ⟨min, max, hmin', hmax', hroom, rfl⟩
  cases upper with
  | none =>
    intro e he
    obtain ⟨min, max, _, hmax, _⟩ := hbounds e he
    cases hmax
  | some m =>
    by_cases hroom : m < lower.getD 0
    · simp only [if_pos hroom]
      cases lower with
      | none => exact absurd hroom (Nat.not_lt_zero m)
      | some n =>
        obtain ⟨hn, hgetMin⟩ := bound?_eq_some_iff.1 hlower
        obtain ⟨hm, hgetMax⟩ := bound?_eq_some_iff.1 hupper
        refine finds_error ⟨n, m, hn, hm, hgetMin, hgetMax, hroom, rfl⟩ fun e he => ?_
        obtain ⟨min, max, ⟨⟩, ⟨⟩, _, rfl⟩ := hbounds e he
        rfl
    · simp only [if_neg hroom]
      intro e he
      obtain ⟨min, max, rfl, ⟨⟩, hlt, _⟩ := hbounds e he
      exact hroom hlt

/-- The element of an array directive is read before the lower bound, this before the upper one, and both before the range. -/
theorem finds_bounded? (hform : ObjectForm.arrayOf.Marked (Fields.keys fields))
    (hread : ∀ f ∈ fields, Finds f.2.Faulty f.2.Earlier (ofJson? f.2)) :
    Finds (Json.object fields).Faulty (Json.object fields).Earlier ((ofField? "$arrayOf" fields).bind (arrayOf? fields)) := by
  have hbefore : ∀ (a b : Option String) {p q : List String}, p.head? = a → q.head? = b →
      [a, b].Sublist [some "$arrayOf", some "$min", some "$max", none] → (Json.object fields).Earlier p q := by
    rintro _ _ p q rfl rfl h
    exact .ofForm hform (.arrayOf h)
  obtain ⟨j, hget⟩ := Fields.exists_get?_of_mem_keys hform.1
  have hj : Finds j.Faulty j.Earlier (ofJson? j) := hread _ (Fields.mem_of_get? hget)
  have hinside : ∀ p q, j.Earlier p q → (Json.object fields).Earlier ("$arrayOf" :: p) ("$arrayOf" :: q) :=
    fun p q h => .inside (.ofForm hform (.element hget)) h
  have helement := hj.within "$arrayOf" hinside
  rw [ofField?_eq hget]
  refine (helement.bind (fun element _ => ?_) ?_).congr (faulty_arrayOf_iff hform hget)
  · refine (finds_bound? fields "$min" _).bind (fun lower hlower => ?_) ?_
    · refine (finds_bound? fields "$max" _).bind (fun upper hupper => finds_range hlower hupper) ?_
      rintro _ _ ⟨_, _, _, rfl⟩ ⟨_, _, _, _, _, _, _, rfl⟩
      exact hbefore (some "$max") none rfl rfl (by decide)
    · rintro _ _ ⟨_, _, _, rfl⟩ (⟨_, _, _, rfl⟩ | ⟨_, _, _, _, _, _, _, rfl⟩)
      · exact hbefore (some "$min") (some "$max") rfl rfl (by decide)
      · exact hbefore (some "$min") none rfl rfl (by decide)
  · rintro _ _ ⟨_, _, rfl⟩ (⟨_, _, _, rfl⟩ | ⟨_, _, _, rfl⟩ | ⟨_, _, _, _, _, _, _, rfl⟩)
    · exact hbefore (some "$arrayOf") (some "$min") rfl rfl (by decide)
    · exact hbefore (some "$arrayOf") (some "$max") rfl rfl (by decide)
    · exact hbefore (some "$arrayOf") none rfl rfl (by decide)

/-- The fields of a shape are read one by one. -/
theorem finds_shape? (hkeys : (Fields.keys fields).Nodup) (hform : ObjectForm.shape.Marked (Fields.keys fields))
    (hread : ∀ f ∈ fields, Finds f.2.Faulty f.2.Earlier (ofJson? f.2)) :
    Finds (Json.object fields).Faulty (Json.object fields).Earlier (ofFields? fields) := by
  have hfaulty : ∀ e, (Json.object fields).Faulty e ↔ RowFault fields e := by
    intro e
    rw [Json.faulty_object_iff hform]
    constructor
    · rintro (⟨node, hfault⟩ | ⟨names, k, e₀, hpart, hk, rfl⟩)
      · cases hfault
      · cases hpart with
        | field hget => exact ⟨_, Fields.mem_of_get? hget, e₀, hk, rfl⟩
    · rintro ⟨f, hf, e₀, hk, rfl⟩
      exact .inr ⟨_, f.2, e₀, .field (Fields.get?_of_mem hkeys hf), hk, rfl⟩
  refine (finds_ofFields? hread (fun f hf p q h => ?_) ?_).congr hfaulty
  · exact .inside (.ofForm hform (.field (Fields.get?_of_mem hkeys hf))) h
  · refine List.pairwise_iff_forall_sublist.2 fun {f g} hfg p q => ?_
    exact .ofForm hform (.field (hfg.map Prod.fst) p q)

end

/-- Reading a value without repeated keys finds its faults. -/
theorem finds_ofJson? {j : Json} (hj : j.KeysDistinct) : Finds j.Faulty j.Earlier (ofJson? j) := by
  -- A value that is no list and no object has neither a fault of its own nor parts.
  have hleaf : ∀ {j : Json} {t : Tree}, (∀ e node, ¬j.HasFault e node) → Finds j.Faulty j.Earlier (.ok t) := by
    rintro j t hnone e ⟨node, hfault⟩
    exact hnone e node hfault
  induction hj with
  | null => exact hleaf (by rintro e node ⟨⟩; cases ‹Json.Part _ _ _›)
  | bool b => exact hleaf (by rintro e node ⟨⟩; cases ‹Json.Part _ _ _›)
  | number n => exact hleaf (by rintro e node ⟨⟩; cases ‹Json.Part _ _ _›)
  | string text => exact hleaf (by rintro e node ⟨⟩; cases ‹Json.Part _ _ _›)
  | array hitems ih =>
    unfold ofJson?
    exact (Finds.map_iff _).2 (finds_ofItems? ih)
  | @object fields hkeys hfields ih =>
    have hform := ObjectForm.marked_ofKeys (Fields.keys fields)
    unfold ofJson?
    split
    · rename_i heq
      exact finds_undefined? (heq ▸ hform)
    · rename_i heq
      refine (Finds.map_iff _).2 (finds_ofAlternatives? hkeys (heq ▸ hform) fun items hlist => ?_)
      have hitems := ih _ hlist
      unfold ofJson? at hitems
      exact (Finds.map_iff _).1 hitems
    · rename_i heq
      exact (Finds.map_iff _).2 (finds_optional? (heq ▸ hform) ih)
    · rename_i heq
      exact finds_bounded? (heq ▸ hform) ih
    · rename_i heq
      exact finds_instanceOf? (heq ▸ hform)
    · rename_i heq
      exact (Finds.map_iff _).2 (finds_shape? hkeys (heq ▸ hform) ih)

end Tree

/-- Where reading a value without repeated keys fails, in two parts.
1. An error is a fault of the value. Its pointer spells the names that lead to the value at fault, and finds it in the value
   unless a list has more positions than there are words. Every other fault comes later in the order of reading, and not earlier.
2. Reading fails exactly when the value has a fault. -/
theorem fault_located (j : Json) (hj : j.KeysDistinct) :
    (∀ e, Tree.ofJson? j = .error e → ∃ node, j.HasFault e node ∧
      Pointer.names? e.pointer = some e.path ∧ Pointer.Leads e.path j node ∧
      ((∀ names items, Pointer.Leads names j (.array items) → items.length ≤ Numeral.wordMax + 1) →
        Pointer.select? e.pointer j = some node) ∧
      ∀ e' node', j.HasFault e' node' → e' = e ∨ (j.Earlier e.path e'.path ∧ ¬j.Earlier e'.path e.path)) ∧
    ((∃ e, Tree.ofJson? j = .error e) ↔ ∃ e node, j.HasFault e node) := by
  have hfinds := Tree.finds_ofJson? hj
  refine ⟨fun e he => ?_, ?_⟩
  · rw [he] at hfinds
    obtain ⟨⟨node, hfault⟩, hfirst⟩ := hfinds
    have hnames : Pointer.names? e.pointer = some e.path := Pointer.names?_child e.path
    refine ⟨node, hfault, hnames, hfault.leads, fun hword => ?_, fun e' node' h => ?_⟩
    · rw [Pointer.select?, hnames, Option.bind_some]
      exact hfault.leads.walk?_eq hword
    · rcases hfirst e' ⟨node', h⟩ with rfl | hbefore
      · exact .inl rfl
      · exact .inr ⟨hbefore, hbefore.asymm hj⟩
  · cases hread : Tree.ofJson? j with
    | error e =>
      rw [hread] at hfinds
      obtain ⟨node, hfault⟩ := hfinds.1
      exact ⟨fun _ => ⟨e, node, hfault⟩, fun _ => ⟨e, rfl⟩⟩
    | ok t =>
      rw [hread] at hfinds
      refine ⟨?_, ?_⟩
      · rintro ⟨e, he⟩
        cases he
      · rintro ⟨e, node, hfault⟩
        exact absurd ⟨node, hfault⟩ (hfinds e)

/-! ### Two faults -/

namespace Ticket

/-- An array directive whose upper bound stands first and is below the lower one. -/
def seats : Json := .object [("$max", .natural 2 (by decide)), ("$min", .natural 4 (by decide)), ("$arrayOf", .string "string")]

/-- A shape with a fault under a key that needs escapes, and a later one under the empty key. -/
def form : Json := .object [("a/b~", .array [.string "any", seats]), ("", .object [("$union", .bool true)])]

theorem keysDistinct : form.KeysDistinct := by
  have hseats : seats.KeysDistinct := by
    refine .object (by decide) ?_
    simp only [List.mem_cons, List.not_mem_nil, or_false, forall_eq_or_imp, forall_eq]
    exact ⟨.number _, .number _, .string _⟩
  refine .object (by decide) ?_
  simp only [List.mem_cons, List.not_mem_nil, or_false, forall_eq_or_imp, forall_eq]
  refine ⟨.array ?_, .single (.bool true)⟩
  simp only [List.mem_cons, List.not_mem_nil, or_false, forall_eq_or_imp, forall_eq]
  exact ⟨.string _, hseats⟩

/-- The union under the empty key is over no list. -/
theorem hasFault_union : form.HasFault ⟨["", "$union"], .unionList⟩ (.bool true) := by
  have hshape : ObjectForm.shape.Marked ["a/b~", ""] := ofKeys_eq_shape_iff.1 (by decide)
  have hunion : ObjectForm.union.Marked ["$union"] := holdsOnly_iff.1 (by decide)
  have hpart : form.Part [""] (.object [("$union", .bool true)]) := .ofForm hshape (.field (by rfl))
  have hfault : (Json.object [("$union", .bool true)]).HasFault ⟨["$union"], .unionList⟩ (.bool true) :=
    .own hunion (.unionList (by rfl) nofun)
  exact .inside hpart hfault

end Ticket

/-- The pointer to the first fault leads through the escaped key to the array directive. -/
theorem fault_located_ticket :
    Tree.ofJson? Ticket.form = .error ⟨["a/b~", "1"], .emptyRange 2 4⟩ ∧
      (∃ node, Ticket.form.HasFault ⟨["a/b~", "1"], .emptyRange 2 4⟩ node ∧
        Pointer.names? "/a~1b~0/1" = some ["a/b~", "1"] ∧ Pointer.Leads ["a/b~", "1"] Ticket.form node) ∧
      Ticket.form.Earlier ["a/b~", "1"] ["", "$union"] := by
  have herror : Tree.ofJson? Ticket.form = .error ⟨["a/b~", "1"], .emptyRange 2 4⟩ := by rfl
  have hpointer : Malformed.pointer ⟨["a/b~", "1"], .emptyRange 2 4⟩ = "/a~1b~0/1" := by rfl
  obtain ⟨hlocated, _⟩ := fault_located Ticket.form Ticket.keysDistinct
  obtain ⟨node, hfault, hnames, hleads, _, hfirst⟩ := hlocated _ herror
  refine ⟨herror, ⟨node, hfault, hpointer ▸ hnames, hleads⟩, ?_⟩
  exact ((hfirst _ _ Ticket.hasFault_union).resolve_left (by simp)).1

end Conform
