/-!
# Fields

A row of named entries in the order in which their names were first given. Giving a name again replaces its entry where it
stands, so a row built by `insert` holds each name once (`nodup_keys_insert`).
-/

namespace Conform.Fields

variable {α : Type}

/-- The names, in order. -/
def keys (fields : List (String × α)) : List String := fields.map Prod.fst

/-- The entry with the name, the first one if there are several. -/
def get? (fields : List (String × α)) (key : String) : Option α :=
  match fields with
  | [] => none
  | (k, a) :: rest => if k = key then some a else get? rest key

/-- The fields with an entry for the name: in the place of the old entry, or else at the end. -/
def insert (fields : List (String × α)) (key : String) (entry : α) : List (String × α) :=
  match fields with
  | [] => [(key, entry)]
  | (k, a) :: rest => if k = key then (k, entry) :: rest else (k, a) :: insert rest key entry

/-- The fields that giving the entries one after the other leads to. -/
def ofList (entries : List (String × α)) : List (String × α) :=
  entries.foldl (fun fields e => insert fields e.1 e.2) []

/-- Inserting adds the name at the end unless it is there. -/
theorem keys_insert (fields : List (String × α)) (key : String) (entry : α) :
    keys (insert fields key entry) = if key ∈ keys fields then keys fields else keys fields ++ [key] := by
  induction fields with
  | nil => simp [insert, keys]
  | cons f rest ih =>
    obtain ⟨k, a⟩ := f
    by_cases h : k = key
    · simp [insert, keys, h]
    · have h' : ¬ key = k := fun e => h e.symm
      simp only [insert, h, if_false, keys, List.map_cons, List.mem_cons, h', false_or] at ih ⊢
      rw [ih]
      by_cases hm : key ∈ List.map Prod.fst rest <;> simp [hm]

/-- Inserting keeps the names distinct. -/
theorem nodup_keys_insert {fields : List (String × α)} (h : (keys fields).Nodup) (key : String) (entry : α) :
    (keys (insert fields key entry)).Nodup := by
  rw [keys_insert]
  split
  · exact h
  · rename_i hk
    exact List.nodup_append.2 ⟨h, by simp, by
      intro a ha b hb
      simp only [List.mem_singleton] at hb
      exact fun e => hk (hb ▸ e ▸ ha)⟩

/-- The entry inserted is the one found under its name. -/
theorem get?_insert_self (fields : List (String × α)) (key : String) (entry : α) :
    get? (insert fields key entry) key = some entry := by
  induction fields with
  | nil => simp [insert, get?]
  | cons f rest ih =>
    by_cases h : f.1 = key <;> simp [insert, get?, h, ih]

/-- Inserting leaves what is found under every other name. -/
theorem get?_insert_of_ne (fields : List (String × α)) {key other : String} (h : other ≠ key) (entry : α) :
    get? (insert fields key entry) other = get? fields other := by
  induction fields with
  | nil => simp [insert, get?, h.symm]
  | cons f rest ih =>
    by_cases hk : f.1 = key
    · have : ¬ f.1 = other := fun e => h (e ▸ hk)
      simp [insert, get?, hk, h.symm]
    · by_cases ho : f.1 = other
      · simp [insert, get?, ho, h]
      · simp [insert, get?, hk, ho, ih]

end Conform.Fields
