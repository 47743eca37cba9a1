/-
# Dictionaries

A finite map from texts, kept as its entries in strictly ascending key order. The order is part of
the type, so two dictionaries with the same entries are equal however they were built, and every
listing that goes through one comes out sorted.
-/

namespace LineScript

/-- A finite map from texts. Texts are ordered by code point, which for well-formed text is also
the order of their bytes. -/
structure Dict (α : Type) where
  /-- The entries, ascending by key. -/
  entries : List (String × α)
  ascending : entries.Pairwise (fun a b => a.1 < b.1)

namespace Dict

variable {α β : Type}

/-- The map without entries. -/
def empty : Dict α := ⟨[], .nil⟩

instance : EmptyCollection (Dict α) := ⟨empty⟩

instance : Inhabited (Dict α) := ⟨empty⟩

/-- The value under the first entry with the key. -/
def lookup (key : String) : List (String × α) → Option α
  | [] => none
  | (k, v) :: rest => if k = key then some v else lookup key rest

/-- The value stored under a key. -/
def get? (d : Dict α) (key : String) : Option α :=
  lookup key d.entries

/-- Whether a key is present. -/
def contains (d : Dict α) (key : String) : Bool :=
  (d.get? key).isSome

/-- Puts an entry at its place, or replaces the value of an equal key. -/
def place (key : String) (value : α) : List (String × α) → List (String × α)
  | [] => [(key, value)]
  | (k, v) :: rest =>
    if key = k then (key, value) :: rest
    else if key < k then (key, value) :: (k, v) :: rest
    else (k, v) :: place key value rest

theorem mem_place {key : String} {value : α} {entries : List (String × α)} {e : String × α}
    (h : e ∈ place key value entries) : e = (key, value) ∨ e ∈ entries := by
  induction entries with
  | nil => simpa [place] using h
  | cons head rest ih =>
    obtain ⟨k, v⟩ := head
    simp only [place] at h
    split at h
    · cases h with
      | head => exact .inl rfl
      | tail _ h => exact .inr (.tail _ h)
    · split at h
      · cases h with
        | head => exact .inl rfl
        | tail _ h => exact .inr h
      · cases h with
        | head => exact .inr (.head _)
        | tail _ h =>
          cases ih h with
          | inl h => exact .inl h
          | inr h => exact .inr (.tail _ h)

theorem lt_of_not_le {a b : String} (ne : ¬a = b) (nlt : ¬a < b) : b < a := by
  apply Decidable.byContradiction
  intro nlt'
  exact ne (String.le_antisymm (String.not_lt.mp nlt') (String.not_lt.mp nlt))

theorem place_ascending {key : String} {value : α} {entries : List (String × α)}
    (h : entries.Pairwise (fun a b => a.1 < b.1)) :
    (place key value entries).Pairwise (fun a b => a.1 < b.1) := by
  induction entries with
  | nil => simp [place]
  | cons head rest ih =>
    obtain ⟨k, v⟩ := head
    have ⟨above, sorted⟩ := List.pairwise_cons.mp h
    simp only [place]
    split
    · rename_i same
      subst same
      exact List.pairwise_cons.mpr ⟨above, sorted⟩
    · rename_i different
      split
      · rename_i before
        refine List.pairwise_cons.mpr ⟨?_, h⟩
        intro e he
        cases he with
        | head => exact before
        | tail _ he => exact String.lt_trans before (above e he)
      · rename_i notBefore
        refine List.pairwise_cons.mpr ⟨?_, ih sorted⟩
        intro e he
        cases mem_place he with
        | inl he => subst he; exact lt_of_not_le different notBefore
        | inr he => exact above e he

/-- Stores a value under a key, replacing what was there. -/
def insert (d : Dict α) (key : String) (value : α) : Dict α :=
  ⟨place key value d.entries, place_ascending d.ascending⟩

/-- Removes the entry under a key, if there is one. -/
def erase (d : Dict α) (key : String) : Dict α :=
  ⟨d.entries.filter (fun e => e.1 ≠ key), d.ascending.filter _⟩

/-- The map of a list of entries; of two entries with one key the later wins. -/
def ofList (entries : List (String × α)) : Dict α :=
  entries.foldl (fun d e => d.insert e.1 e.2) empty

/-- The entries in ascending key order. -/
def toList (d : Dict α) : List (String × α) := d.entries

/-- The keys in ascending order. -/
def keys (d : Dict α) : List String := d.entries.map (·.1)

/-- The values, in ascending order of their keys. -/
def values (d : Dict α) : List α := d.entries.map (·.2)

/-- The number of entries. -/
def size (d : Dict α) : Nat := d.entries.length

/-- The same keys with every value passed through a function. -/
def map (f : α → β) (d : Dict α) : Dict β :=
  ⟨d.entries.map (fun e => (e.1, f e.2)), by
    rw [List.pairwise_map]
    exact d.ascending⟩

theorem ext {a b : Dict α} (h : a.entries = b.entries) : a = b := by
  cases a; cases b; cases h; rfl

theorem lookup_place_self (key : String) (value : α) (entries : List (String × α)) :
    lookup key (place key value entries) = some value := by
  induction entries with
  | nil => simp [place, lookup]
  | cons head rest ih =>
    obtain ⟨k, v⟩ := head
    simp only [place]
    split
    · simp [lookup]
    · rename_i different
      split
      · simp [lookup]
      · simp only [lookup]
        rw [if_neg (fun h => different h.symm)]
        exact ih

theorem lookup_place_of_ne {key other : String} (value : α) (entries : List (String × α))
    (ne : other ≠ key) : lookup other (place key value entries) = lookup other entries := by
  induction entries with
  | nil => simp [place, lookup, ne.symm]
  | cons head rest ih =>
    obtain ⟨k, v⟩ := head
    simp only [place]
    split
    · rename_i same
      subst same
      simp [lookup, ne.symm]
    · split
      · simp [lookup, ne.symm]
      · simp only [lookup, ih]

/-- The value just stored is the one found. -/
@[simp] theorem get?_insert_self (d : Dict α) (key : String) (value : α) :
    (d.insert key value).get? key = some value :=
  lookup_place_self key value d.entries

/-- Storing under one key leaves every other key alone. -/
theorem get?_insert_of_ne (d : Dict α) {key other : String} (value : α) (ne : other ≠ key) :
    (d.insert key value).get? other = d.get? other :=
  lookup_place_of_ne value d.entries ne

/-- What holds of the value just stored and of every value from before holds of every value. -/
theorem forall_get?_insert {d : Dict α} {key : String} {value : α} {P : String → α → Prop}
    (hvalue : P key value) (h : ∀ other v, d.get? other = some v → P other v) :
    ∀ other v, (d.insert key value).get? other = some v → P other v := by
  intro other v hget
  by_cases hother : other = key
  · subst hother
    rw [get?_insert_self] at hget
    cases hget
    exact hvalue
  · rw [get?_insert_of_ne d value hother] at hget
    exact h other v hget

@[simp] theorem get?_empty (key : String) : (empty : Dict α).get? key = none := rfl

theorem lookup_filter_self (key : String) (entries : List (String × α)) :
    lookup key (entries.filter (fun e => e.1 ≠ key)) = none := by
  induction entries with
  | nil => rfl
  | cons head rest ih =>
    obtain ⟨k, v⟩ := head
    by_cases same : k = key
    · simpa [List.filter_cons, same] using ih
    · simpa [List.filter_cons, same, lookup] using ih

theorem lookup_filter_of_ne {key other : String} (entries : List (String × α))
    (ne : other ≠ key) : lookup other (entries.filter (fun e => e.1 ≠ key)) = lookup other entries := by
  induction entries with
  | nil => rfl
  | cons head rest ih =>
    obtain ⟨k, v⟩ := head
    by_cases same : k = key
    · subst same
      simpa [List.filter_cons, lookup, ne.symm] using ih
    · by_cases found : k = other
      · subst found
        simp [same, lookup]
      · simpa [List.filter_cons, same, lookup, found] using ih

/-- A removed key is gone. -/
@[simp] theorem get?_erase_self (d : Dict α) (key : String) : (d.erase key).get? key = none :=
  lookup_filter_self key d.entries

/-- Removing one key leaves every other key alone. -/
theorem get?_erase_of_ne (d : Dict α) {key other : String} (ne : other ≠ key) :
    (d.erase key).get? other = d.get? other :=
  lookup_filter_of_ne d.entries ne

theorem mem_of_lookup {key : String} {value : α} {entries : List (String × α)}
    (h : lookup key entries = some value) : (key, value) ∈ entries := by
  induction entries with
  | nil => cases h
  | cons head rest ih =>
    obtain ⟨k, v⟩ := head
    simp only [lookup] at h
    split at h
    · rename_i same
      subst same
      cases h
      exact .head _
    · exact .tail _ (ih h)

theorem lookup_of_mem {key : String} {value : α} {entries : List (String × α)}
    (sorted : entries.Pairwise (fun a b => a.1 < b.1)) (h : (key, value) ∈ entries) :
    lookup key entries = some value := by
  induction entries with
  | nil => cases h
  | cons head rest ih =>
    obtain ⟨k, v⟩ := head
    have ⟨above, sorted⟩ := List.pairwise_cons.mp sorted
    simp only [lookup]
    cases h with
    | head => rw [if_pos rfl]
    | tail _ h =>
      have different : k ≠ key := fun same => String.lt_irrefl _ (same ▸ above _ h)
      rw [if_neg different]
      exact ih sorted h

/-- A key has the value it is listed with. -/
theorem get?_eq_some_iff {d : Dict α} {key : String} {value : α} :
    d.get? key = some value ↔ (key, value) ∈ d.entries :=
  ⟨mem_of_lookup, lookup_of_mem d.ascending⟩

theorem mem_values_iff {d : Dict α} {value : α} :
    value ∈ d.values ↔ ∃ key, d.get? key = some value := by
  simp [values, get?_eq_some_iff]

theorem contains_iff {d : Dict α} {key : String} :
    d.contains key = true ↔ ∃ value, d.get? key = some value :=
  Option.isSome_iff_exists

theorem lookup_map (f : α → β) (key : String) (entries : List (String × α)) :
    lookup key (entries.map (fun e => (e.1, f e.2))) = (lookup key entries).map f := by
  induction entries with
  | nil => rfl
  | cons head rest ih =>
    obtain ⟨k, v⟩ := head
    simp only [List.map_cons, lookup, ih]
    split <;> rfl

@[simp] theorem get?_map (f : α → β) (d : Dict α) (key : String) :
    (d.map f).get? key = (d.get? key).map f :=
  lookup_map f key d.entries

/-- A function that changes no value changes nothing. -/
theorem map_eq_self {f : α → α} {d : Dict α} (h : ∀ key value, d.get? key = some value → f value = value) :
    d.map f = d := by
  apply ext
  show d.entries.map _ = d.entries
  conv => rhs; rw [← List.map_id d.entries]
  refine List.map_congr_left fun e he => ?_
  rw [h e.1 e.2 (get?_eq_some_iff.mpr he)]
  rfl

theorem eq_of_ascending {a b : List (String × α)} (ha : a.Pairwise (fun x y => x.1 < y.1))
    (hb : b.Pairwise (fun x y => x.1 < y.1)) (h : ∀ e, e ∈ a ↔ e ∈ b) : a = b := by
  induction a generalizing b with
  | nil => exact (List.eq_nil_iff_forall_not_mem.mpr fun e he => List.not_mem_nil ((h e).mpr he)).symm
  | cons x xs ih =>
    cases b with
    | nil => exact absurd ((h x).mp List.mem_cons_self) List.not_mem_nil
    | cons y ys =>
      have ⟨aboveX, sortedX⟩ := List.pairwise_cons.mp ha
      have ⟨aboveY, sortedY⟩ := List.pairwise_cons.mp hb
      -- Each head is the least member of the other list.
      have same : x = y := by
        rcases List.mem_cons.mp ((h x).mp List.mem_cons_self) with same | hx
        · exact same
        · rcases List.mem_cons.mp ((h y).mpr List.mem_cons_self) with same | hy
          · exact same.symm
          · exact absurd (String.lt_trans (aboveX y hy) (aboveY x hx)) (String.lt_irrefl _)
      subst same
      congr 1
      refine ih sortedX sortedY fun e => ⟨fun he => ?_, fun he => ?_⟩
      · rcases List.mem_cons.mp ((h e).mp (List.mem_cons_of_mem _ he)) with rfl | he'
        · exact absurd (aboveX e he) (String.lt_irrefl _)
        · exact he'
      · rcases List.mem_cons.mp ((h e).mpr (List.mem_cons_of_mem _ he)) with rfl | he'
        · exact absurd (aboveY e he) (String.lt_irrefl _)
        · exact he'

/-- Dictionaries with the same entries under every key are equal. -/
theorem ext_get? {a b : Dict α} (h : ∀ key, a.get? key = b.get? key) : a = b := by
  refine ext (eq_of_ascending a.ascending b.ascending fun e => ?_)
  obtain ⟨key, value⟩ := e
  rw [← get?_eq_some_iff, ← get?_eq_some_iff, h]

theorem get?_foldl_insert {entries : List (String × α)} (distinct : (entries.map (·.1)).Nodup)
    (d : Dict α) (key : String) (value : α) :
    (entries.foldl (fun d e => d.insert e.1 e.2) d).get? key = some value
      ↔ (key, value) ∈ entries ∨ key ∉ entries.map (·.1) ∧ d.get? key = some value := by
  induction entries generalizing d with
  | nil => simp
  | cons head rest ih =>
    obtain ⟨k, v⟩ := head
    have ⟨fresh, distinct⟩ := List.nodup_cons.mp distinct
    rw [List.foldl_cons, ih distinct]
    by_cases same : key = k
    · subst same
      have absent : (key, value) ∉ rest := fun h => fresh (List.mem_map.mpr ⟨_, h, rfl⟩)
      simp [absent, fresh, eq_comm]
    · rw [get?_insert_of_ne _ _ same]
      simp [same]

/-- A list without repeated keys gives each key its value, whatever the order. -/
theorem get?_ofList {entries : List (String × α)} (distinct : (entries.map (·.1)).Nodup)
    (key : String) (value : α) : (ofList entries).get? key = some value ↔ (key, value) ∈ entries := by
  rw [ofList, get?_foldl_insert distinct]
  simp

/-- The order of entries with distinct keys does not matter. -/
theorem ofList_perm {a b : List (String × α)} (distinct : (a.map (·.1)).Nodup) (h : a.Perm b) :
    ofList a = ofList b := by
  have distinct' : (b.map (·.1)).Nodup := (h.map _).nodup_iff.mp distinct
  refine ext_get? fun key => Option.ext fun value => ?_
  rw [get?_ofList distinct, get?_ofList distinct', h.mem_iff]

theorem nodup_keys (d : Dict α) : (d.entries.map (·.1)).Nodup := by
  refine List.pairwise_map.mpr (d.ascending.imp ?_)
  intro a b before same
  exact String.lt_irrefl _ (same ▸ before)

/-- A dictionary is built from its own entries in any order. -/
theorem ofList_of_perm {entries : List (String × α)} {d : Dict α} (h : entries.Perm d.entries) :
    ofList entries = d := by
  have distinct : (entries.map (·.1)).Nodup := (h.map _).nodup_iff.mpr d.nodup_keys
  refine ext_get? fun key => Option.ext fun value => ?_
  rw [get?_ofList distinct, get?_eq_some_iff, h.mem_iff]

end Dict

end LineScript
