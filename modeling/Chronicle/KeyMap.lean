/-!
# Key maps: tables looked up by name

A `KeyMap` is a finite table from names to values whose entries stand in ascending order of the names (by code point), so
that two tables with the same entries are the same table and everything that walks one sees the names in that order.
`KeyMap.get?_insert` is the law of writing: the last value written under a name is the one found there.
-/

namespace Chronicle

universe u

namespace KeyMap

/-- The names of the entries ascend strictly. -/
def Ascending {α : Type u} (entries : List (String × α)) : Prop :=
  (entries.map Prod.fst).Pairwise (· < ·)

/-- Writes one entry into a list of ascending entries: a new name goes to its place, a known one gets the new value. -/
def insertEntry {α : Type u} (name : String) (value : α) : List (String × α) → List (String × α)
  | [] => [(name, value)]
  | (name', value') :: rest =>
    if name < name' then (name, value) :: (name', value') :: rest
    else if name = name' then (name, value) :: rest
    else (name', value') :: insertEntry name value rest

/-- A name of the written list is the new one or was there before. -/
theorem mem_keys_insertEntry {α : Type u} {name : String} {value : α} {entries : List (String × α)} {x : String} :
    x ∈ (insertEntry name value entries).map Prod.fst ↔ x = name ∨ x ∈ entries.map Prod.fst := by
  induction entries with
  | nil => simp [insertEntry]
  | cons e rest ih =>
    obtain ⟨name', value'⟩ := e
    simp only [insertEntry]
    split
    · simp
    · split
      · rename_i h
        subst h
        simp
      · simp only [List.map_cons, List.mem_cons, ih]
        grind

/-- Writing an entry keeps the names ascending. -/
theorem ascending_insertEntry {α : Type u} (name : String) (value : α) {entries : List (String × α)}
    (h : Ascending entries) : Ascending (insertEntry name value entries) := by
  induction entries with
  | nil => simp [insertEntry, Ascending]
  | cons e rest ih =>
    obtain ⟨name', value'⟩ := e
    simp only [Ascending, List.map_cons, List.pairwise_cons] at h
    simp only [insertEntry]
    split
    · rename_i hlt
      simp only [Ascending, List.map_cons, List.pairwise_cons, List.mem_cons]
      refine ⟨?_, h.1, h.2⟩
      rintro x (rfl | hx)
      · exact hlt
      · exact String.lt_trans hlt (h.1 x hx)
    · split
      · rename_i heq
        subst heq
        simpa [Ascending] using h
      · rename_i hlt hne
        simp only [Ascending, List.map_cons, List.pairwise_cons]
        refine ⟨?_, ih h.2⟩
        intro x hx
        rcases mem_keys_insertEntry.mp hx with rfl | hx
        · exact (by grind : name' < x)
        · exact h.1 x hx

/-- Looking up after writing one entry finds the new value under its name and the old ones elsewhere. -/
theorem lookup_insertEntry {α : Type u} (name : String) (value : α) (entries : List (String × α)) (x : String) :
    (insertEntry name value entries).lookup x = if x = name then some value else entries.lookup x := by
  induction entries with
  | nil => simp only [insertEntry, List.lookup_cons, List.lookup_nil]; split <;> simp_all
  | cons e rest ih =>
    obtain ⟨name', value'⟩ := e
    simp only [insertEntry]
    split
    · simp only [List.lookup_cons]; grind
    · split
      · rename_i h
        subst h
        simp only [List.lookup_cons]; grind
      · simp only [List.lookup_cons, ih]; grind

/-- Looking up among replaced values finds the replaced value. -/
theorem lookup_map {α β : Type u} (f : α → β) (entries : List (String × α)) (x : String) :
    (entries.map fun e => (e.1, f e.2)).lookup x = (entries.lookup x).map f := by
  induction entries with
  | nil => rfl
  | cons e rest ih =>
    obtain ⟨name, value⟩ := e
    simp only [List.map_cons, List.lookup_cons, ih]
    cases x == name <;> rfl

/-- Replacing the values and writing an entry may be done in either order. -/
theorem map_insertEntry {α β : Type u} (f : α → β) (name : String) (value : α) (entries : List (String × α)) :
    (insertEntry name value entries).map (fun e => (e.1, f e.2)) =
      insertEntry name (f value) (entries.map fun e => (e.1, f e.2)) := by
  induction entries with
  | nil => rfl
  | cons e rest ih =>
    simp only [insertEntry, List.map_cons]
    split
    · rfl
    · split
      · rfl
      · rw [List.map_cons, ih]

/-- What is found under a name stands there with that name. -/
theorem mem_of_lookup {α : Type u} {entries : List (String × α)} {name : String} {value : α}
    (h : entries.lookup name = some value) : (name, value) ∈ entries := by
  obtain ⟨before, after, hsplit, -⟩ := List.lookup_eq_some_iff.mp h
  rw [hsplit]
  exact List.mem_append_right _ List.mem_cons_self

end KeyMap

/-- A finite table from names to values, its entries in ascending order of the names. -/
structure KeyMap (α : Type u) where
  entries : List (String × α)
  ascending : KeyMap.Ascending entries

namespace KeyMap

variable {α : Type u}

/-- The table without entries. -/
def empty : KeyMap α := ⟨[], by simp [Ascending]⟩

instance : EmptyCollection (KeyMap α) := ⟨empty⟩
instance : Inhabited (KeyMap α) := ⟨empty⟩
instance [BEq α] : BEq (KeyMap α) := ⟨fun a b => a.entries == b.entries⟩

/-- The value under a name, if there is one. -/
def get? (m : KeyMap α) (name : String) : Option α := m.entries.lookup name

/-- Writes a value under a name, over the one that was there. -/
def insert (m : KeyMap α) (name : String) (value : α) : KeyMap α :=
  ⟨insertEntry name value m.entries, ascending_insertEntry name value m.ascending⟩

/-- The names, ascending. -/
def keys (m : KeyMap α) : List String := m.entries.map Prod.fst

/-- Whether there is no entry. -/
def isEmpty (m : KeyMap α) : Bool := m.entries.isEmpty

/-- The table that holds the entries of a list; of two with one name the later stays. -/
def ofList (entries : List (String × α)) : KeyMap α :=
  entries.foldl (fun m e => m.insert e.1 e.2) empty

/-- The table with every value replaced; the names stay. -/
def map {β : Type u} (f : α → β) (m : KeyMap α) : KeyMap β :=
  ⟨m.entries.map fun e => (e.1, f e.2), by simpa [Ascending, Function.comp_def] using m.ascending⟩

/-- The table with the entries of both; under a name of both the second's value wins. -/
def union (m m' : KeyMap α) : KeyMap α :=
  m'.entries.foldl (fun m e => m.insert e.1 e.2) m

/-- The last value written under a name is the one found there, and other names are not touched. -/
theorem get?_insert (m : KeyMap α) (name : String) (value : α) (x : String) :
    (m.insert name value).get? x = if x = name then some value else m.get? x :=
  lookup_insertEntry name value m.entries x

/-- Two tables with the same entries are the same. -/
theorem ext_entries {m m' : KeyMap α} (h : m.entries = m'.entries) : m = m' := by
  obtain ⟨entries, _⟩ := m
  obtain ⟨entries', _⟩ := m'
  cases h
  rfl

/-- What is found under a name is an entry of that name. -/
theorem mem_entries_of_get? {m : KeyMap α} {name : String} {value : α} (h : m.get? name = some value) :
    (name, value) ∈ m.entries :=
  mem_of_lookup h

/-- After writing, the names are the old ones and the new one. -/
theorem mem_keys_insert (m : KeyMap α) (name : String) (value : α) (x : String) :
    x ∈ (m.insert name value).keys ↔ x = name ∨ x ∈ m.keys :=
  mem_keys_insertEntry

/-! ## Replacing the values -/

@[simp] theorem keys_map {β : Type u} (f : α → β) (m : KeyMap α) : (m.map f).keys = m.keys := by
  simp [keys, map, Function.comp_def]

@[simp] theorem get?_map {β : Type u} (f : α → β) (m : KeyMap α) (name : String) :
    (m.map f).get? name = (m.get? name).map f :=
  lookup_map f m.entries name

/-- Replacing the values and writing an entry may be done in either order. -/
theorem map_insert {β : Type u} (f : α → β) (m : KeyMap α) (name : String) (value : α) :
    (m.insert name value).map f = (m.map f).insert name (f value) :=
  ext_entries (map_insertEntry f name value m.entries)

/-- Replacing the values and joining two tables may be done in either order. -/
theorem map_union {β : Type u} (f : α → β) (m m' : KeyMap α) : (m.union m').map f = (m.map f).union (m'.map f) := by
  simp only [union]
  have hentries : (m'.map f).entries = m'.entries.map fun e => (e.1, f e.2) := rfl
  rw [hentries, List.foldl_map]
  induction m'.entries generalizing m with
  | nil => rfl
  | cons e rest ih => rw [List.foldl_cons, List.foldl_cons, ih, map_insert]

end KeyMap

end Chronicle
