import Chronicle.KeyMap

/-!
# Tables: a table is what is found in it

The entries of a table ascend, so its list of entries holds no more than what looking up finds (`mem_entries_iff`), and two
tables in which the same is found are the same table (`ext_get?`). The lists of its names and of its entries are settled by what
stands in them for the same reason: a list that a strict order runs along is the only one with its members (`eq_of_strict`).
Entries that ascend already are those of their table (`entries_ofList`).
-/

namespace Chronicle

universe u

/-- Two lists along which one strict order runs are the same if they have the same members. -/
theorem eq_of_strict {α : Type u} {before : α → α → Prop} (hirrefl : ∀ a, ¬before a a)
    (hasymm : ∀ a b, before a b → ¬before b a) {l l' : List α} (hl : l.Pairwise before) (hl' : l'.Pairwise before)
    (h : ∀ a, a ∈ l ↔ a ∈ l') : l = l' := by
  have hnodup : ∀ {l : List α}, l.Pairwise before → l.Nodup := by
    intro l hl
    refine hl.imp ?_
    rintro a b hab rfl
    exact hirrefl a hab
  have hperm : l.Perm l' := (List.perm_ext_iff_of_nodup (hnodup hl) (hnodup hl')).mpr h
  exact hperm.eq_of_pairwise (fun a b _ _ hab hba => absurd hba (hasymm a b hab)) hl hl'

namespace KeyMap

/-! ## Writing into ascending entries -/

/-- A name above all others goes to the end. -/
theorem insertEntry_of_above {α : Type} (name : String) (value : α) {entries : List (String × α)}
    (h : ∀ e ∈ entries, e.1 < name) : insertEntry name value entries = entries ++ [(name, value)] := by
  induction entries with
  | nil => rfl
  | cons e rest ih =>
    obtain ⟨habove, hrest⟩ := List.forall_mem_cons.mp h
    simp only [insertEntry]
    rw [if_neg (String.lt_asymm habove), if_neg (String.ne_of_lt habove).symm, ih hrest, List.cons_append]

/-- An entry of the written list is the new one or was there before. -/
theorem mem_insertEntry {α : Type} {name : String} {value : α} {entries : List (String × α)} {e : String × α}
    (h : e ∈ insertEntry name value entries) : e = (name, value) ∨ e ∈ entries := by
  induction entries with
  | nil => simpa [insertEntry] using h
  | cons e' rest ih =>
    simp only [insertEntry] at h
    grind

/-- In an ascending table the names before an entry are below its name. -/
theorem Ascending.below {α : Type u} {before after : List (String × α)} {entry : String × α}
    (h : Ascending (before ++ entry :: after)) : ∀ e ∈ before, e.1 < entry.1 := by
  intro e he
  rw [Ascending, List.map_append, List.pairwise_append] at h
  exact h.2.2 e.1 (List.mem_map_of_mem he) entry.1 (by simp)

/-! ## Entries and names -/

variable {α : Type u}

/-- The entries are what is found. -/
theorem mem_entries_iff {m : KeyMap α} {name : String} {value : α} :
    (name, value) ∈ m.entries ↔ m.get? name = some value := by
  refine ⟨fun h => ?_, mem_entries_of_get?⟩
  obtain ⟨before, after, hsplit⟩ := List.append_of_mem h
  have hbelow : ∀ e ∈ before, e.1 < name := (hsplit ▸ m.ascending : Ascending (before ++ (name, value) :: after)).below
  refine List.lookup_eq_some_iff.mpr ⟨before, after, hsplit, fun e he => ?_⟩
  simpa using (String.ne_of_lt (hbelow e he)).symm

/-- The names are those under which something is found. -/
theorem mem_keys_iff {m : KeyMap α} {name : String} : name ∈ m.keys ↔ (m.get? name).isSome = true := by
  simp only [keys, List.mem_map, Option.isSome_iff_exists, ← mem_entries_iff]
  constructor
  · rintro ⟨e, he, rfl⟩
    exact ⟨e.2, he⟩
  · rintro ⟨value, hvalue⟩
    exact ⟨(name, value), hvalue, rfl⟩

/-- A table is empty just if nothing is found in it. -/
theorem isEmpty_iff {m : KeyMap α} : m.isEmpty = true ↔ ∀ name, m.get? name = none := by
  constructor
  · intro h name
    rw [get?, List.isEmpty_iff.mp h]
    rfl
  · intro h
    refine List.isEmpty_iff.mpr (List.eq_nil_iff_forall_not_mem.mpr fun e he => ?_)
    exact nomatch (h e.1).symm.trans (mem_entries_iff.mp he)

/-- Two tables in which the same is found are the same. -/
theorem ext_get? {m m' : KeyMap α} (h : ∀ name, m.get? name = m'.get? name) : m = m' := by
  have hentries : ∀ e : String × α, e ∈ m.entries ↔ e ∈ m'.entries := fun e => by
    rw [← Prod.eta e, mem_entries_iff, mem_entries_iff, h]
  have hascending : ∀ m : KeyMap α, m.entries.Pairwise fun e e' => e.1 < e'.1 := fun m => List.pairwise_map.mp m.ascending
  refine ext_entries (eq_of_strict ?_ ?_ (hascending m) (hascending m') hentries)
  · exact fun e => String.lt_irrefl e.1
  · exact fun _ _ => String.lt_asymm

/-- A list of ascending names is that of a table if it holds the same names. -/
theorem keys_eq {m : KeyMap α} {names : List String} (hnames : names.Pairwise (· < ·)) (h : ∀ k, k ∈ names ↔ k ∈ m.keys) :
    m.keys = names :=
  (eq_of_strict String.lt_irrefl (fun _ _ => String.lt_asymm) hnames m.ascending h).symm

/-! ## Writing many entries -/

/-- After many entries were written, the names are those that were there before and those of the entries. -/
theorem mem_keys_foldl_insert (m : KeyMap α) (entries : List (String × α)) (name : String) :
    name ∈ (entries.foldl (fun m e => m.insert e.1 e.2) m).keys ↔ name ∈ m.keys ∨ name ∈ entries.map Prod.fst := by
  induction entries generalizing m with
  | nil => simp
  | cons e rest ih =>
    rw [List.foldl_cons, ih, mem_keys_insert, List.map_cons, List.mem_cons]
    grind

/-- Ascending entries that are written behind those of a table stand there as they are. -/
theorem entries_foldl_insert {α : Type} {m : KeyMap α} {entries : List (String × α)} (h : Ascending (m.entries ++ entries)) :
    (entries.foldl (fun m e => m.insert e.1 e.2) m).entries = m.entries ++ entries := by
  induction entries generalizing m with
  | nil => rw [List.foldl_nil, List.append_nil]
  | cons e rest ih =>
    have hinsert : (m.insert e.1 e.2).entries = m.entries ++ [e] := insertEntry_of_above e.1 e.2 h.below
    have hsplit : (m.insert e.1 e.2).entries ++ rest = m.entries ++ e :: rest := by
      rw [hinsert, List.append_assoc, List.singleton_append]
    rw [List.foldl_cons, ih (by rwa [hsplit]), hsplit]

/-- The entries of the table of a list of ascending entries are that list. -/
theorem entries_ofList {α : Type} {entries : List (String × α)} (h : Ascending entries) : (ofList entries).entries = entries :=
  entries_foldl_insert (m := empty) h

/-- The names of two joined tables are those of either. -/
theorem mem_keys_union (m m' : KeyMap α) (name : String) : name ∈ (m.union m').keys ↔ name ∈ m.keys ∨ name ∈ m'.keys :=
  mem_keys_foldl_insert m m'.entries name

/-- The names of the table of a list of entries are theirs. -/
theorem mem_keys_ofList (entries : List (String × α)) (name : String) :
    name ∈ (ofList entries).keys ↔ name ∈ entries.map Prod.fst := by
  refine (mem_keys_foldl_insert empty entries name).trans ⟨fun h => h.resolve_left ?_, Or.inr⟩
  exact List.not_mem_nil

/-- In the table of a function over some names the value of the function is found under these names, and nothing elsewhere. -/
theorem get?_ofList_map (names : List String) (f : String → α) (name : String) :
    (ofList (names.map fun k => (k, f k))).get? name = if name ∈ names then some (f name) else none := by
  have hfold : ∀ m : KeyMap α, ((names.map fun k => (k, f k)).foldl (fun m e => m.insert e.1 e.2) m).get? name =
      if name ∈ names then some (f name) else m.get? name := by
    induction names with
    | nil => exact fun m => rfl
    | cons k rest ih =>
      intro m
      rw [List.map_cons, List.foldl_cons, ih, get?_insert]
      grind
  exact hfold empty

end KeyMap

end Chronicle
