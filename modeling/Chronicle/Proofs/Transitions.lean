import Chronicle.Machine.Definition
import Chronicle.Proofs.Likeness

/-!
# Transitions: the entries of a text are those of its definition

The transitions of a definition can be looked up in its text, along the path of names to an entry. `Document.Reads` says what is
read of a document, and what is found along one more name of the path is read as what is found in the table there; so the entry
that a definition has for an event is the one at the end of the path (`Definition.rel_own`, `Definition.rel_fallback`). An entry
is a string or an object with one target and at most one list of actions (`Target.exists_read_iff`); anything else lets the whole
text fail, wherever it stands (`Definition.isEntry_of_read`). Neither the order of the fields of a record nor members it has no
field for play a part (`Definition.respects`).
-/

namespace Chronicle

namespace Json

/-- What stands in the value of a definition for an event of a state: under the event in the table of the state, else in that of the
whole machine. -/
def transition? (v : Json) (state event : String) : Option Json := v.at? ["states", state, "on", event] <|> v.at? ["on", event]

/-- The string a value is. -/
def string? : Json → Option String
  | .str s => some s
  | _ => none

/-- The actions of an entry: none if nothing stands there, else the strings of an array. -/
def actions? : Option Json → Option (List String)
  | none => some []
  | some (.arr items) => items.mapM string?
  | some _ => none

/-- The entry a value writes: a string is a target without actions; an object has the target as a string and may have actions. -/
def target? : Json → Option Target
  | .str state => some (.bare state)
  | .obj members => do
    let state ← (members.lookup "target").bind string?
    let actions ← actions? (members.lookup "actions")
    return .withActions state actions
  | _ => none

theorem mapM_string? (ss : List String) : (ss.map str).mapM string? = some ss := by
  induction ss with
  | nil => rfl
  | cons s ss ih =>
    rw [List.map_cons, List.mapM_cons, ih]
    rfl

theorem target?_obj {members : List (String × Json)} {state : String} {actions : List String}
    (htarget : members.lookup "target" = some (.str state)) (hactions : actions? (members.lookup "actions") = some actions) :
    (obj members).target? = some (.withActions state actions) := by
  simp only [target?, htarget, hactions]
  rfl

end Json

namespace Document

/-- What is read of a document, with no more arrays and objects inside one another than a text may hold. -/
def Reads {α : Type} [Codec α] (d : Document) (v : α) : Prop := ∃ room ≤ maxNesting, Codec.read room d = .ok v

/-- A document is written as an object. -/
def IsObject (d : Document) : Prop := ∃ members ending, d = .object members ending

/-- What stands in a definition for an event of a state. -/
def transition? (d : Document) (state event : String) : Option Document :=
  d.at? ["states", state, "on", event] <|> d.at? ["on", event]

/-- The entry that the value of a document writes. -/
def target? (d : Document) : Option Target := (d.value? maxNesting).bind Json.target?

/-- A document is written as an entry: as a string, or as an object with one string as target and at most one array of strings as
actions. -/
def IsEntry : Document → Prop
  | .text content => content.isSome
  | .object members _ =>
    (∃ state, named "target" members = [.text (some state)]) ∧ (named "actions" members = [] ∨
      ∃ actions : List String, named "actions" members = [.array (actions.map fun s => .text (some s)) .closed])
  | _ => False

/-- The names of the fields of a definition. -/
def definitionFields : List String := ["id", "initial", "context", "states", "on"]

/-- The state nodes of a definition. -/
def stateNodes (d : Document) : List Document := (named "states" (d.fields definitionFields)).flatMap parts

/-- All entries of a definition: of the tables of its states and of that of the whole machine, of repeated names all. -/
def entries (d : Document) : List Document :=
  (d.stateNodes.flatMap fun node => (named "on" (node.fields ["on"])).flatMap parts) ++
    (named "on" (d.fields definitionFields)).flatMap parts

/-! ## The same fields -/

/-- Two entries with the same fields. -/
def SameEntry : Document → Document → Prop := SameRecord ["target", "actions"] fun _ => Eq

/-- Two state nodes with the same fields, down to the entries. -/
def SameState : Document → Document → Prop := SameRecord ["on"] fun _ => SameTable SameEntry

/-- Two definitions with the same fields, down to the states and the entries. -/
def SameDefinition : Document → Document → Prop :=
  SameRecord definitionFields fun name =>
    if name = "states" then SameTable SameState else if name = "on" then SameTable SameEntry else Eq

/-- What stands in the value of a definition for an event is the value of what stands there in the document. -/
theorem transition?_value? {d : Document} {room : Nat} {v : Json} (h : d.value? room = some v) (state event : String) :
    Option.Rel (fun part w => part.value? room = some w) (d.transition? state event) (v.transition? state event) :=
  rel_orElse (at?_value? h _) (at?_value? h _)

/-! ## Strings and lists of strings -/

theorem string_eq_ok {d : Document} {s : String} : d.string = .ok s ↔ d = .text (some s) := by
  constructor
  · intro h
    cases d with
    | text content =>
      cases content with
      | none => cases h
      | some content =>
        cases h
        rfl
    | _ => cases h
  · rintro rfl
    rfl

theorem mapM_string_eq_ok {items : List Document} {ss : List String} :
    items.mapM string = .ok ss ↔ items = ss.map fun s => .text (some s) := by
  induction items generalizing ss with
  | nil =>
    constructor
    · intro h
      cases h
      rfl
    · intro h
      rw [List.map_eq_nil_iff.mp h.symm]
      rfl
  | cons item items ih =>
    rw [List.mapM_cons, bind_eq_ok]
    constructor
    · rintro ⟨s, hs, h⟩
      obtain ⟨rest, hrest, hss⟩ := bind_eq_ok.mp h
      cases hss
      rw [List.map_cons, ← ih.mp hrest, string_eq_ok.mp hs]
    · intro h
      cases ss with
      | nil => cases h
      | cons s ss =>
        obtain ⟨hitem, hitems⟩ := List.cons.inj h
        exact ⟨s, string_eq_ok.mpr hitem, bind_eq_ok.mpr ⟨ss, ih.mpr hitems, rfl⟩⟩

/-- A list of strings is read from an array of strings, where one more level is allowed. -/
theorem read_strings_iff {room : Nat} {d : Document} {ss : List String} :
    Codec.read room d = .ok ss ↔ room ≠ 0 ∧ d = .array (ss.map fun s => .text (some s)) .closed := by
  constructor
  · intro h
    cases d with
    | array items ending =>
      cases room with
      | zero => cases h
      | succ inner =>
        obtain ⟨ss', hitems, hclose⟩ := bind_eq_ok.mp h
        cases ending with
        | broken => cases hclose
        | closed =>
          cases hclose
          exact ⟨Nat.succ_ne_zero inner, by rw [mapM_string_eq_ok.mp hitems]⟩
    | _ => cases h
  · rintro ⟨hroom, rfl⟩
    obtain ⟨inner, rfl⟩ := Nat.exists_eq_succ_of_ne_zero hroom
    exact bind_eq_ok.mpr ⟨ss, mapM_string_eq_ok.mpr rfl, rfl⟩

/-- The value of an array of strings. -/
theorem values?_strings (room : Nat) (ss : List String) :
    values? room (ss.map fun s => .text (some s)) = some (ss.map .str) := by
  induction ss with
  | nil => rfl
  | cons s ss ih =>
    rw [List.map_cons, values?, ih]
    rfl

end Document

/-! ## Entries -/

namespace Target

open Document (named Respects SameEntry respects_eq)

/-- The fields of an entry that was read from an object. -/
theorem takes_of_read {room : Nat} {members : List (Option String × Document)} {ending : Ending} {state : String}
    {actions : List String} (h : record.read room (.object members ending) = .ok (state, actions, ())) :
    named "target" members = [.text (some state)] ∧
      ((named "actions" members = [] ∧ actions = []) ∨
        named "actions" members = [.array (actions.map fun s => .text (some s)) .closed]) := by
  obtain ⟨inner, -, -, -, htarget, hactions, -⟩ := (Record.read_object_iff (by decide)).mp h
  constructor
  · rcases htarget with ⟨-, habsent⟩ | ⟨d, hparts, hread⟩
    · cases habsent
    · rw [Document.string_eq_ok.mp hread] at hparts
      exact hparts
  · rcases hactions with ⟨hparts, habsent⟩ | ⟨d, hparts, hread⟩
    · cases habsent
      exact Or.inl ⟨hparts, rfl⟩
    · rw [(Document.read_strings_iff.mp hread).2] at hparts
      exact Or.inr hparts

/-- An entry is read from a string, or from an object that is read as a record; in either case the document has a value. -/
theorem read_cases {room : Nat} {d : Document} {t : Target} (h : Codec.read room d = .ok t) :
    (∃ v, d.value? room = some v) ∧
      ((∃ state, d = .text (some state) ∧ t = .bare state) ∨
        ∃ members ending state actions, d = .object members ending ∧ record.read room d = .ok (state, actions, ()) ∧
          t = .withActions state actions) := by
  change Target.read room d = .ok t at h
  unfold Target.read at h
  split at h
  · cases h
  · rename_i hvalue
    refine ⟨Option.ne_none_iff_exists'.mp (by simpa using hvalue), ?_⟩
    split at h
    · rename_i state
      cases h
      exact Or.inl ⟨state, rfl, rfl⟩
    · rename_i members ending
      split at h
      · rename_i state actions hread
        cases h
        exact Or.inr ⟨members, ending, state, actions, rfl, hread, rfl⟩
      · cases h
    · cases h

/-- An entry is read from an object that has a value and is read as a record. -/
theorem read_of_record {room : Nat} {members : List (Option String × Document)} {ending : Ending} {v : Json}
    {state : String} {actions : List String} (hvalue : (Document.object members ending).value? room = some v)
    (hrecord : record.read room (.object members ending) = .ok (state, actions, ())) :
    Codec.read room (Document.object members ending) = .ok (Target.withActions state actions) := by
  show Target.read room (.object members ending) = .ok (.withActions state actions)
  simp only [Target.read, hvalue, Option.isNone_some, Bool.false_eq_true, if_false, hrecord]

/-- An object that is written as an entry and has a value is read as a record. The array of its actions has a value too, so there
is room for the texts in it. -/
theorem exists_record_of_isEntry {room : Nat} {members : List (Option String × Document)} {ending : Ending} {v : Json}
    (hvalue : (Document.object members ending).value? room = some v) (hentry : (Document.object members ending).IsEntry) :
    ∃ state actions, record.read room (.object members ending) = .ok (state, actions, ()) := by
  obtain ⟨⟨state, htarget⟩, hactions⟩ := hentry
  obtain ⟨inner, rfl, hclosed, hskips, -⟩ := Record.legible_object (r := record) (by decide) (Or.inr ⟨v, hvalue⟩)
  obtain ⟨inner', hinner, -, hmembers⟩ := Document.members_of_value? hvalue
  cases hinner
  have htakes : ∃ actions : List String, (Field.defaulted "actions" []).Takes inner (named "actions" members) actions := by
    rcases hactions with hnone | ⟨actions, hactions⟩
    · exact ⟨[], Or.inl ⟨hnone, rfl⟩⟩
    · have hmem : (some "actions", .array (actions.map fun s => .text (some s)) .closed) ∈ members := by
        rw [← Document.mem_named, hactions]
        exact List.mem_singleton_self _
      obtain ⟨-, w, hw⟩ := hmembers _ hmem
      obtain ⟨room, rfl, -⟩ := Document.value?_array hw
      have hroom : room + 1 ≠ 0 := Nat.succ_ne_zero room
      exact ⟨actions, Or.inr ⟨_, hactions, Document.read_strings_iff.mpr ⟨hroom, rfl⟩⟩⟩
  obtain ⟨actions, htakes⟩ := htakes
  refine ⟨state, actions, (Record.read_object_iff (by decide)).mpr ⟨inner, rfl, hclosed, hskips, ?_, htakes, trivial⟩⟩
  exact Or.inr ⟨_, htarget, rfl⟩

/-- An entry is read of just what is written as one and has a value. -/
theorem exists_read_iff {room : Nat} {d : Document} :
    (∃ t : Target, Codec.read room d = .ok t) ↔ d.IsEntry ∧ ∃ v, d.value? room = some v := by
  constructor
  · rintro ⟨t, hread⟩
    obtain ⟨hvalue, hcases⟩ := read_cases hread
    refine ⟨?_, hvalue⟩
    rcases hcases with ⟨state, rfl, -⟩ | ⟨members, ending, state, actions, rfl, hrecord, -⟩
    · rfl
    · obtain ⟨htarget, hactions⟩ := takes_of_read hrecord
      refine ⟨⟨state, htarget⟩, ?_⟩
      rcases hactions with ⟨hnone, -⟩ | hactions
      · exact Or.inl hnone
      · exact Or.inr ⟨actions, hactions⟩
  · rintro ⟨hentry, v, hvalue⟩
    cases d with
    | text content =>
      obtain ⟨state, rfl⟩ := Option.isSome_iff_exists.mp hentry
      exact ⟨.bare state, rfl⟩
    | object members ending =>
      obtain ⟨state, actions, hrecord⟩ := exists_record_of_isEntry hvalue hentry
      exact ⟨.withActions state actions, read_of_record hvalue hrecord⟩
    | _ => cases hentry

theorem isEntry_of_read {room : Nat} {d : Document} {t : Target} (h : Codec.read room d = .ok t) : d.IsEntry :=
  (exists_read_iff.mp ⟨t, h⟩).1

/-- Every member of what is read as a table of entries is written as an entry. -/
theorem isEntry_of_table {room : Nat} {table : Document} {transitions : KeyMap Target}
    (h : Codec.read room table = .ok transitions) : ∀ e ∈ table.parts, e.IsEntry := by
  intro e he
  obtain ⟨inner, -, hparts⟩ := Document.readable_of_table h
  obtain ⟨t, ht⟩ := hparts e he
  exact isEntry_of_read ht

/-- From an entry with the same fields the same entry is read. -/
theorem respects : Respects (Codec.read (α := Target)) SameEntry := by
  rintro room d d' t hread (rfl | ⟨members, ending, members', ending', rfl, rfl, hsame⟩) hlegible
  · exact hread
  · have hvalue : ∃ v, (Document.object members' ending').value? room = some v := by
      rcases hlegible with ⟨t', hread'⟩ | hvalue
      · exact (read_cases hread').1
      · exact hvalue
    rcases (read_cases hread).2 with ⟨state, htext, -⟩ | ⟨_, _, state, actions, -, hrecord, rfl⟩
    · cases htext
    · have hfields : record.All fun field => Respects field.read Eq := ⟨respects_eq, respects_eq, trivial⟩
      have hrecord' : record.read room (.object members' ending') = .ok (state, actions, ()) :=
        Record.respects (by decide) hfields hrecord (Or.inr ⟨members, ending, members', ending', rfl, rfl, hsame⟩)
          (Or.inr hvalue)
      obtain ⟨v, hv⟩ := hvalue
      exact read_of_record hv hrecord'

/-- What is read as an entry is the entry that the value of the document writes. -/
theorem target?_of_reads {d : Document} {t : Target} (h : d.Reads t) : d.target? = some t := by
  obtain ⟨room, hroom, hread⟩ := h
  obtain ⟨⟨v, hvalue⟩, hcases⟩ := read_cases hread
  have hvalue : d.value? maxNesting = some v := Document.value?_mono hvalue hroom
  unfold Document.target?
  rw [hvalue, Option.bind_some]
  rcases hcases with ⟨state, rfl, rfl⟩ | ⟨members, ending, state, actions, rfl, hrecord, rfl⟩
  · cases hvalue
    rfl
  · obtain ⟨htarget, hactions⟩ := takes_of_read hrecord
    obtain ⟨inner, -, ms, -, rfl⟩ := Document.value?_object hvalue
    refine Json.target?_obj ?_ ?_
    · obtain ⟨w, hw, hstate⟩ := Document.lookup_of_named hvalue htarget
      cases hstate
      exact hw
    · rcases hactions with ⟨hnone, rfl⟩ | hactions
      · rw [Document.lookup_of_named_nil hvalue hnone]
        rfl
      · obtain ⟨w, hw, harray⟩ := Document.lookup_of_named hvalue hactions
        obtain ⟨inner, -, vs, hvs, rfl⟩ := Document.value?_array harray
        rw [Document.values?_strings] at hvs
        cases hvs
        rw [hw]
        exact Json.mapM_string? actions

end Target

/-! ## What is found along a path -/

namespace Document

/-- What is found in a table is read as what is found in its object. -/
theorem Reads.table {α : Type} [Codec α] {d : Document} {m : KeyMap α} (h : d.Reads m) (name : String) :
    Option.Rel Reads (d.get? name) (m.get? name) := by
  obtain ⟨room, hroom, hread⟩ := h
  obtain ⟨inner, rfl, hfound⟩ := table_get? hread
  exact rel_imp (hfound name) fun _ _ hpart => ⟨inner, Nat.le_of_succ_le hroom, hpart⟩

/-- So it is in a table that may be `null`, which has nothing then. -/
theorem Reads.tableOrNull {α : Type} [Codec α] {d : Document} {m : Option (KeyMap α)} (h : d.Reads m) (name : String) :
    Option.Rel Reads (d.get? name) ((m.getD ∅).get? name) := by
  obtain ⟨room, hroom, hread⟩ := h
  by_cases hnull : d = .null
  · subst hnull
    have hm : none = m := Except.ok.inj hread
    subst hm
    exact Option.Rel.none
  · rw [Codec.Faithful.read_option hnull] at hread
    obtain ⟨table, htable, rfl⟩ := map_eq_ok.mp hread
    exact Reads.table ⟨room, hroom, htable⟩ name

/-- What is found in the table of a field is read as what is found under the name of the field, and nothing if the field is not
there. -/
theorem rel_of_takes {α : Type} [Codec α] {name : String} {room : Nat} (hroom : room ≤ maxNesting)
    {members : List (Option String × Document)} {m : KeyMap α}
    (h : (Field.defaulted name (∅ : KeyMap α)).Takes room (named name members) m) (ending : Ending) (key : String) :
    Option.Rel Reads (((object members ending).get? name).bind (get? key)) (m.get? key) := by
  have hget := h.get? ending
  rcases hget with ⟨hnone, habsent⟩ | ⟨part, hpart, hread⟩
  · cases habsent
    have hnone : (object members ending).get? name = none := hnone
    rw [hnone]
    exact Option.Rel.none
  · have hpart : (object members ending).get? name = some part := hpart
    rw [hpart]
    exact Reads.table ⟨room, hroom, hread⟩ key

end Document

namespace StateEntry

/-- The entry that a state has for an event is read from what stands under its name in the node. -/
theorem rel_transitions {members : List (Option String × Document)} {ending : Ending} {s : StateEntry}
    (h : (Document.object members ending).Reads s) (key : String) :
    Option.Rel Document.Reads (((Document.object members ending).get? "on").bind (Document.get? key))
      (s.transitions.get? key) := by
  obtain ⟨room, hroom, hread⟩ := h
  obtain ⟨⟨transitions, ⟨⟩⟩, hrecord, rfl⟩ := map_eq_ok.mp hread
  obtain ⟨inner, rfl, -, -, htakes, -⟩ := (Record.read_object_iff (by decide)).mp hrecord
  exact Document.rel_of_takes (Nat.le_of_succ_le hroom) htakes ending key

/-- In what is read as a state, in either form, every entry of the table is written as an entry. -/
theorem isEntry_of_read {room : Nat} {node : Document} {s : StateEntry} (h : Codec.read room node = .ok s) :
    ∀ table ∈ Document.named "on" (node.fields ["on"]), ∀ e ∈ table.parts, e.IsEntry := by
  obtain ⟨slots, hslots, -⟩ := map_eq_ok.mp h
  obtain ⟨inner, -, hreadable, -⟩ := Record.readable_of_read (by decide) hslots
  intro table htable
  obtain ⟨transitions, htransitions⟩ := hreadable table htable
  exact Target.isEntry_of_table htransitions

end StateEntry

namespace Definition

variable {C : Type} [Codec C]

theorem nodup_names : (record C).names.Nodup := by
  show Document.definitionFields.Nodup
  decide

/-- A definition that was read from an object takes its fields from what stands under their names. -/
theorem takes_of_reads {members : List (Option String × Document)} {ending : Ending} {d : Definition C}
    (h : (Document.object members ending).Reads d) :
    ∃ room ≤ maxNesting, (record C).Takes room members (d.id, d.initial, d.context, d.states, d.fallback, ()) := by
  obtain ⟨room, hroom, hread⟩ := h
  obtain ⟨⟨id, initial, context, states, fallback, ⟨⟩⟩, hrecord, rfl⟩ := map_eq_ok.mp hread
  obtain ⟨inner, rfl, -, -, htakes⟩ := (Record.read_object_iff nodup_names).mp hrecord
  exact ⟨inner, Nat.le_of_succ_le hroom, htakes⟩

/-- The entry that a state has for an event of its own is read from what stands at the end of the path to it, if the nodes of the
states are written as objects. -/
theorem rel_own {members : List (Option String × Document)} {ending : Ending} {d : Definition C}
    (h : (Document.object members ending).Reads d)
    (hnodes : ∀ node ∈ (Document.object members ending).stateNodes, node.IsObject)
    (state key : String) :
    Option.Rel Document.Reads ((Document.object members ending).at? ["states", state, "on", key]) ((d.own state).get? key) := by
  obtain ⟨room, hroom, -, -, -, hstates, -⟩ := takes_of_reads h
  have hpath : (Document.object members ending).at? ["states", state, "on", key] =
      (((Document.object members ending).get? "states").bind (Document.get? state)).bind fun node =>
        (node.get? "on").bind (Document.get? key) := by
    simp [Document.at?, Option.bind_assoc]
  have hown : (d.own state).get? key = (d.states.get? state).bind fun entry => entry.transitions.get? key := by
    unfold own
    cases d.states.get? state <;> rfl
  rw [hpath, hown]
  refine rel_bind (Document.rel_of_takes hroom hstates ending state) fun node entry hnode hreads => ?_
  obtain ⟨states, hfound, hnode⟩ := Option.bind_eq_some_iff.mp hnode
  have hmem : node ∈ (Document.object members ending).stateNodes :=
    List.mem_flatMap.mpr ⟨states, Document.mem_of_get? hfound, Document.mem_parts_of_get? hnode⟩
  obtain ⟨fields, ending', rfl⟩ := hnodes node hmem
  exact StateEntry.rel_transitions hreads key

/-- The entry that the whole machine has for an event is read from what stands at the end of the path to it. -/
theorem rel_fallback {members : List (Option String × Document)} {ending : Ending} {d : Definition C}
    (h : (Document.object members ending).Reads d) (key : String) :
    Option.Rel Document.Reads ((Document.object members ending).at? ["on", key]) ((d.fallback.getD ∅).get? key) := by
  obtain ⟨room, hroom, -, -, -, -, hfallback, -⟩ := takes_of_reads h
  have hpath : (Document.object members ending).at? ["on", key] =
      ((Document.object members ending).get? "on").bind (Document.get? key) := by
    simp [Document.at?]
  rw [hpath]
  rcases hfallback.get? ending with ⟨hnone, habsent⟩ | ⟨part, hpart, hread⟩
  · have hnone : (Document.object members ending).get? "on" = none := hnone
    have habsent : none = d.fallback := Option.some.inj habsent
    rw [hnone, ← habsent]
    exact Option.Rel.none
  · have hpart : (Document.object members ending).get? "on" = some part := hpart
    have hread : Codec.read room part = .ok d.fallback := hread
    rw [hpart]
    exact Document.Reads.tableOrNull ⟨room, hroom, hread⟩ key

/-- The entry of a definition for an event of a state is the one at the end of the path to it in the document: that of the state,
else that of the whole machine, else none. -/
theorem rel_resolve {members : List (Option String × Document)} {ending : Ending} {d : Definition C}
    (h : (Document.object members ending).Reads d)
    (hnodes : ∀ node ∈ (Document.object members ending).stateNodes, node.IsObject)
    (state key : String) :
    Option.Rel Document.Reads ((Document.object members ending).transition? state key) (d.resolve state key) :=
  rel_orElse (rel_own h hnodes state key) (rel_fallback h key)

/-! ## The same fields -/

/-- From a definition with the same fields the same definition is read. -/
theorem respects : Document.Respects (Codec.read (α := Definition C)) Document.SameDefinition := by
  have hentries : Document.Respects (Codec.read (α := KeyMap Target)) (Document.SameTable Document.SameEntry) :=
    Target.respects.table
  have hnode : Document.Respects (Codec.read (α := StateEntry)) Document.SameState := by
    have hfields : StateEntry.record.All fun field => Document.Respects field.read (Document.SameTable Document.SameEntry) :=
      ⟨hentries, trivial⟩
    exact (Record.respects (by decide) hfields).map _
  have hstates : Document.Respects (Codec.read (α := KeyMap StateEntry)) (Document.SameTable Document.SameState) := hnode.table
  refine (Record.respects (nodup_names (C := C)) ⟨?_, ?_, ?_, ?_, ?_, trivial⟩).map _
  · exact Document.respects_eq
  · exact Document.respects_eq
  · exact Document.respects_eq
  · exact hstates
  · exact hentries.option fun _ _ => Document.sameTable_null_iff

/-! ## Every entry -/

/-- Every entry of a document that was read as a definition is written as an entry. -/
theorem isEntry_of_read {room : Nat} {doc : Document} {d : Definition C} (h : Codec.read room doc = .ok d) :
    ∀ e ∈ doc.entries, e.IsEntry := by
  obtain ⟨fields, hrecord, -⟩ := map_eq_ok.mp h
  obtain ⟨inner, -, -, -, -, hstates, hon, -⟩ := Record.readable_of_read nodup_names hrecord
  intro e he
  rcases List.mem_append.mp he with he | he
  · obtain ⟨node, hnode, he⟩ := List.mem_flatMap.mp he
    obtain ⟨table, htable, he⟩ := List.mem_flatMap.mp he
    obtain ⟨states, hmem, hnode⟩ := List.mem_flatMap.mp hnode
    obtain ⟨entries, hentries⟩ := hstates states hmem
    obtain ⟨inner', -, hparts⟩ := Document.readable_of_table hentries
    obtain ⟨entry, hentry⟩ := hparts node hnode
    exact StateEntry.isEntry_of_read hentry table htable e he
  · obtain ⟨table, hmem, he⟩ := List.mem_flatMap.mp he
    obtain ⟨fallback, hread⟩ := hon table hmem
    by_cases hnull : table = .null
    · subst hnull
      cases he
    · have hread : Codec.read inner table = .ok fallback := hread
      rw [Codec.Faithful.read_option hnull] at hread
      obtain ⟨transitions, htransitions, -⟩ := map_eq_ok.mp hread
      exact Target.isEntry_of_table htransitions e he

/-! ## From text to table -/

/-- The transitions of a definition are those of its text.

1. For every event of every state the definition has the entry that stands in the text at the end of the path to it: in the table
   of the state, else in that of the whole machine, else none. Of a repeated name the last counts; where a name is absent, or `null`
   stands for the table of the whole machine, nothing is found. The path may be followed in the document or in the value of the
   text.
2. Every text that can be read, as a definition or as a value at all, and has the same fields, in whatever order and among whatever
   members, has the same definition.
3. A text with an entry, of a state or of the whole machine, under a repeated name or not, that is neither a string nor an object
   with one string as target and at most one array of strings as actions, has no definition. -/
theorem transitions_read_as_written (text : String) :
    (∀ d : Definition C, Codec.ofText text = .ok d → (Document.ofText text).1.IsObject →
      (∀ node ∈ (Document.ofText text).1.stateNodes, node.IsObject) → ∀ state event : String,
        ((Document.ofText text).1.transition? state event).map Document.target? = (d.resolve state event).map some ∧
        ∀ v : Json, Codec.ofText text = .ok v →
          (v.transition? state event).map Json.target? = (d.resolve state event).map some) ∧
    (∀ (d : Definition C) (text' : String), Codec.ofText text = .ok d →
      Document.SameDefinition (Document.ofText text).1 (Document.ofText text').1 →
      ((∃ d' : Definition C, Codec.ofText text' = .ok d') ∨ ∃ v : Json, Codec.ofText text' = .ok v) →
        Codec.ofText text' = .ok d) ∧
    ((∃ e ∈ (Document.ofText text).1.entries, ¬e.IsEntry) →
      ∃ fault, (Codec.ofText text : Except Fault (Definition C)) = .error fault) := by
  refine ⟨fun d h hobject hnodes state event => ?_, fun d text' h hsame hlegible => ?_, ?_⟩
  · have hread := Codec.read_of_ofText h
    obtain ⟨members, ending, hdocument⟩ := hobject
    rw [hdocument] at hread hnodes ⊢
    have hfound := rel_resolve ⟨maxNesting, Nat.le_refl _, hread⟩ hnodes state event
    have hentry : ((Document.object members ending).transition? state event).map Document.target? =
        (d.resolve state event).map some := map_eq_map_of_rel hfound fun _ _ => Target.target?_of_reads
    refine ⟨hentry, fun v hv => ?_⟩
    have hvalue : (Document.object members ending).value? maxNesting = some v := by
      rw [← hdocument]
      exact Document.read_json_iff.mp (Codec.read_of_ofText hv)
    rw [← hentry]
    refine (map_eq_map_of_rel (Document.transition?_value? hvalue state event) fun e w hw => ?_).symm
    show (e.value? maxNesting).bind Json.target? = w.target?
    rw [hw, Option.bind_some]
  · exact respects.ofText h hsame hlegible
  · rintro ⟨e, he, hentry⟩
    cases hread : (Codec.ofText text : Except Fault (Definition C)) with
    | error fault => exact ⟨fault, rfl⟩
    | ok d => exact absurd (isEntry_of_read (Codec.read_of_ofText hread) e he) hentry

/-- A state that is written twice, the second time with an entry whose actions stand before its target, among fields out of order
and a member that no field has; the same fields in their order and nothing else; and a number for an entry, which another entry of
the same name follows. -/
theorem transitions_read_as_written_twice :
    let states : Json := .obj [("idle", .obj [("on", .obj [("GO", .str "lost"), ("STOP", .str "idle")])]),
      ("idle", .obj [("on", .obj [("GO", .obj [("actions", .arr [.str "log"]), ("target", .str "busy")])])])]
    let fallback : Json := .obj [("STOP", .str "off")]
    let mixed : Json := .obj [("on", fallback), ("more", .arr [.null]), ("states", states), ("context", .null),
      ("initial", .str "idle")]
    let ordered : Json := .obj [("initial", .str "idle"), ("context", .null), ("states", states), ("on", fallback)]
    let numbered : Json := .obj [("initial", .str "idle"), ("context", .null),
      ("on", .obj [("GO", .int 1), ("GO", .str "busy")])]
    let d : Definition Json :=
      Definition.withState { initial := "idle", context := .null, fallback := some (KeyMap.insert ∅ "STOP" (.bare "off")) }
        "idle" (StateEntry.on {} "GO" (.withActions "busy" ["log"]))
    (Codec.ofText mixed.render = .ok d ∧ (Document.ofText mixed.render).1.IsObject ∧
      (∀ node ∈ (Document.ofText mixed.render).1.stateNodes, node.IsObject) ∧
      Document.SameDefinition (Document.ofText mixed.render).1 (Document.ofText ordered.render).1 ∧
      (∃ v : Json, Codec.ofText ordered.render = .ok v) ∧
      ∃ e ∈ (Document.ofText numbered.render).1.entries, ¬e.IsEntry) ∧
    ((Document.ofText mixed.render).1.transition? "idle" "GO").map Document.target? = (d.resolve "idle" "GO").map some ∧
    Codec.ofText ordered.render = .ok d ∧
    ∃ fault, (Codec.ofText numbered.render : Except Fault (Definition Json)) = .error fault := by
  intro states fallback mixed ordered numbered d
  have hmixed : Document.ofText mixed.render = (.ofJson mixed, true) := Document.ofText_render ⟨by decide, by decide⟩
  have hordered : Document.ofText ordered.render = (.ofJson ordered, true) := Document.ofText_render ⟨by decide, by decide⟩
  have hnumbered : Document.ofText numbered.render = (.ofJson numbered, true) := Document.ofText_render ⟨by decide, by decide⟩
  have hread : Codec.ofText mixed.render = .ok d := by
    rw [Codec.ofText_eq_ok, hmixed]
    exact ⟨rfl, rfl⟩
  have hobject : (Document.ofText mixed.render).1.IsObject := by
    rw [hmixed]
    exact ⟨_, _, rfl⟩
  have hnodes : ∀ node ∈ (Document.ofText mixed.render).1.stateNodes, node.IsObject := by
    rw [hmixed]
    exact List.forall_mem_cons.mpr ⟨⟨_, _, rfl⟩, List.forall_mem_singleton.mpr ⟨_, _, rfl⟩⟩
  have hsame : Document.SameDefinition (Document.ofText mixed.render).1 (Document.ofText ordered.render).1 := by
    rw [hmixed, hordered]
    refine Or.inr ⟨_, _, _, _, rfl, rfl, List.forall_mem_cons.mpr ⟨?_, List.forall_mem_cons.mpr ⟨?_,
      List.forall_mem_cons.mpr ⟨?_, List.forall_mem_cons.mpr ⟨?_, List.forall_mem_singleton.mpr ?_⟩⟩⟩⟩⟩
    · exact List.Forall₂.nil
    · exact List.Forall₂.cons rfl List.Forall₂.nil
    · exact List.Forall₂.cons rfl List.Forall₂.nil
    · exact List.Forall₂.cons (Or.inl rfl) List.Forall₂.nil
    · exact List.Forall₂.cons (Or.inl rfl) List.Forall₂.nil
  have hvalue : ∃ v : Json, Codec.ofText ordered.render = .ok v := by
    have hroom : ordered.nesting ≤ maxNesting := by decide
    obtain ⟨v, hv⟩ := Option.isSome_iff_exists.mp (Document.isSome_value?_ofJson hroom)
    refine ⟨v, Codec.ofText_eq_ok.mpr ?_⟩
    rw [hordered]
    exact ⟨rfl, Document.read_json_iff.mpr hv⟩
  have hentry : ∃ e ∈ (Document.ofText numbered.render).1.entries, ¬e.IsEntry := by
    rw [hnumbered]
    exact ⟨.int 1, List.mem_cons_self, fun h => h⟩
  exact ⟨⟨hread, hobject, hnodes, hsame, hvalue, hentry⟩,
    ((transitions_read_as_written mixed.render).1 d hread hobject hnodes "idle" "GO").1,
    (transitions_read_as_written mixed.render).2.1 d ordered.render hread hsame (Or.inr hvalue),
    (transitions_read_as_written numbered.render).2.2 hentry⟩

end Definition

end Chronicle
