import Chronicle.Machine.Validation

/-!
# Validity: what the tables of a machine hold

A machine is a definition without problems, whichever way it was made. `problems_eq_nil` says what that comes to: the initial
state is not blank, and every entry of every table, of a state or of the whole machine, is in order. An entry that is found is
such an entry (`lookup_cases`), so no event is ever found under a reserved key, and none leads to a blank state
(`resolve_sound`).
-/

namespace Chronicle

/-- The keys that no machine has an entry for. -/
def Reserved (k : String) : Prop := k = overrideKey ∨ k = ""

/-- A transition is in order if its key is not reserved and neither its state nor any of its actions is blank. -/
theorem Target.problems_eq_nil {state event : String} {t : Target} :
    t.problems state event = [] ↔
      ¬Reserved event ∧ Text.isBlank t.state = false ∧ t.actions.any Text.isBlank = false := by
  unfold Target.problems Reserved
  by_cases hempty : event = ""
  · simp [hempty]
  · by_cases hforced : event = overrideKey
    · simp [hforced]
    · cases Text.isBlank t.state <;> cases t.actions.any Text.isBlank <;> simp [hempty, hforced]

namespace Definition

variable {C : Type}

/-- A table is in order if all its entries are. -/
theorem tableProblems_eq_nil {state : String} {table : KeyMap Target} :
    tableProblems state table = [] ↔ ∀ e ∈ table.entries, e.2.problems state e.1 = [] := List.flatMap_eq_nil_iff

/-- A definition is in order if its initial state is not blank and all its tables are in order. -/
theorem problems_eq_nil {d : Definition C} :
    d.problems = [] ↔ Text.isBlank d.initial = false ∧
      (∀ e ∈ d.states.entries, tableProblems e.1 e.2.transitions = []) ∧
      tableProblems machineScope (d.fallback.getD ∅) = [] := by
  unfold problems
  cases Text.isBlank d.initial <;> simp [List.flatMap_eq_nil_iff]

/-- An entry that is found stands in the table of the state or in that of the whole machine. -/
theorem lookup_cases {d : Definition C} {state k : String} {t : Target} (h : d.lookup state k = some t) :
    (∃ entry, (state, entry) ∈ d.states.entries ∧ (k, t) ∈ entry.transitions.entries) ∨
      (k, t) ∈ (d.fallback.getD ∅).entries := by
  simp only [lookup, own, Option.orElse_eq_orElse, Option.orElse_eq_or, Option.or_eq_some_iff] at h
  rcases h with hown | ⟨-, hfallback⟩
  · left
    cases hstate : d.states.get? state with
    | none =>
      rw [hstate] at hown
      cases hown
    | some entry =>
      rw [hstate] at hown
      exact ⟨entry, KeyMap.mem_entries_of_get? hstate, KeyMap.mem_entries_of_get? hown⟩
  · exact Or.inr (KeyMap.mem_entries_of_get? hfallback)

/-- In a definition that is in order, an entry that is found is in order. -/
theorem lookup_sound {d : Definition C} (hd : d.problems = []) {state k : String} {t : Target}
    (h : d.lookup state k = some t) : ∃ scope, t.problems scope k = [] := by
  obtain ⟨-, hstates, hfallback⟩ := problems_eq_nil.mp hd
  rcases lookup_cases h with ⟨entry, hentry, ht⟩ | ht
  · exact ⟨state, tableProblems_eq_nil.mp (hstates _ hentry) _ ht⟩
  · exact ⟨machineScope, tableProblems_eq_nil.mp hfallback _ ht⟩

end Definition

namespace Machine

variable {C E : Type}

/-- A definition is accepted just if it is in order, and then as it is. -/
theorem ofDefinition_eq_ok {d : Definition C} {m : Machine C} :
    ofDefinition d = .ok m ↔ d.problems = [] ∧ m.definition = d := by
  unfold ofDefinition
  split
  · rename_i hd
    constructor
    · rintro h
      cases h
      exact ⟨hd, rfl⟩
    · rintro ⟨-, rfl⟩
      rfl
  · rename_i hd
    exact ⟨nofun, fun h => absurd h.1 hd⟩

/-- A definition is refused just if it has problems, and then with all of them. -/
theorem ofDefinition_eq_error {d : Definition C} {problems : List Problem} :
    ofDefinition d = .error problems ↔ problems = d.problems ∧ problems ≠ [] := by
  unfold ofDefinition
  split
  · rename_i hd
    exact ⟨nofun, fun ⟨hproblems, hne⟩ => absurd (hproblems.trans hd) hne⟩
  · rename_i hd
    constructor
    · rintro h
      cases h
      exact ⟨rfl, hd⟩
    · rintro ⟨rfl, -⟩
      rfl

variable [EventKey E]

/-- The initial state of a machine is not blank. -/
theorem initial_not_blank (m : Machine C) : Text.isBlank m.initial = false := (Definition.problems_eq_nil.mp m.valid).1

/-- An event that is found is not found under a reserved key, and does not lead to a blank state. -/
theorem resolve_sound {m : Machine C} {state : String} {e : E} {t : Target} (h : m.resolve state e = some t) :
    ¬Reserved (key e) ∧ Text.isBlank t.state = false := by
  obtain ⟨scope, hproblems⟩ := Definition.lookup_sound m.valid h
  obtain ⟨hkey, hstate, -⟩ := Target.problems_eq_nil.mp hproblems
  exact ⟨hkey, hstate⟩

/-- An event with a reserved key is found nowhere. -/
theorem resolve_reserved (m : Machine C) (state : String) {e : E} (he : Reserved (key e)) : m.resolve state e = none := by
  cases hfound : m.resolve state e with
  | none => rfl
  | some t => exact absurd he (resolve_sound hfound).1

/-- An event that leads on has no reserved key and does not lead to a blank state. -/
theorem next_sound {m : Machine C} {state target : String} {e : E} (h : m.next state e = some target) :
    ¬Reserved (key e) ∧ Text.isBlank target = false := by
  obtain ⟨t, ht, rfl⟩ := Option.map_eq_some_iff.mp h
  exact resolve_sound ht

end Machine

end Chronicle
