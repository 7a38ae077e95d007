import Chronicle.Proofs.Tables
import Chronicle.Proofs.Validity

/-!
# Problems: each reported once, in order

A definition is looked at in places: its initial state, and every entry of every table with each of four checks. The places
have an order (`Place.Before`), and a place is faulty if what is found there in the definition fails its check (`Place.Faulty`).
Neither speaks of the list of problems. A strict order runs along a list of the faulty places in one way only, so what is to be
reported, how often and in what order is settled by these two. It is reported because the problems are read off a list of places
(`map_places`) that is this one (`lists_places`).
-/

namespace Chronicle

/-- What is looked at in an entry, in this order. -/
inductive Check where
  | emptyKey
  | reservedKey
  | target
  | actions
deriving DecidableEq

namespace Check

/-- All checks, in their order. -/
def all : List Check := [.emptyKey, .reservedKey, .target, .actions]

/-- The number of a check in their order. -/
def rank : Check → Nat
  | .emptyKey => 0
  | .reservedKey => 1
  | .target => 2
  | .actions => 3

/-- Whether an entry fails a check: some action being blank is one failure, however many are. -/
def fails (event : String) (t : Target) : Check → Bool
  | .emptyKey => event = ""
  | .reservedKey => event = overrideKey
  | .target => Text.isBlank t.state
  | .actions => t.actions.any Text.isBlank

/-- The problem of an entry that fails a check. -/
def problem (scope event : String) : Check → Problem
  | .emptyKey => .emptyEventKey scope
  | .reservedKey => .reservedEventKey scope event
  | .target => .emptyTarget scope event
  | .actions => .emptyActionName scope event

theorem mem_all (check : Check) : check ∈ all := by cases check <;> decide

end Check

/-- Whose table an entry stands in. -/
inductive Scope where
  | state (name : String)
  | machine
deriving DecidableEq

namespace Scope

/-- The name a scope is reported under. -/
def name : Scope → String
  | .state name => name
  | .machine => machineScope

/-- States come in the order of their names, and the whole machine comes last. -/
def Before : Scope → Scope → Prop
  | .state name, .state name' => name < name'
  | .state _, .machine => True
  | .machine, _ => False

theorem before_irrefl (s : Scope) : ¬s.Before s := by
  cases s with
  | state name => exact String.lt_irrefl name
  | machine => exact id

theorem before_asymm {s s' : Scope} (h : s.Before s') : ¬s'.Before s := by
  cases s with
  | state name =>
    cases s' with
    | state name' => exact String.lt_asymm h
    | machine => exact id
  | machine => exact absurd h id

end Scope

/-- A place of a definition that is looked at. -/
inductive Place where
  | initial
  | entry (scope : Scope) (event : String) (check : Check)

namespace Place

/-- The initial state comes first, then the entries by scope, event and check. -/
inductive Before : Place → Place → Prop where
  | initial (scope : Scope) (event : String) (check : Check) : Before .initial (.entry scope event check)
  | scope {s s' : Scope} (h : s.Before s') (event event' : String) (check check' : Check) :
      Before (.entry s event check) (.entry s' event' check')
  | event (s : Scope) {event event' : String} (h : event < event') (check check' : Check) :
      Before (.entry s event check) (.entry s event' check')
  | check (s : Scope) (event : String) {check check' : Check} (h : check.rank < check'.rank) :
      Before (.entry s event check) (.entry s event check')

theorem before_irrefl (p : Place) : ¬p.Before p := by
  rintro h
  cases h with
  | scope h => exact Scope.before_irrefl _ h
  | event _ h => exact String.lt_irrefl _ h
  | check _ _ h => exact Nat.lt_irrefl _ h

theorem before_asymm {p p' : Place} (h : p.Before p') : ¬p'.Before p := by
  intro h'
  cases h with
  | initial => cases h'
  | scope h =>
    cases h' with
    | scope h' => exact Scope.before_asymm h h'
    | event => exact Scope.before_irrefl _ h
    | check => exact Scope.before_irrefl _ h
  | event _ h =>
    cases h' with
    | scope h' => exact Scope.before_irrefl _ h'
    | event _ h' => exact String.lt_asymm h h'
    | check => exact String.lt_irrefl _ h
  | check _ _ h =>
    cases h' with
    | scope h' => exact Scope.before_irrefl _ h'
    | event _ h' => exact String.lt_irrefl _ h'
    | check _ _ h' => exact Nat.lt_asymm h h'

/-- What is reported of a place. -/
def problem : Place → Problem
  | .initial => .missingInitial
  | .entry scope event check => check.problem scope.name event

end Place

variable {C : Type}

namespace Definition

/-- The table of a scope. -/
def table? (d : Definition C) : Scope → Option (KeyMap Target)
  | .state name => (d.states.get? name).map StateEntry.transitions
  | .machine => d.fallback

end Definition

/-- A place is faulty if the initial state is blank, or if there is such an entry and it fails the check. -/
def Place.Faulty (d : Definition C) : Place → Prop
  | .initial => Text.isBlank d.initial = true
  | .entry scope event check => ∃ table t, d.table? scope = some table ∧ table.get? event = some t ∧ check.fails event t = true

namespace Definition

/-- The faulty places, each once and in their order. -/
structure Lists (d : Definition C) (places : List Place) : Prop where
  ordered : places.Pairwise Place.Before
  faulty : ∀ p, p ∈ places ↔ p.Faulty d

/-- There is one way to list the faulty places. -/
theorem Lists.unique {d : Definition C} {places places' : List Place} (h : d.Lists places) (h' : d.Lists places') :
    places' = places :=
  eq_of_strict Place.before_irrefl (fun _ _ => Place.before_asymm) h'.ordered h.ordered fun p =>
    (h'.faulty p).trans (h.faulty p).symm

/-! ## Listing the faulty places -/

/-- The faulty places of an entry. -/
def entryPlaces (scope : Scope) (event : String) (t : Target) : List Place :=
  (Check.all.filter fun check => check.fails event t).map (.entry scope event)

/-- The faulty places of a table. -/
def tablePlaces (scope : Scope) (table : KeyMap Target) : List Place :=
  table.entries.flatMap fun e => entryPlaces scope e.1 e.2

/-- The tables of a definition with their scopes, those of the states first. -/
def tables (d : Definition C) : List (Scope × KeyMap Target) :=
  (d.states.entries.map fun e => (.state e.1, e.2.transitions)) ++ d.fallback.toList.map fun table => (.machine, table)

/-- The faulty places of a definition. -/
def places (d : Definition C) : List Place :=
  (if Text.isBlank d.initial then [.initial] else []) ++ d.tables.flatMap fun t => tablePlaces t.1 t.2

/-- The problems of an entry are those of its faulty places. -/
theorem map_entryPlaces (scope : Scope) (event : String) (t : Target) :
    (entryPlaces scope event t).map Place.problem = t.problems scope.name event := by
  have hcheck : ∀ (check : Check) (rest : List Check),
      (((check :: rest).filter fun check => check.fails event t).map (Place.entry scope event)).map Place.problem =
        (if check.fails event t then [check.problem scope.name event] else []) ++
          ((rest.filter fun check => check.fails event t).map (Place.entry scope event)).map Place.problem := by
    intro check rest
    cases h : check.fails event t <;> simp [h, Place.problem]
  rw [entryPlaces, Check.all, hcheck, hcheck, hcheck, hcheck, Target.problems]
  simp only [Check.fails, Check.problem, decide_eq_true_eq, List.append_assoc, List.filter_nil, List.map_nil, List.append_nil]
  rfl

/-- The problems of a table are those of its faulty places. -/
theorem map_tablePlaces (scope : Scope) (table : KeyMap Target) :
    (tablePlaces scope table).map Place.problem = tableProblems scope.name table := by
  rw [tablePlaces, List.map_flatMap, tableProblems]
  simp only [map_entryPlaces]

/-- The problems of a definition are those of its faulty places. -/
theorem map_places (d : Definition C) : d.places.map Place.problem = d.problems := by
  have hmachine : (d.fallback.toList.flatMap fun table => tableProblems machineScope table) =
      tableProblems machineScope (d.fallback.getD ∅) := by
    cases d.fallback with
    | none => rfl
    | some table => exact List.append_nil _
  simp only [places, tables, problems, List.map_append, List.map_flatMap, List.flatMap_append, List.flatMap_map,
    map_tablePlaces, Scope.name, hmachine, List.append_assoc]
  cases Text.isBlank d.initial <;> rfl

/-- A place is listed for an entry just if it is one of the entry and the entry fails its check. -/
theorem mem_entryPlaces {scope : Scope} {event : String} {t : Target} {p : Place} :
    p ∈ entryPlaces scope event t ↔ ∃ check, p = .entry scope event check ∧ check.fails event t = true := by
  simp only [entryPlaces, List.mem_map, List.mem_filter]
  constructor
  · rintro ⟨check, ⟨-, hfails⟩, rfl⟩
    exact ⟨check, rfl, hfails⟩
  · rintro ⟨check, rfl, hfails⟩
    exact ⟨check, ⟨check.mem_all, hfails⟩, rfl⟩

/-- A place is listed for a table just if it is one of an entry that is found in the table and fails its check. -/
theorem mem_tablePlaces {scope : Scope} {table : KeyMap Target} {p : Place} :
    p ∈ tablePlaces scope table ↔
      ∃ event check t, p = .entry scope event check ∧ table.get? event = some t ∧ check.fails event t = true := by
  simp only [tablePlaces, List.mem_flatMap, mem_entryPlaces]
  constructor
  · rintro ⟨⟨event, t⟩, hentry, check, rfl, hfails⟩
    exact ⟨event, check, t, rfl, KeyMap.mem_entries_iff.mp hentry, hfails⟩
  · rintro ⟨event, check, t, rfl, hfound, hfails⟩
    exact ⟨(event, t), KeyMap.mem_entries_iff.mpr hfound, check, rfl, hfails⟩

/-- The places of a table are listed in their order. -/
theorem tablePlaces_ordered (scope : Scope) (table : KeyMap Target) : (tablePlaces scope table).Pairwise Place.Before := by
  refine List.pairwise_flatMap.mpr ⟨fun e _ => ?_, ?_⟩
  · have hranks : Check.all.Pairwise fun check check' => check.rank < check'.rank := by decide
    exact List.pairwise_map.mpr ((hranks.filter _).imp fun h => .check scope e.1 h)
  · refine (List.pairwise_map.mp table.ascending).imp fun {e e'} hlt p hp p' hp' => ?_
    obtain ⟨check, rfl, -⟩ := mem_entryPlaces.mp hp
    obtain ⟨check', rfl, -⟩ := mem_entryPlaces.mp hp'
    exact .event scope hlt check check'

/-- The places of one scope come before those of a later one. -/
theorem tablePlaces_before {s s' : Scope} (h : s.Before s') {table table' : KeyMap Target} :
    ∀ p ∈ tablePlaces s table, ∀ p' ∈ tablePlaces s' table', p.Before p' := by
  intro p hp p' hp'
  obtain ⟨event, check, -, rfl, -⟩ := mem_tablePlaces.mp hp
  obtain ⟨event', check', -, rfl, -⟩ := mem_tablePlaces.mp hp'
  exact .scope h event event' check check'

/-- The tables of a definition are those of its scopes. -/
theorem mem_tables {d : Definition C} {scope : Scope} {table : KeyMap Target} :
    (scope, table) ∈ d.tables ↔ d.table? scope = some table := by
  cases scope with
  | state name =>
    simp only [tables, table?, Option.map_eq_some_iff, ← KeyMap.mem_entries_iff]
    simp only [List.mem_append, List.mem_map, Prod.mk.injEq, Scope.state.injEq]
    constructor
    · rintro (⟨e, he, rfl, rfl⟩ | ⟨_, -, hscope, -⟩)
      · exact ⟨e.2, he, rfl⟩
      · cases hscope
    · rintro ⟨entry, hentry, rfl⟩
      exact Or.inl ⟨(name, entry), hentry, rfl, rfl⟩
  | machine => simp [tables, table?]

/-- The tables of a definition stand in the order of their scopes. -/
theorem tables_ordered (d : Definition C) : d.tables.Pairwise fun t t' => t.1.Before t'.1 := by
  have hstates : d.states.entries.Pairwise fun e e' => e.1 < e'.1 := List.pairwise_map.mp d.states.ascending
  refine List.pairwise_append.mpr ⟨List.pairwise_map.mpr hstates, ?_, ?_⟩
  · cases d.fallback with
    | none => exact .nil
    | some table => exact List.pairwise_singleton _ _
  · intro t ht t' ht'
    obtain ⟨e, -, rfl⟩ := List.mem_map.mp ht
    obtain ⟨table, -, rfl⟩ := List.mem_map.mp ht'
    exact trivial

/-- What is listed of a definition are its faulty places, each once and in their order. -/
theorem lists_places (d : Definition C) : d.Lists d.places where
  ordered := by
    refine List.pairwise_append.mpr ⟨?_, List.pairwise_flatMap.mpr ⟨fun t _ => tablePlaces_ordered _ _, ?_⟩, ?_⟩
    · split
      · exact List.pairwise_singleton _ _
      · exact .nil
    · exact d.tables_ordered.imp fun h => tablePlaces_before h
    · intro p hp p' hp'
      have hinitial : p = .initial := by
        split at hp
        · exact List.mem_singleton.mp hp
        · exact absurd hp List.not_mem_nil
      obtain ⟨t, -, hp'⟩ := List.mem_flatMap.mp hp'
      obtain ⟨event, check, -, rfl, -⟩ := mem_tablePlaces.mp hp'
      exact hinitial ▸ .initial t.1 event check
  faulty := by
    intro p
    rw [places, List.mem_append, List.mem_flatMap]
    cases p with
    | initial =>
      have htables : ¬∃ t ∈ d.tables, Place.initial ∈ tablePlaces t.1 t.2 := by
        rintro ⟨t, -, hp⟩
        obtain ⟨event, check, -, hp, -⟩ := mem_tablePlaces.mp hp
        cases hp
      cases h : Text.isBlank d.initial <;> simp [Place.Faulty, h, htables]
    | entry scope event check =>
      have hinitial : Place.entry scope event check ∉ (if Text.isBlank d.initial then [Place.initial] else []) := by
        split <;> simp
      constructor
      · intro hp
        obtain ⟨⟨scope', table⟩, htable, hp⟩ := hp.resolve_left hinitial
        obtain ⟨event', check', t, hp, hfound⟩ := mem_tablePlaces.mp hp
        cases hp
        exact ⟨table, t, mem_tables.mp htable, hfound⟩
      · rintro ⟨table, t, htable, hfound⟩
        exact Or.inr ⟨(scope, table), mem_tables.mpr htable, mem_tablePlaces.mpr ⟨event, check, t, rfl, hfound⟩⟩

/-- A definition is in order just if none of its places is faulty. -/
theorem problems_eq_nil_iff (d : Definition C) : d.problems = [] ↔ ∀ p : Place, ¬p.Faulty d := by
  rw [← map_places, List.map_eq_nil_iff, List.eq_nil_iff_forall_not_mem]
  exact forall_congr' fun p => not_congr (d.lists_places.faulty p)

/-! ## Reporting -/

/-- Every problem of a definition is reported once, and in order.
1. There is one list of the faulty places of the definition along which their order runs: the initial state, then the entries
   of the states by name, event and check, then those of the whole machine. The problems are those of the places in this list.
2. There is no problem just if no place is faulty.
3. A machine is made of the definition just if there is no problem, and its definition is the one that was given.
4. Else the definition is refused with just these problems, of which there is at least one.
5. The same is made of a text that the definition is read from. -/
theorem problems_reported_once [Codec C] (d : Definition C) :
    (∃ places, d.Lists places ∧ (∀ places', d.Lists places' → places' = places) ∧ d.problems = places.map Place.problem) ∧
    (d.problems = [] ↔ ∀ p : Place, ¬p.Faulty d) ∧
    (∀ m, Machine.ofDefinition d = .ok m ↔ d.problems = [] ∧ m.definition = d) ∧
    (∀ problems, Machine.ofDefinition d = .error problems ↔ problems = d.problems ∧ problems ≠ []) ∧
    ∀ text, Codec.ofText text = .ok d → Machine.ofText text = Machine.ofDefinition d := by
  refine ⟨⟨d.places, d.lists_places, fun _ h => d.lists_places.unique h, d.map_places.symm⟩, d.problems_eq_nil_iff,
    fun m => Machine.ofDefinition_eq_ok, fun problems => Machine.ofDefinition_eq_error, ?_⟩
  intro text htext
  rw [Machine.ofText, htext]

/-- A definition with a blank initial state, two faults in one entry, a reserved key, and an empty key for the whole machine; and
one that is read from a text and refused. -/
theorem problems_reported_once_burger :
    let burger : Definition Json :=
      Definition.withFallback
        (Definition.withState { initial := " ", context := .int 0 } "idle"
          (StateEntry.on (StateEntry.on {} overrideKey (.bare "cooking")) "GO" (.withActions "" ["log", "", " "])))
        "" (.bare "idle")
    let blank : Definition Json := { initial := " ", context := .int 0 }
    let text := "[null,\" \",0]"
    Machine.ofDefinition burger = .error [.missingInitial, .emptyTarget "idle" "GO", .emptyActionName "idle" "GO",
        .reservedEventKey "idle" overrideKey, .emptyEventKey machineScope] ∧
      Codec.ofText text = .ok blank ∧ Machine.ofText text = (.error [.missingInitial] : Except _ (Machine Json)) := by
  intro burger blank text
  have hscan : Scan.run text.toList = ⟨.between, [.closeArray, .number ⟨false, [0], [], none⟩, .comma, .text (some " "),
      .comma, .null, .openArray]⟩ := by decide +kernel
  have htext : Codec.ofText text = .ok blank := by
    simp only [Codec.ofText, Document.ofText, hscan]
    rfl
  refine ⟨((problems_reported_once burger).2.2.2.1 _).mpr ⟨by decide, by decide⟩, htext, ?_⟩
  rw [(problems_reported_once blank).2.2.2.2 text htext]
  exact ((problems_reported_once blank).2.2.2.1 _).mpr ⟨by decide, by decide⟩

end Definition

end Chronicle
