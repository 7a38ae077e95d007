import Chronicle.Machine.Definition
import Chronicle.Machine.Problem
import Chronicle.Text.Blank

/-!
# Validation

`Definition.problems` lists everything that is wrong with a definition: first the initial state, then the transitions of the
states in ascending order of state and event, last those of the whole machine. A `Machine` is a definition without problems.
-/

namespace Chronicle

/-- What is wrong with one transition. -/
def Target.problems (state event : String) (t : Target) : List Problem :=
  (if event = "" then [.emptyEventKey state] else []) ++
    (if event = overrideKey then [.reservedEventKey state event] else []) ++
    (if Text.isBlank t.state then [.emptyTarget state event] else []) ++
    (if t.actions.any Text.isBlank then [.emptyActionName state event] else [])

namespace Definition

variable {C : Type}

/-- What is wrong with a table of transitions. -/
def tableProblems (state : String) (table : KeyMap Target) : List Problem :=
  table.entries.flatMap fun e => e.2.problems state e.1

/-- Everything that is wrong with a definition. -/
def problems (d : Definition C) : List Problem :=
  (if Text.isBlank d.initial then [.missingInitial] else []) ++
    (d.states.entries.flatMap fun e => tableProblems e.1 e.2.transitions) ++
    tableProblems machineScope (d.fallback.getD ∅)

end Definition

/-- A machine: a definition without problems. -/
structure Machine (C : Type) where
  definition : Definition C
  valid : definition.problems = []

namespace Machine

variable {C : Type}

/-- The machine of a definition, or everything that is wrong with it. -/
def ofDefinition (d : Definition C) : Except (List Problem) (Machine C) :=
  if h : d.problems = [] then .ok ⟨d, h⟩ else .error d.problems

/-- Reads and validates the definition a text holds. -/
def ofText [Codec C] (text : String) : Except (List Problem) (Machine C) :=
  match Codec.ofText text with
  | .ok d => ofDefinition d
  | .error fault => .error [.unreadable fault]

/-- The id of the machine. -/
def id (m : Machine C) : Option String := m.definition.id

/-- The state a run begins in. -/
def initial (m : Machine C) : String := m.definition.initial

/-- The context a run begins with. -/
def context (m : Machine C) : C := m.definition.context

/-- The entry for an event in a state. -/
def resolve {E : Type} [EventKey E] (m : Machine C) (state : String) (e : E) : Option Target :=
  m.definition.resolve state e

/-- The state that an event leads to from a state. -/
def next {E : Type} [EventKey E] (m : Machine C) (state : String) (e : E) : Option String := m.definition.next state e

/-- The keys that lead on from a state. -/
def enabledEvents (m : Machine C) (state : String) : List String := m.definition.enabledEvents state

end Machine

end Chronicle
