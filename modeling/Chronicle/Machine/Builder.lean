import Chronicle.Machine.Validation

/-!
# Building a machine call by call

A `Builder` collects what has been said about a machine. What is said last of something stands; declaring a state again takes
nothing away from it. Initial state and context have to be given before the machine can be built.
-/

namespace Chronicle

/-- What has been said about a machine so far. -/
structure Builder (C : Type) where
  id : Option String := none
  initial : Option String := none
  context : Option C := none
  states : KeyMap StateEntry := ∅
  fallback : KeyMap Target := ∅

namespace Builder

variable {C : Type}

/-- One thing said about a machine. -/
inductive Call (C : Type) where
  | id (name : String)
  | initial (state : String)
  | context (c : C)
  /-- There is such a state. -/
  | state (name : String)
  | transition (state event : String) (target : Target)
  /-- A transition of the whole machine. -/
  | fallback (event : String) (target : Target)

/-- The entry of a state, which is empty before anything was said about it. -/
def entry (b : Builder C) (state : String) : StateEntry := (b.states.get? state).getD {}

/-- Takes one call. -/
def call (b : Builder C) : Call C → Builder C
  | .id name => { b with id := some name }
  | .initial state => { b with initial := some state }
  | .context c => { b with context := some c }
  | .state name => { b with states := b.states.insert name (b.entry name) }
  | .transition state event target => { b with states := b.states.insert state ((b.entry state).on event target) }
  | .fallback event target => { b with fallback := b.fallback.insert event target }

/-- What a list of calls says. -/
def ofCalls (calls : List (Call C)) : Builder C := calls.foldl call {}

/-- Builds the machine. Without initial state or context nothing else is looked at. -/
def build (b : Builder C) : Except (List Problem) (Machine C) :=
  match b.initial, b.context with
  | some initial, some context =>
    Machine.ofDefinition
      { id := b.id, initial, context, states := b.states, fallback := if b.fallback.isEmpty then none else some b.fallback }
  | some _, none => .error [.missingContext]
  | none, some _ => .error [.missingInitial]
  | none, none => .error [.missingInitial, .missingContext]

end Builder

end Chronicle
