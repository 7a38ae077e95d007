import Chronicle.EventKey
import Chronicle.Machine.Target

/-!
# Machine definitions: transition tables

A definition names the initial state and context and gives every state the events it reacts to. A table of the whole machine
is consulted for an event that the state has no entry for. States need no declaration: a state without a table reacts to the
events of the machine only.
-/

namespace Chronicle

/-- What one state reacts to. -/
structure StateEntry where
  transitions : KeyMap Target := ∅
deriving BEq

namespace StateEntry

/-- Adds a transition, over the one for the same event. -/
def on (s : StateEntry) (event : String) (target : Target) : StateEntry := ⟨s.transitions.insert event target⟩

/-- The members of a state. -/
def record : Record (KeyMap Target × Unit) := .cons (.defaulted "on" ∅) .nil

instance : Codec StateEntry := record.codec (fun s => (s.transitions, ())) fun r => ⟨r.1⟩

end StateEntry

/-- A machine definition. -/
structure Definition (C : Type) where
  id : Option String := none
  initial : String
  context : C
  states : KeyMap StateEntry := ∅
  /-- The transitions of the whole machine, for events that the state has no entry for. -/
  fallback : Option (KeyMap Target) := none
deriving BEq

namespace Definition

variable {C : Type}

/-- The definition with an id. -/
def withId (d : Definition C) (id : String) : Definition C := { d with id := some id }

/-- The definition with the entry of a state, over the one it had. -/
def withState (d : Definition C) (name : String) (entry : StateEntry) : Definition C :=
  { d with states := d.states.insert name entry }

/-- The definition with one more transition of the whole machine. -/
def withFallback (d : Definition C) (event : String) (target : Target) : Definition C :=
  { d with fallback := some ((d.fallback.getD ∅).insert event target) }

/-- The transitions of a state, without those of the whole machine. -/
def own (d : Definition C) (state : String) : KeyMap Target :=
  match d.states.get? state with
  | some entry => entry.transitions
  | none => ∅

/-- The entry for a key in a state: that of the state, else that of the whole machine. -/
def lookup (d : Definition C) (state k : String) : Option Target :=
  (d.own state).get? k <|> (d.fallback.getD ∅).get? k

/-- The entry for an event in a state. -/
def resolve {E : Type} [EventKey E] (d : Definition C) (state : String) (e : E) : Option Target :=
  d.lookup state (key e)

/-- The state that an event leads to from a state. -/
def next {E : Type} [EventKey E] (d : Definition C) (state : String) (e : E) : Option String :=
  (d.resolve state e).map Target.state

/-- The keys that lead on from a state: its own and those of the whole machine, ascending. -/
def enabledEvents (d : Definition C) (state : String) : List String :=
  ((d.fallback.getD ∅).union (d.own state)).keys

/-- The members of a definition. -/
def record (C : Type) [Codec C] :
    Record (Option String × String × C × KeyMap StateEntry × Option (KeyMap Target) × Unit) :=
  .cons (.optional "id") <| .cons (.required "initial") <| .cons (.required "context") <|
    .cons (.defaulted "states" ∅) <| .cons (.optional "on") .nil

instance [Codec C] : Codec (Definition C) :=
  (record C).codec (fun d => (d.id, d.initial, d.context, d.states, d.fallback, ()))
    fun (id, initial, context, states, fallback, ()) => { id, initial, context, states, fallback }

end Definition

end Chronicle
