import Chronicle.Json.Record

/-!
# Targets: where an event leads

An entry of a transition table names the state an event leads to, and may name actions for the caller to run; these never
change the target. The two ways to write an entry, a text or an object, stay apart: an entry is written as it was read.
-/

namespace Chronicle

/-- Where an event leads. -/
inductive Target where
  | bare (state : String)
  | withActions (state : String) (actions : List String)
deriving DecidableEq, Repr

namespace Target

/-- The state an event leads to. -/
def state : Target → String
  | .bare state | .withActions state _ => state

/-- The named actions, in their order. -/
def actions : Target → List String
  | .bare _ => []
  | .withActions _ actions => actions

/-- The members of an entry with actions. -/
def record : Record (String × List String × Unit) :=
  .cons (.required "target") (.cons (.defaulted "actions" []) .nil)

/-- The written form. -/
def write : Target → Json
  | .bare state => .str state
  | .withActions state actions => .obj (record.members (state, actions, ()))

/-- The fault of a value that is no entry, whatever is wrong with it. -/
def noForm : Fault := .noMatchingForm "TransitionTarget"

/-- Reads an entry. The whole value has to be in order before its form is looked at. -/
def read (room : Nat) (d : Document) : Except Fault Target :=
  if (d.value? room).isNone then .error .malformed
  else match d with
    | .text (some state) => .ok (.bare state)
    | .object _ _ =>
      match record.read room d with
      | .ok (state, actions, ()) => .ok (.withActions state actions)
      | .error _ => .error noForm
    | _ => .error noForm

instance : Codec Target where
  write := write
  read := read

end Target

end Chronicle
