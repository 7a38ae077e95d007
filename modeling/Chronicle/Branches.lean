import Chronicle.Interpreter

/-!
# Branches: what can be done from here

From any state every enabled event, and forcing a state by hand, is a branch with three leaves: going forward along it, pausing,
and going backward to the root. Pausing and going backward are the same on every branch. An `Overview` shows them all.
-/

namespace Chronicle

/-- Which leaves of a branch can be used. -/
structure Leaves where
  canForward : Bool
  canPause : Bool
  canBackward : Bool
deriving DecidableEq, Repr

/-- The members of the leaves of a branch. -/
def Leaves.record : Record (Bool × Bool × Bool × Unit) :=
  .cons (.required "can_forward") <| .cons (.required "can_pause") <| .cons (.required "can_backward") .nil

instance : Codec Leaves :=
  Leaves.record.codec (fun l => (l.canForward, l.canPause, l.canBackward, ()))
    fun (canForward, canPause, canBackward, ()) => { canForward, canPause, canBackward }

/-- All branches at one moment. -/
structure Overview where
  /-- The initial state of the machine. -/
  rootState : String
  /-- The keys of the branches, ascending. -/
  branches : List String
  currentState : String
  /-- Whether nothing is left to undo. -/
  atRoot : Bool
  leaves : KeyMap Leaves
deriving BEq

/-- The members of an overview. -/
def Overview.record : Record (String × List String × String × Bool × KeyMap Leaves × Unit) :=
  .cons (.required "root_state_value") <| .cons (.required "enabled_event_keys") <|
    .cons (.required "current_state_value") <| .cons (.required "at_root") <|
    .cons (.required "branch_availability") .nil

instance : Codec Overview :=
  Overview.record.codec (fun o => (o.rootState, o.branches, o.currentState, o.atRoot, o.leaves, ()))
    fun (rootState, branches, currentState, atRoot, leaves, ()) =>
      { rootState, branches, currentState, atRoot, leaves }

namespace Interpreter

variable {C E : Type}

/-- Whether nothing is left to undo. -/
def isAtRoot (i : Interpreter C E) : Bool := !i.history.canUndo

/-- Whether going backward would move the head. -/
def canBackward (i : Interpreter C E) : Bool := i.history.canUndo

/-- Whether the branch of an event leads on from here; forcing a state always does. -/
def canForward {E' : Type} [EventKey E'] (i : Interpreter C E) (e : E') : Bool :=
  key e = overrideKey || (i.transitionFor e).isSome

/-- The keys of the branches: those of the enabled events and the one of forcing a state, ascending. -/
def branches (i : Interpreter C E) : List String :=
  ((KeyMap.ofList (i.enabledEvents.map fun k => (k, ()))).insert overrideKey ()).keys

/-- All branches from here. -/
def overview (i : Interpreter C E) : Overview where
  rootState := i.machine.initial
  branches := i.branches
  currentState := i.state
  atRoot := i.isAtRoot
  leaves := .ofList (i.branches.map fun k => (k, ⟨i.canForward k, true, i.canBackward⟩))

variable [EventKey E]

/-- Goes forward along the branch of an event. -/
def forward (i : Interpreter C E) (stamp : Stamp) (e : E) : Turn (Interpreter C E) Bool := i.send stamp e

/-- Goes forward by forcing a state, with the given context or else the present one. -/
def forwardOverride (i : Interpreter C E) (stamp : Stamp) (state : String) (context : Option C) :
    Turn (Interpreter C E) Bool :=
  match context with
  | some context => i.setStateWithContext stamp state context
  | none => i.setState stamp state

/-- Goes backward to the root. -/
def backward (i : Interpreter C E) : Turn (Interpreter C E) Bool := i.undoToRoot

end Interpreter

end Chronicle
