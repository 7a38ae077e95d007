import Chronicle.History.Observed
import Chronicle.Machine.Validation

/-!
# The interpreter: events in, nodes out

An interpreter ties a machine to a history. An event is looked up from the state of the head; if it leads on, a node with the
new state is written, else nothing changes. Moving about in the history does not consult the machine. A stopped interpreter
takes no events and no forced states, but still moves about.

What a new node is stamped with is given with every call, and so is the function that derives the new context. That function
may run in any monad, which is how it can be seen that it is called once if an event leads on, and not at all if not.
-/

namespace Chronicle

/-- A machine at work on a history. -/
structure Interpreter (C E : Type) where
  machine : Machine C
  backend : Backend C E
  started : Bool

/-- The function that derives a new context failed; nothing was written. -/
structure AssignError (ε : Type) where
  /-- The state the event was sent in. -/
  state : String
  /-- The key of the event. -/
  event : String
  /-- What the function failed with. -/
  source : ε
deriving DecidableEq, Repr

/-- The wording of a failed assignment. -/
def AssignError.message {ε : Type} (e : AssignError ε) : String :=
  "Context assignment failed for event '" ++ e.event ++ "' in state '" ++ e.state ++ "'"

/-- What can be seen of an interpreter at one moment. -/
structure Snapshot (C E : Type) where
  value : String
  context : C
  event : Trigger E
  /-- Always `false`: no state is final. -/
  done : Bool
deriving BEq

/-- The members of a snapshot. -/
def Snapshot.record (C E : Type) [Codec C] [Codec E] : Record (String × C × Trigger E × Bool × Unit) :=
  .cons (.required "value") <| .cons (.required "context") <| .cons (.required "event") <| .cons (.required "done") .nil

instance {C E : Type} [Codec C] [Codec E] : Codec (Snapshot C E) :=
  (Snapshot.record C E).codec (fun s => (s.value, s.context, s.event, s.done, ()))
    fun (value, context, event, done, ()) => { value, context, event, done }

namespace Interpreter

variable {C E : Type}

/-- An interpreter at work on a given history. -/
def «over» (machine : Machine C) (backend : Backend C E) : Interpreter C E := ⟨machine, backend, true⟩

/-- The node a run of a machine begins with. -/
def rootOf (machine : Machine C) (stamp : Stamp) : Node C E :=
  (Node.root machine.initial machine.context stamp.time).withId stamp.id

/-- An interpreter at work on a new history that begins with the initial state and context. -/
def interpret (machine : Machine C) (stamp : Stamp) : Interpreter C E :=
  Interpreter.over machine (.plain (.new (rootOf machine stamp)))

/-! ## Looking -/

/-- The history within all layers. -/
def history (i : Interpreter C E) : History C E := i.backend.history

/-- The node at the head. -/
def head (i : Interpreter C E) : Node C E := i.history.headNode

/-- The state of the head. -/
def state (i : Interpreter C E) : String := i.head.state

/-- The context of the head. -/
def context (i : Interpreter C E) : C := i.head.context

/-- The entry an event would take from here. -/
def transitionFor {E' : Type} [EventKey E'] (i : Interpreter C E) (e : E') : Option Target :=
  i.machine.resolve i.state e

/-- The keys that lead on from here, ascending. -/
def enabledEvents (i : Interpreter C E) : List String := i.machine.enabledEvents i.state

/-- What can be seen now. -/
def snapshot (i : Interpreter C E) : Snapshot C E := ⟨i.state, i.context, i.head.trigger, false⟩

/-! ## Running and stopping -/

/-- Takes events again. -/
def start (i : Interpreter C E) : Interpreter C E := { i with started := true }

/-- Takes no events until it is started again. -/
def stop (i : Interpreter C E) : Interpreter C E := { i with started := false }

/-! ## Moving about -/

variable [EventKey E]

/-- Carries out an operation on the history. -/
def act (i : Interpreter C E) (op : History.Operation C E) : Turn (Interpreter C E) Bool :=
  (i.backend.perform op).map ({ i with backend := · }) History.Answer.success

/-- Steps back; answers whether that was possible. -/
def undo (i : Interpreter C E) : Turn (Interpreter C E) Bool := i.act .undo

/-- Steps forward; answers whether that was possible. -/
def redo (i : Interpreter C E) : Turn (Interpreter C E) Bool := i.act .redo

/-- Steps back until nothing is left to undo; answers whether anything was. -/
def undoToRoot (i : Interpreter C E) : Turn (Interpreter C E) Bool := i.act .undoToRoot

/-- Sets the checkpoint to the head. -/
def pause (i : Interpreter C E) : Turn (Interpreter C E) Unit := (i.act .pause).map id fun _ => ()

/-- Moves the head to the checkpoint; answers whether there was one. -/
def resume (i : Interpreter C E) : Turn (Interpreter C E) Bool := i.act .resume

/-- Clears the checkpoint. -/
def clearPaused (i : Interpreter C E) : Turn (Interpreter C E) Unit := (i.act .clearPaused).map id fun _ => ()

/-! ## Sending events and forcing states -/

/-- Writes a node derived from the head. -/
def writeNext (i : Interpreter C E) (stamp : Stamp) (state : String) (context : C) (trigger : Trigger E) :
    Turn (Interpreter C E) Bool :=
  i.act (.write { state, context, trigger, timestamp := stamp.time, parent := some i.history.head, id := some stamp.id })

/-- Sends an event and derives the new context with a function that may fail. The function is called only if the event leads
on, and if it fails nothing is written. -/
def sendWithM {m : Type → Type} [Monad m] {ε : Type} (i : Interpreter C E) (stamp : Stamp) (e : E)
    (assign : C → E → m (Except ε C)) : m (Turn (Interpreter C E) (Except (AssignError ε) Bool)) := do
  if !i.started then
    return ⟨i, .ok false, [.logged (.ignored (key e))]⟩
  match i.machine.next i.state e with
  | none => return ⟨i, .ok false, [.logged (.dropped i.state (key e))]⟩
  | some target =>
    match ← assign i.context e with
    | .error source => return ⟨i, .error ⟨i.state, key e, source⟩, []⟩
    | .ok context => return (i.writeNext stamp target context (.event e)).map id .ok

/-- Sends an event and derives the new context with a function that may fail. -/
def sendWith {ε : Type} (i : Interpreter C E) (stamp : Stamp) (e : E) (assign : C → E → Except ε C) :
    Turn (Interpreter C E) (Except (AssignError ε) Bool) :=
  Id.run (i.sendWithM stamp e fun c e => pure (assign c e))

/-- Sends an event and derives the new context; answers whether the event led on. -/
def sendAssignM {m : Type → Type} [Monad m] (i : Interpreter C E) (stamp : Stamp) (e : E) (assign : C → E → m C) :
    m (Turn (Interpreter C E) Bool) := do
  let turn ← i.sendWithM (ε := Empty) stamp e fun c e => do return .ok (← assign c e)
  return turn.map id fun
    | .ok written => written
    | .error e => nomatch e.source

/-- Sends an event and derives the new context; answers whether the event led on. -/
def sendAssign (i : Interpreter C E) (stamp : Stamp) (e : E) (assign : C → E → C) : Turn (Interpreter C E) Bool :=
  Id.run (i.sendAssignM stamp e fun c e => pure (assign c e))

/-- Sends an event and keeps the context; answers whether the event led on. -/
def send (i : Interpreter C E) (stamp : Stamp) (e : E) : Turn (Interpreter C E) Bool := i.sendAssign stamp e fun c _ => c

/-- Forces a state and gives it a context; answers whether the interpreter is started. -/
def setStateWithContext (i : Interpreter C E) (stamp : Stamp) (state : String) (context : C) :
    Turn (Interpreter C E) Bool :=
  if i.started then i.writeNext stamp state context .override else ⟨i, false, []⟩

/-- Forces a state and keeps the context; answers whether the interpreter is started. -/
def setState (i : Interpreter C E) (stamp : Stamp) (state : String) : Turn (Interpreter C E) Bool :=
  i.setStateWithContext stamp state i.context

end Interpreter

end Chronicle
