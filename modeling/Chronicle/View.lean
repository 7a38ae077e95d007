import Chronicle.Interpreter

/-!
# Views: telling observers to draw again

A view wraps an interpreter for a display. Observers subscribe to it and are called with the key of the view, once on
subscribing and then after every operation that moved the head or wrote a node, in the order in which they subscribed.
-/

namespace Chronicle

/-- An interpreter with observers. -/
structure View (C E : Type) where
  interpreter : Interpreter C E
  /-- What observers are called with. -/
  renderKey : String
  /-- The subscriptions of the observers, in the order of subscribing. -/
  observers : List Nat
  /-- The subscription that is handed out next. -/
  next : Nat

/-- A call of an observer. -/
structure View.Call where
  observer : Nat
  renderKey : String
deriving DecidableEq, Repr

/-- The outcome of an operation on a view: that on the interpreter, and the observers that were called. -/
structure View.Outcome (C E α : Type) extends Turn (View C E) α where
  calls : List View.Call

namespace View

variable {C E : Type}

/-- A view of an interpreter, without observers. -/
def new (interpreter : Interpreter C E) (renderKey : String) : View C E := ⟨interpreter, renderKey, [], 0⟩

/-- A view of a new run of a machine; its key is the id of the machine, or the initial state if it has none. -/
def interpret (machine : Machine C) (stamp : Stamp) : View C E :=
  new (.interpret machine stamp) (machine.id.getD machine.initial)

/-- Subscribes a new observer, which is called at once; answers its subscription. -/
def observe (v : View C E) : View.Outcome C E Nat where
  state := { v with observers := v.observers ++ [v.next], next := v.next + 1 }
  answer := v.next
  signals := []
  calls := [⟨v.next, v.renderKey⟩]

/-- Removes an observer; answers whether it was subscribed. -/
def unsubscribe (v : View C E) (subscription : Nat) : View.Outcome C E Bool where
  state := { v with observers := v.observers.filter (· ≠ subscription) }
  answer := v.observers.contains subscription
  signals := []
  calls := []

/-- The calls of all observers. -/
def notify (v : View C E) : List Call := v.observers.map (⟨·, v.renderKey⟩)

/-- An operation on the interpreter, after which all observers are called if `changed` says so of its answer. -/
def lift {α : Type} (v : View C E) (changed : α → Bool) (t : Turn (Interpreter C E) α) : View.Outcome C E α where
  state := { v with interpreter := t.state }
  answer := t.answer
  signals := t.signals
  calls := if changed t.answer then v.notify else []

variable [EventKey E]

/-- Sends an event and keeps the context. -/
def send (v : View C E) (stamp : Stamp) (e : E) : View.Outcome C E Bool := v.lift id (v.interpreter.send stamp e)

/-- Whether sending an event wrote a node. -/
def written {ε : Type} : Except (AssignError ε) Bool → Bool
  | .ok written => written
  | .error _ => false

/-- Sends an event and derives the new context with a function that may fail. -/
def sendWithM {m : Type → Type} [Monad m] {ε : Type} (v : View C E) (stamp : Stamp) (e : E)
    (assign : C → E → m (Except ε C)) : m (View.Outcome C E (Except (AssignError ε) Bool)) := do
  return v.lift written (← v.interpreter.sendWithM stamp e assign)

/-- Sends an event and derives the new context with a function that may fail. -/
def sendWith {ε : Type} (v : View C E) (stamp : Stamp) (e : E) (assign : C → E → Except ε C) :
    View.Outcome C E (Except (AssignError ε) Bool) :=
  Id.run (v.sendWithM stamp e fun c e => pure (assign c e))

/-- Forces a state and keeps the context. -/
def setState (v : View C E) (stamp : Stamp) (state : String) : View.Outcome C E Bool :=
  v.lift id (v.interpreter.setState stamp state)

/-- Forces a state and gives it a context. -/
def setStateWithContext (v : View C E) (stamp : Stamp) (state : String) (context : C) : View.Outcome C E Bool :=
  v.lift id (v.interpreter.setStateWithContext stamp state context)

/-- Steps back. -/
def undo (v : View C E) : View.Outcome C E Bool := v.lift id v.interpreter.undo

/-- Steps forward. -/
def redo (v : View C E) : View.Outcome C E Bool := v.lift id v.interpreter.redo

/-- Steps back until nothing is left to undo. -/
def undoToRoot (v : View C E) : View.Outcome C E Bool := v.lift id v.interpreter.undoToRoot

/-- Sets the checkpoint; nothing moves, so nobody is called. -/
def pause (v : View C E) : View.Outcome C E Unit := v.lift (fun _ => false) v.interpreter.pause

/-- Moves the head to the checkpoint. -/
def resume (v : View C E) : View.Outcome C E Bool := v.lift id v.interpreter.resume

/-- Clears the checkpoint; nothing moves, so nobody is called. -/
def clearPaused (v : View C E) : View.Outcome C E Unit := v.lift (fun _ => false) v.interpreter.clearPaused

end View

end Chronicle
