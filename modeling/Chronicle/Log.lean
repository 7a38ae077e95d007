/-!
# Log lines

What histories and interpreters report while they run, beside their answers. A line has a level, a target, a message and named
fields; whoever runs the program decides down to which level lines are shown.
-/

namespace Chronicle

/-- The operations on a history, as they are counted and named in the log. -/
inductive Effect where
  | write
  | undo
  | redo
  | undoToRoot
  | pause
  | resume
  | clearPaused
deriving DecidableEq, Repr

/-- The message of an operation on a history. -/
def Effect.message : Effect → String
  | .write => "causality.write"
  | .undo => "causality.undo"
  | .redo => "causality.redo"
  | .undoToRoot => "causality.undo_to_root"
  | .pause => "causality.pause"
  | .resume => "causality.resume"
  | .clearPaused => "causality.clear_paused"

/-- How much of a log is shown, the least first. -/
inductive Verbosity where
  | off
  | info
  | debug
  | trace
deriving DecidableEq, Repr

namespace Verbosity

/-- The verbosity of a program that asks for none. -/
def default : Verbosity := .info

/-- The name of a verbosity. -/
def name : Verbosity → String
  | .off => "off"
  | .info => "info"
  | .debug => "debug"
  | .trace => "trace"

/-- Every verbosity, the least first. -/
def all : List Verbosity := [.off, .info, .debug, .trace]

/-- The verbosity of a name. -/
def ofName? (name : String) : Option Verbosity := all.find? fun v => v.name = name

end Verbosity

/-- The level of a line. -/
inductive LogLevel where
  | debug
  | trace
deriving DecidableEq, Repr

/-- Whether lines of a level are shown. -/
def LogLevel.shownAt : LogLevel → Verbosity → Bool
  | .debug, .debug | .debug, .trace | .trace, .trace => true
  | _, _ => false

/-- The name of a level. -/
def LogLevel.name : LogLevel → String
  | .debug => "DEBUG"
  | .trace => "TRACE"

/-- A line of the log. -/
inductive LogLine where
  /-- A node with the given state and event key is written. -/
  | writing (state event : String)
  /-- An operation moved the head to a node with the given state. -/
  | moved (effect : Effect) (head : String)
  /-- An operation concerns the checkpoint only. -/
  | marking (effect : Effect)
  /-- An event was sent while the interpreter was stopped. -/
  | ignored (event : String)
  /-- An event leads nowhere from the given state. -/
  | dropped (state event : String)
deriving DecidableEq, Repr

namespace LogLine

/-- The level of a line. -/
def level : LogLine → LogLevel
  | .writing _ _ | .moved _ _ | .marking _ => .debug
  | .ignored _ | .dropped _ _ => .trace

/-- The part of the program that reports the line. -/
def target (line : LogLine) : String :=
  match line.level with
  | .debug => "causality::history"
  | .trace => "causality::interpreter"

/-- The message of a line. -/
def message : LogLine → String
  | .writing _ _ => Effect.write.message
  | .moved effect _ | .marking effect => effect.message
  | .ignored _ => "event ignored: interpreter stopped"
  | .dropped _ _ => "event dropped: no transition"

/-- The named fields of a line. -/
def fields : LogLine → List (String × String)
  | .writing state event => [("state", state), ("event", event)]
  | .moved _ head => [("head", head)]
  | .marking _ => []
  | .ignored event => [("event", event)]
  | .dropped state event => [("state", state), ("event", event)]

end LogLine

/-- What happens beside an answer: an effect is counted in a cell, or a line is logged. -/
inductive Signal where
  | counted (cell : Nat) (effect : Effect)
  | logged (line : LogLine)
deriving DecidableEq, Repr

/-- The lines among some signals that are shown. -/
def Signal.shown (verbosity : Verbosity) (signals : List Signal) : List LogLine :=
  signals.filterMap fun
    | .logged line => if line.level.shownAt verbosity then some line else none
    | .counted _ _ => none

/-- The outcome of an operation: the new state, the answer, and the signals in the order in which they occurred. -/
structure Turn (σ α : Type) where
  state : σ
  answer : α
  signals : List Signal

/-- The outcome with another view of state and answer. -/
def Turn.map {σ α τ β : Type} (t : Turn σ α) (state : σ → τ) (answer : α → β) : Turn τ β :=
  ⟨state t.state, answer t.answer, t.signals⟩

end Chronicle
