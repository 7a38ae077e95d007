import Chronicle.History.Basic
import Chronicle.Log

/-!
# Operations on a history

The operations as values, so that a run is a list of them. `History.perform` carries one out and says what it answers; an
operation that answers `moved false` leaves the history as it was.
-/

namespace Chronicle

namespace History

variable {C E : Type}

/-- An operation on a history. -/
inductive Operation (C E : Type) where
  | write (n : Node C E)
  | undo
  | redo
  | undoToRoot
  | pause
  | resume
  | clearPaused

/-- What an operation is counted as. -/
def Operation.effect : Operation C E → Effect
  | .write _ => .write
  | .undo => .undo
  | .redo => .redo
  | .undoToRoot => .undoToRoot
  | .pause => .pause
  | .resume => .resume
  | .clearPaused => .clearPaused

/-- What an operation answers. -/
inductive Answer where
  /-- The index of the node that was written. -/
  | index (i : Nat)
  /-- Whether there was anywhere to move to. -/
  | moved (b : Bool)
  | done
deriving DecidableEq, Repr

/-- Whether an operation had an effect. -/
def Answer.success : Answer → Bool
  | .moved b => b
  | .index _ | .done => true

/-- The outcome of a move that may be impossible. -/
def moveTo (h : History C E) : Option (History C E) → History C E × Answer
  | some h' => (h', .moved true)
  | none => (h, .moved false)

/-- Carries out an operation. -/
def perform (h : History C E) : Operation C E → History C E × Answer
  | .write n => (h.write n, .index h.size)
  | .undo => h.moveTo h.undo?
  | .redo => h.moveTo h.redo?
  | .undoToRoot => h.moveTo h.undoToRoot?
  | .pause => (h.pause, .done)
  | .resume => h.moveTo h.resume?
  | .clearPaused => (h.clearPaused, .done)

/-- Carries out operations one after another. -/
def run (h : History C E) (ops : List (Operation C E)) : History C E :=
  ops.foldl (fun h op => (h.perform op).1) h

end History

end Chronicle
