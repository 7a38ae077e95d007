import Chronicle.Node.Basic

/-!
# Histories: an arena of nodes and a way through it

Every node ever written stays in the arena of a history. The head, the two stacks that undoing and redoing move along and the
checkpoint of a pause are indices into the arena. Both stacks are lists with their top first.

Writing makes the new node the head and forgets what could be redone. Resuming moves the head to the checkpoint and leaves both
stacks as they are. Of the nodes written one after another during a pause all but the last can then be reached by undoing: the
last was the head itself, and stands on neither stack.
-/

namespace Chronicle

/-- A history of nodes with contexts in `C` and events in `E`. -/
structure History (C E : Type) where
  /-- The node the history begins with. -/
  first : Node C E
  /-- The nodes written after it, in the order of writing. -/
  written : List (Node C E)
  head : Nat
  past : List Nat
  redone : List Nat
  paused : Option Nat

namespace History

variable {C E : Type}

/-- The history whose head is its only node. -/
def new (first : Node C E) : History C E :=
  { first, written := [], head := 0, past := [], redone := [], paused := none }

/-- Every node, in the order of writing. -/
def nodes (h : History C E) : List (Node C E) := h.first :: h.written

/-- The node at an index. -/
def node? (h : History C E) (index : Nat) : Option (Node C E) := h.nodes[index]?

/-- The node at the head. -/
def headNode (h : History C E) : Node C E := (h.node? h.head).getD h.first

/-- The number of nodes. -/
def size (h : History C E) : Nat := h.nodes.length

/-- Whether the history holds only the node it began with. -/
def isEmpty (h : History C E) : Bool := h.size ≤ 1

/-- Whether there is something to undo. -/
def canUndo (h : History C E) : Bool := !h.past.isEmpty

/-- Whether there is something to redo. -/
def canRedo (h : History C E) : Bool := !h.redone.isEmpty

/-- Whether a checkpoint is set. -/
def isPaused (h : History C E) : Bool := h.paused.isSome

/-- The node at the checkpoint. -/
def checkpoint? (h : History C E) : Option (Node C E) := h.paused.bind h.node?

/-- Makes a node the head. -/
def write (h : History C E) (n : Node C E) : History C E :=
  { h with written := h.written ++ [n], head := h.size, past := h.head :: h.past, redone := [] }

/-- Steps back to the top of the past, if there is one. -/
def undo? (h : History C E) : Option (History C E) :=
  match h.past with
  | [] => none
  | previous :: past => some { h with head := previous, past, redone := h.head :: h.redone }

/-- Steps forward to the top of what was undone, if there is one. -/
def redo? (h : History C E) : Option (History C E) :=
  match h.redone with
  | [] => none
  | next :: redone => some { h with head := next, past := h.head :: h.past, redone }

/-- Steps back `steps` times, or until there is nothing to undo. -/
def undoTimes : Nat → History C E → History C E
  | 0, h => h
  | steps + 1, h =>
    match h.undo? with
    | some h' => undoTimes steps h'
    | none => h

/-- Steps back until there is nothing to undo, if there is something. -/
def undoToRoot? (h : History C E) : Option (History C E) :=
  if h.canUndo then some (undoTimes h.past.length h) else none

/-- Sets the checkpoint to the head, over the one that was there. -/
def pause (h : History C E) : History C E := { h with paused := some h.head }

/-- Moves the head to the checkpoint and clears it, if it is set. -/
def resume? (h : History C E) : Option (History C E) :=
  h.paused.map fun index => { h with head := index, paused := none }

/-- Clears the checkpoint. -/
def clearPaused (h : History C E) : History C E := { h with paused := none }

/-! ## Lineage -/

/-- The indices from a node back along the parents. The walk ends at a parent that is no earlier node. -/
def walk (h : History C E) (index : Nat) : List Nat :=
  match h.node? index with
  | none => []
  | some n =>
    match n.parent with
    | none => [index]
    | some parent => if parent < index then index :: walk h parent else [index]
termination_by index

/-- The nodes from the head back along the parents. -/
def lineage (h : History C E) : List (Node C E) := (h.walk h.head).filterMap h.node?

end History

end Chronicle
