import Chronicle.History.Operation
import Chronicle.Json.Record

/-!
# Observed histories

A history may be wrapped in layers that count and log what is done to it. A layer hands every operation on to what it wraps and
reports those that had an effect: writing, pausing and clearing the checkpoint before handing them on, the moves of the head
once they succeeded. It counts into a cell; layers may share one.
-/

namespace Chronicle

/-- One layer around a history. -/
structure Layer where
  /-- The cell it counts into. -/
  cell : Nat
  logging : Bool
deriving DecidableEq, Repr

/-- A history with the layers around it. -/
inductive Backend (C E : Type) where
  | plain (h : History C E)
  | observed (layer : Layer) (inner : Backend C E)

namespace Layer

variable {C E : Type} [EventKey E]

/-- The line that tells of an operation; `head` is the state of the head after it. -/
def line (op : History.Operation C E) (head : String) : LogLine :=
  match op with
  | .write n => .writing n.state (key n.trigger)
  | .pause => .marking .pause
  | .clearPaused => .marking .clearPaused
  | op => .moved op.effect head

/-- What a layer reports of an operation, given its answer and the state of the head after it. -/
def report (layer : Layer) (op : History.Operation C E) (answer : History.Answer) (head : String) : List Signal :=
  if answer.success then
    (if layer.logging then [.logged (line op head)] else []) ++ [.counted layer.cell op.effect]
  else []

/-- Whether an operation is reported before it is handed on. -/
def announces (op : History.Operation C E) : Bool :=
  match op.effect with
  | .write | .pause | .clearPaused => true
  | .undo | .redo | .undoToRoot | .resume => false

end Layer

namespace Backend

variable {C E : Type}

/-- The history within all layers. -/
def history : Backend C E → History C E
  | .plain h => h
  | .observed _ inner => inner.history

/-- The layers, outermost first. -/
def layers : Backend C E → List Layer
  | .plain _ => []
  | .observed layer inner => layer :: inner.layers

/-- A history in layers, outermost first. -/
def wrap (h : History C E) : List Layer → Backend C E
  | [] => .plain h
  | layer :: inner => .observed layer (wrap h inner)

/-- Carries out an operation through all layers. -/
def perform [EventKey E] : Backend C E → History.Operation C E → Turn (Backend C E) History.Answer
  | .plain h, op => ⟨.plain (h.perform op).1, (h.perform op).2, []⟩
  | .observed layer inner, op =>
    let turn := inner.perform op
    let own := layer.report op turn.answer turn.state.history.headNode.state
    ⟨.observed layer turn.state, turn.answer,
      if Layer.announces op then own ++ turn.signals else turn.signals ++ own⟩

end Backend

/-- How often each effect was counted in a cell, modulo `2 ^ 64`. -/
structure Counters where
  writes : UInt64 := 0
  undos : UInt64 := 0
  redos : UInt64 := 0
  undoToRoot : UInt64 := 0
  pauses : UInt64 := 0
  resumes : UInt64 := 0
  clearPaused : UInt64 := 0
deriving DecidableEq, Repr

namespace Counters

/-- Counts one effect. -/
def count (c : Counters) : Effect → Counters
  | .write => { c with writes := c.writes + 1 }
  | .undo => { c with undos := c.undos + 1 }
  | .redo => { c with redos := c.redos + 1 }
  | .undoToRoot => { c with undoToRoot := c.undoToRoot + 1 }
  | .pause => { c with pauses := c.pauses + 1 }
  | .resume => { c with resumes := c.resumes + 1 }
  | .clearPaused => { c with clearPaused := c.clearPaused + 1 }

/-- The counters of a cell after one more signal. -/
def after (cell : Nat) (c : Counters) : Signal → Counters
  | .counted cell' effect => if cell' = cell then c.count effect else c
  | .logged _ => c

/-- The members of a set of counters. -/
def record : Record (UInt64 × UInt64 × UInt64 × UInt64 × UInt64 × UInt64 × UInt64 × Unit) :=
  .cons (.required "writes") <| .cons (.required "undos") <| .cons (.required "redos") <|
    .cons (.required "undo_to_root") <| .cons (.required "pauses") <| .cons (.required "resumes") <|
    .cons (.required "clear_paused") .nil

instance : Codec Counters :=
  record.codec (fun c => (c.writes, c.undos, c.redos, c.undoToRoot, c.pauses, c.resumes, c.clearPaused, ()))
    fun (writes, undos, redos, undoToRoot, pauses, resumes, clearPaused, ()) =>
      { writes, undos, redos, undoToRoot, pauses, resumes, clearPaused }

end Counters

end Chronicle
