import Chronicle.Proofs.Arena
import Chronicle.Proofs.Runs

/-!
# Layers: what an operation does through all of them

A history in layers is that history and the list of its layers (`wrap_history`). `perform_eq` says what an operation on it
comes to: the operation on the history within, the same layers around the outcome, and one report of each layer.
-/

namespace Chronicle

namespace Backend

variable {C E : Type}

@[simp] theorem history_wrap (h : History C E) (layers : List Layer) : (wrap h layers).history = h := by
  induction layers with
  | nil => rfl
  | cons _ _ ih => exact ih

@[simp] theorem layers_wrap (h : History C E) (layers : List Layer) : (wrap h layers).layers = layers := by
  induction layers with
  | nil => rfl
  | cons _ _ ih => simp only [wrap, Backend.layers, ih]

/-- A history in layers is put together again from the history and the layers. -/
theorem wrap_history (b : Backend C E) : wrap b.history b.layers = b := by
  induction b with
  | plain h => rfl
  | observed layer inner ih => simp only [history, layers, wrap, ih]

/-- Two histories in layers are the same if the histories are and the layers are. -/
theorem ext_history {b b' : Backend C E} (hh : b.history = b'.history) (hl : b.layers = b'.layers) : b = b' := by
  rw [← wrap_history b, ← wrap_history b', hh, hl]

variable [EventKey E]

/-- The reports of all layers on an operation, given its answer and the state of the head after it: outermost first if it is
announced, innermost first if it is reported afterwards. -/
def reports (layers : List Layer) (op : History.Operation C E) (answer : History.Answer) (head : String) : List Signal :=
  (if Layer.announces op then layers else layers.reverse).flatMap fun layer => layer.report op answer head

/-- One layer more reports before the others if the operation is announced, and after them if not. -/
theorem reports_cons (layer : Layer) (layers : List Layer) (op : History.Operation C E) (answer : History.Answer)
    (head : String) :
    reports (layer :: layers) op answer head =
      if Layer.announces op then layer.report op answer head ++ reports layers op answer head
      else reports layers op answer head ++ layer.report op answer head := by
  unfold reports
  split <;> simp

/-- Nothing is reported of an operation that had no effect. -/
theorem reports_of_failure (layers : List Layer) (op : History.Operation C E) {answer : History.Answer} (head : String)
    (h : answer.success = false) : reports layers op answer head = [] := by
  simp [reports, Layer.report, h]

/-- An operation on a history in layers is the operation on the history within, with the same layers around it; every layer
reports it in its turn. -/
theorem perform_eq (b : Backend C E) (op : History.Operation C E) :
    b.perform op = ⟨wrap (b.history.perform op).1 b.layers, (b.history.perform op).2,
      reports b.layers op (b.history.perform op).2 (b.history.perform op).1.headNode.state⟩ := by
  induction b with
  | plain h => simp [perform, history, layers, wrap, reports]
  | observed layer inner ih => simp only [perform, ih, history, layers, wrap, history_wrap, reports_cons]

@[simp] theorem perform_history (b : Backend C E) (op : History.Operation C E) :
    (b.perform op).state.history = (b.history.perform op).1 := by
  rw [perform_eq, history_wrap]

@[simp] theorem perform_layers (b : Backend C E) (op : History.Operation C E) : (b.perform op).state.layers = b.layers := by
  rw [perform_eq, layers_wrap]

@[simp] theorem perform_answer (b : Backend C E) (op : History.Operation C E) :
    (b.perform op).answer = (b.history.perform op).2 := by
  rw [perform_eq]

/-- An operation without effect leaves the history and all layers as they were, and nothing is reported. -/
theorem perform_of_failure (b : Backend C E) (op : History.Operation C E) (hf : (b.perform op).answer.success = false) :
    (b.perform op).state = b ∧ (b.perform op).signals = [] := by
  rw [perform_answer] at hf
  constructor
  · exact ext_history (by rw [perform_history, History.perform_of_failure _ _ hf]) (perform_layers b op)
  · rw [perform_eq]
    exact reports_of_failure _ _ _ hf

/-- Operations on a history in layers are answered as on the history alone, and lead to what those lead to, in the layers. -/
theorem run_wrap (h : History C E) (layers : List Layer) (ops : List (History.Operation C E)) :
    (Turn.run perform (wrap h layers) ops).answer = (Turn.run History.turn h ops).answer ∧
      (Turn.run perform (wrap h layers) ops).state = wrap (Turn.run History.turn h ops).state layers := by
  have hstep : ∀ (s : History C E) (b : Backend C E) (op : History.Operation C E), b = wrap s layers →
      (b.perform op).answer = (s.turn op).answer ∧ (b.perform op).state = wrap (s.turn op).state layers := by
    rintro s b op rfl
    constructor
    · rw [perform_answer, history_wrap]
      rfl
    · rw [perform_eq, history_wrap, layers_wrap]
      rfl
  exact Turn.run_simulates_all (R := fun s b => b = wrap s layers) hstep ops (s := h) rfl

end Backend

end Chronicle
