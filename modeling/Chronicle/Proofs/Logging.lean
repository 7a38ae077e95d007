import Mathlib.Data.List.Induction
import Chronicle.Proofs.Layers

/-!
# Logging: the lines of a run, layer by layer

What a run did is the list of its deeds: the operations that had an effect, each with the state of the head after it. A layer
reports every deed once, with a line if it logs, and nothing else (`run_signals`); so the lines that are shown are those of the
deeds, as many of each as there are layers that log (`run_shown`). A line names the state of the head after its deed, unless the
deed left the head where it was, and therefore the last line that names a state names that of the head (`named_getLast?`).
-/

namespace Chronicle

/-- The state a line names: of the node that is written, or of the head. -/
def LogLine.named? (line : LogLine) : Option String := line.fields.lookup "state" <|> line.fields.lookup "head"

namespace History

variable {C E : Type}

/-- The deeds of a run: the operations that had an effect, each with the state of the head after it. -/
def deeds (h : History C E) : List (Operation C E) → List (Operation C E × String)
  | [] => []
  | op :: ops =>
    (if (h.perform op).2.success then [(op, (h.perform op).1.headNode.state)] else []) ++ deeds (h.perform op).1 ops

/-- The deeds of a run with one more operation. -/
theorem deeds_snoc (h : History C E) (ops : List (Operation C E)) (op : Operation C E) :
    h.deeds (ops ++ [op]) = h.deeds ops ++
      if ((h.run ops).perform op).2.success then [(op, ((h.run ops).perform op).1.headNode.state)] else [] := by
  induction ops generalizing h with
  | nil =>
    show _ ++ [] = [] ++ _
    rw [List.append_nil, List.nil_append]
    rfl
  | cons first ops ih =>
    have hrun : h.run (first :: ops) = (h.perform first).1.run ops := rfl
    rw [List.cons_append, deeds, ih, deeds, List.append_assoc, hrun]

end History

namespace Layer

variable {C E : Type} [EventKey E]

/-- The fields of the line of a deed: the state and the event key of a node that was written, the state of the head after a move,
and nothing where only the checkpoint is concerned. -/
def saying (op : History.Operation C E) (head : String) : List (String × String) :=
  match op with
  | .write n => [("state", n.state), ("event", key n.trigger)]
  | .undo | .redo | .undoToRoot | .resume => [("head", head)]
  | .pause | .clearPaused => []

/-- What stands in the line of a deed. -/
theorem line_says (op : History.Operation C E) (head : String) :
    (line op head).level = .debug ∧ (line op head).target = "causality::history" ∧
      (line op head).message = op.effect.message ∧ (line op head).fields = saying op head := by
  cases op <;> exact ⟨rfl, rfl, rfl, rfl⟩

/-- The state that the line of a deed names. -/
def named? (deed : History.Operation C E × String) : Option String := (line deed.1 deed.2).named?

/-- The line of a deed names the state of the head after it, if it names one; if not, the deed left the head where it was. -/
theorem named?_cases (h : History C E) (op : History.Operation C E) :
    named? (op, (h.perform op).1.headNode.state) = some (h.perform op).1.headNode.state ∨
      named? (op, (h.perform op).1.headNode.state) = none ∧ (h.perform op).1.headNode = h.headNode := by
  cases op with
  | write n =>
    left
    have hhead : (h.perform (.write n)).1.headNode = n := History.headNode_write h n
    rw [hhead]
    simp [named?, LogLine.named?, line, LogLine.fields]
  | pause => exact Or.inr ⟨rfl, rfl⟩
  | clearPaused => exact Or.inr ⟨rfl, rfl⟩
  | undo | redo | undoToRoot | resume =>
    left
    simp [named?, LogLine.named?, line, LogLine.fields, List.lookup_cons]

end Layer

namespace Backend

variable {C E : Type}

/-- The layers in the order in which they report: outermost first of writing, pausing and clearing the checkpoint, and innermost
first of moves. -/
def reporting (layers : List Layer) (effect : Effect) : List Layer :=
  if effect = .write ∨ effect = .pause ∨ effect = .clearPaused then layers else layers.reverse

variable [EventKey E]

/-- What one layer signals of a deed: its line, if it logs, and one count in its cell. -/
def share (deed : History.Operation C E × String) (layer : Layer) : List Signal :=
  (if layer.logging then [.logged (Layer.line deed.1 deed.2)] else []) ++ [.counted layer.cell deed.1.effect]

/-! ## Signals -/

/-- An operation with an effect is signalled by every layer once, and one without is not signalled. -/
theorem perform_signals (b : Backend C E) (op : History.Operation C E) :
    (b.perform op).signals =
      if (b.history.perform op).2.success then
        (reporting b.layers op.effect).flatMap (share (op, (b.history.perform op).1.headNode.state))
      else [] := by
  rw [perform_eq]
  by_cases hs : (b.history.perform op).2.success = true
  · have horder : (if Layer.announces op then b.layers else b.layers.reverse) = reporting b.layers op.effect := by
      cases op <;> rfl
    simp only [reports, Layer.report, hs, if_true, horder]
    rfl
  · rw [Bool.not_eq_true] at hs
    rw [if_neg (by rw [hs]; exact Bool.false_ne_true)]
    exact reports_of_failure _ _ _ hs

/-- A run signals its deeds in their order, each of them by every layer once. -/
theorem run_signals (b : Backend C E) (ops : List (History.Operation C E)) :
    (Turn.run perform b ops).signals =
      (b.history.deeds ops).flatMap fun deed => (reporting b.layers deed.1.effect).flatMap (share deed) := by
  induction ops generalizing b with
  | nil => rfl
  | cons op ops ih =>
    have hrest := ih (b.perform op).state
    rw [perform_history, perform_layers] at hrest
    simp only [Turn.run, History.deeds, hrest, perform_signals, List.flatMap_append]
    by_cases hs : (b.history.perform op).2.success = true
    · simp [hs]
    · simp [hs]

/-! ## Lines -/

/-- Of the signals of one deed as many lines are shown as there are layers that log. -/
theorem shown_deed {verbosity : Verbosity} (hshown : LogLevel.debug.shownAt verbosity = true) (layers : List Layer)
    (deed : History.Operation C E × String) :
    Signal.shown verbosity (layers.flatMap (share deed)) =
      List.replicate (layers.countP (·.logging)) (Layer.line deed.1 deed.2) := by
  induction layers with
  | nil => rfl
  | cons layer layers ih =>
    have hlevel : (Layer.line deed.1 deed.2).level.shownAt verbosity = true := by
      rw [(Layer.line_says deed.1 deed.2).1]
      exact hshown
    unfold Signal.shown at ih ⊢
    rw [List.flatMap_cons, List.filterMap_append, ih, List.countP_cons]
    unfold share
    by_cases hlogging : layer.logging = true
    · simp [hlogging, hlevel, List.replicate_succ]
    · simp [hlogging]

/-- The lines of a run that are shown are those of its deeds, as many of each as there are layers that log. -/
theorem run_shown {verbosity : Verbosity} (hshown : LogLevel.debug.shownAt verbosity = true) (b : Backend C E)
    (ops : List (History.Operation C E)) :
    Signal.shown verbosity (Turn.run perform b ops).signals =
      (b.history.deeds ops).flatMap fun deed =>
        List.replicate (b.layers.countP (·.logging)) (Layer.line deed.1 deed.2) := by
  rw [run_signals]
  induction b.history.deeds ops with
  | nil => rfl
  | cons deed deeds ih =>
    have hcount : (reporting b.layers deed.1.effect).countP (·.logging) = b.layers.countP (·.logging) := by
      unfold reporting
      split
      · rfl
      · exact List.countP_reverse
    have hdeed := shown_deed hshown (reporting b.layers deed.1.effect) deed
    unfold Signal.shown at ih hdeed ⊢
    rw [List.flatMap_cons, List.filterMap_append, ih, hdeed, hcount, List.flatMap_cons]

/-! ## The last line that names a state -/

/-- Of the deeds of a run the last whose line names a state names that of the head. -/
theorem deeds_named (h : History C E) (ops : List (History.Operation C E)) {state : String}
    (hlast : ((h.deeds ops).filterMap Layer.named?).getLast? = some state) :
    state = (h.run ops).headNode.state := by
  induction ops using List.reverseRecOn with
  | nil => cases hlast
  | append_singleton ops op ih =>
    have hrun : h.run (ops ++ [op]) = ((h.run ops).perform op).1 := History.run_append h ops [op]
    rw [History.deeds_snoc, List.filterMap_append] at hlast
    rw [hrun]
    by_cases hs : ((h.run ops).perform op).2.success = true
    · rw [if_pos hs] at hlast
      rcases Layer.named?_cases (h.run ops) op with hnamed | ⟨hnamed, hhead⟩
      · rw [List.filterMap_cons_some hnamed, List.filterMap_nil, List.getLast?_concat] at hlast
        exact (Option.some.inj hlast).symm
      · rw [List.filterMap_cons_none hnamed, List.filterMap_nil, List.append_nil] at hlast
        rw [hhead]
        exact ih hlast
    · rw [Bool.not_eq_true] at hs
      rw [hs, if_neg Bool.false_ne_true, List.filterMap_nil, List.append_nil] at hlast
      rw [History.perform_of_failure _ _ hs]
      exact ih hlast

/-- What a list ends with, it ends with when everything in it is repeated, if it is repeated at all. -/
theorem getLast?_repeated {α : Type} {n : Nat} {l : List α} {a : α}
    (h : (l.flatMap (List.replicate n)).getLast? = some a) : l.getLast? = some a := by
  cases n with
  | zero =>
    have hnil : l.flatMap (List.replicate 0) = [] := List.flatMap_eq_nil_iff.mpr fun _ _ => rfl
    rw [hnil] at h
    cases h
  | succ n =>
    induction l using List.reverseRecOn with
    | nil => cases h
    | append_singleton l b _ =>
      rw [List.flatMap_append, List.flatMap_singleton, List.replicate_succ', ← List.append_assoc, List.getLast?_concat] at h
      rw [List.getLast?_concat, h]

/-- The last line of a run that names a state names that of the head. -/
theorem named_getLast? {verbosity : Verbosity} (hshown : LogLevel.debug.shownAt verbosity = true) (b : Backend C E)
    (ops : List (History.Operation C E)) {state : String}
    (hlast : ((Signal.shown verbosity (Turn.run perform b ops).signals).filterMap LogLine.named?).getLast? = some state) :
    state = (b.history.run ops).headNode.state := by
  have hrepeated : (Signal.shown verbosity (Turn.run perform b ops).signals).filterMap LogLine.named? =
      ((b.history.deeds ops).filterMap Layer.named?).flatMap
        (List.replicate (b.layers.countP (·.logging))) := by
    rw [run_shown hshown]
    induction b.history.deeds ops with
    | nil => rfl
    | cons deed deeds ih =>
      rw [List.flatMap_cons, List.filterMap_append, ih, List.filterMap_replicate]
      cases hnamed : Layer.named? deed with
      | none =>
        have hline : (Layer.line deed.1 deed.2).named? = none := hnamed
        rw [List.filterMap_cons_none hnamed, hline, List.nil_append]
      | some named =>
        have hline : (Layer.line deed.1 deed.2).named? = some named := hnamed
        rw [List.filterMap_cons_some hnamed, hline, List.flatMap_cons]
  rw [hrepeated] at hlast
  exact deeds_named b.history ops (getLast?_repeated hlast)

/-- The log of a history in layers is a faithful trace of what was done to it, where lines of level `DEBUG` are shown:
1. A run signals its deeds in their order, and nothing else. Every layer signals each of them once, with one line if it logs and
   with none if it does not, and counts it once: outermost layer first of writing, pausing and clearing the checkpoint, and
   innermost first of the moves. An operation that is answered `false` is no deed and signalled by none.
2. So the lines that are shown are those of the deeds, as many of each as there are layers that log.
3. The line of a deed has its name as message; it gives the state and the event key of a node that was written, and the state of
   the head after a move.
4. After any run, the last line that names a state names the state of the head. -/
theorem log_is_faithful_trace (h : History C E) (layers : List Layer) (ops : List (History.Operation C E))
    {verbosity : Verbosity} (hshown : LogLevel.debug.shownAt verbosity = true) :
    let ended := Turn.run perform (wrap h layers) ops
    let shown := Signal.shown verbosity ended.signals
    (ended.signals = (h.deeds ops).flatMap fun deed => (reporting layers deed.1.effect).flatMap fun layer =>
      (if layer.logging then [.logged (Layer.line deed.1 deed.2)] else []) ++ [.counted layer.cell deed.1.effect]) ∧
    (shown = (h.deeds ops).flatMap fun deed =>
      List.replicate (layers.countP (·.logging)) (Layer.line deed.1 deed.2)) ∧
    (∀ (op : History.Operation C E) (head : String), (Layer.line op head).level = .debug ∧
      (Layer.line op head).target = "causality::history" ∧ (Layer.line op head).message = op.effect.message ∧
      (Layer.line op head).fields = Layer.saying op head) ∧
    (∀ state, (shown.filterMap LogLine.named?).getLast? = some state → state = ended.state.history.headNode.state) := by
  intro ended shown
  refine ⟨?_, ?_, Layer.line_says, ?_⟩
  · have hsignals := run_signals (wrap h layers) ops
    rw [history_wrap, layers_wrap] at hsignals
    exact hsignals
  · have hlines := run_shown hshown (wrap h layers) ops
    rw [history_wrap, layers_wrap] at hlines
    exact hlines
  · intro state hlast
    have hhistory : ended.state.history = h.run ops := by
      rw [(run_wrap h layers ops).2, history_wrap, History.run_turn_state]
    have hnamed := named_getLast? hshown (wrap h layers) ops hlast
    rw [history_wrap] at hnamed
    rw [hhistory]
    exact hnamed

/-- Two layers that log around one that does not: a step back in vain leaves no line, and after a write, a pause and a step back
the last line that names a state names the one stepped back to. -/
theorem log_is_faithful_trace_door :
    let door (state : String) : Node Unit String := .root state () .epoch
    let layers : List Layer := [⟨0, true⟩, ⟨1, false⟩, ⟨2, true⟩]
    let ops : List (History.Operation Unit String) := [.undo, .write (door "open"), .undo, .pause]
    let shown := Signal.shown .debug (Turn.run perform (wrap (.new (door "closed")) layers) ops).signals
    LogLevel.debug.shownAt .debug = true ∧ shown = [.writing "open" "null", .writing "open" "null", .moved .undo "closed",
      .moved .undo "closed", .marking .pause, .marking .pause] := by
  intro door layers ops shown
  have hshown : LogLevel.debug.shownAt .debug = true := rfl
  refine ⟨hshown, ?_⟩
  exact (log_is_faithful_trace (.new (door "closed")) layers ops hshown).2.1

end Backend

end Chronicle
