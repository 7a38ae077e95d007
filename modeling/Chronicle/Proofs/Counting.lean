import Chronicle.Proofs.Layers

/-!
# Counting: what the cells of layers show

Only a signal that counts bears on the counters of a cell, and it bears on one counter (`afterAll_tally`). An operation through
layers counts its own effect, once for every layer that holds the cell, and nothing if it had no effect (`perform_count`). Along
a run every counter therefore shows how often its effect was had, times the number of layers that hold the cell (`run_count`),
modulo `2 ^ 64`.
-/

namespace Chronicle

/-- The cell and the effect of a signal that counts. -/
def Signal.count? : Signal → Option (Nat × Effect)
  | .counted cell effect => some (cell, effect)
  | .logged _ => none

namespace Counters

/-- The counters of a cell after signals. -/
def afterAll (cell : Nat) (c : Counters) (signals : List Signal) : Counters := signals.foldl (after cell) c

/-- The counter of an effect. -/
def tally (c : Counters) : Effect → UInt64
  | .write => c.writes
  | .undo => c.undos
  | .redo => c.redos
  | .undoToRoot => c.undoToRoot
  | .pause => c.pauses
  | .resume => c.resumes
  | .clearPaused => c.clearPaused

/-- Only the signals that count bear on the counters. -/
theorem afterAll_eq (cell : Nat) (c : Counters) (signals : List Signal) :
    afterAll cell c signals =
      (signals.filterMap Signal.count?).foldl (fun c counted => if counted.1 = cell then c.count counted.2 else c) c := by
  rw [List.foldl_filterMap, afterAll]
  congr
  funext c signal
  cases signal <;> rfl

/-- Runs that count the same lead every cell to the same counters. -/
theorem afterAll_congr {signals signals' : List Signal}
    (h : signals.filterMap Signal.count? = signals'.filterMap Signal.count?) (cell : Nat) (c : Counters) :
    afterAll cell c signals = afterAll cell c signals' := by
  rw [afterAll_eq, afterAll_eq, h]

/-- Counting an effect adds one to its counter and to no other. -/
theorem tally_count (c : Counters) (effect effect' : Effect) :
    (c.count effect).tally effect' = c.tally effect' + if effect = effect' then 1 else 0 := by
  cases effect <;> cases effect' <;> simp [count, tally]

/-- A signal adds one to a counter of a cell just if it counts that effect in that cell. -/
theorem tally_after (cell : Nat) (c : Counters) (signal : Signal) (effect : Effect) :
    (after cell c signal).tally effect = c.tally effect + if signal = .counted cell effect then 1 else 0 := by
  cases signal with
  | logged line => simp [after]
  | counted cell' effect' =>
    by_cases hcell : cell' = cell
    · simp [after, hcell, tally_count]
    · simp [after, hcell]

/-- After signals, a counter of a cell has gone up by the number of those that count its effect in that cell. -/
theorem afterAll_tally (cell : Nat) (c : Counters) (signals : List Signal) (effect : Effect) :
    (afterAll cell c signals).tally effect = c.tally effect + UInt64.ofNat (signals.count (.counted cell effect)) := by
  induction signals generalizing c with
  | nil => simp [afterAll]
  | cons signal signals ih =>
    have hcons : afterAll cell c (signal :: signals) = afterAll cell (after cell c signal) signals := rfl
    rw [hcons, ih, tally_after, List.count_cons]
    by_cases hsame : signal = .counted cell effect
    · simp only [hsame, if_true, beq_self_eq_true, UInt64.ofNat_add]
      rw [UInt64.add_assoc, UInt64.add_comm 1]
      rfl
    · simp [hsame]

end Counters

namespace Backend

variable {C E : Type}

/-- How many layers count into a cell. -/
def holders (layers : List Layer) (cell : Nat) : Nat := layers.countP fun layer => layer.cell = cell

/-- How often an effect was had, by a transcript. -/
def effects (transcript : List (History.Operation C E × History.Answer)) (effect : Effect) : Nat :=
  transcript.countP fun entry => entry.1.effect = effect && entry.2.success

/-- One more entry adds one to the number of its effect, if it had one. -/
theorem effects_cons (op : History.Operation C E) (answer : History.Answer)
    (transcript : List (History.Operation C E × History.Answer)) (effect : Effect) :
    effects ((op, answer) :: transcript) effect =
      effects transcript effect + if op.effect = effect ∧ answer.success = true then 1 else 0 := by
  simp [effects, List.countP_cons]

variable [EventKey E]

/-- What one layer reports of an operation counts its effect once in the cell of the layer, if there was one. -/
theorem report_count (layer : Layer) (op : History.Operation C E) (answer : History.Answer) (head : String) (cell : Nat)
    (effect : Effect) :
    (layer.report op answer head).count (.counted cell effect) =
      if layer.cell = cell ∧ op.effect = effect ∧ answer.success = true then 1 else 0 := by
  unfold Layer.report
  cases answer.success with
  | false => simp
  | true =>
    cases layer.logging <;> simp [List.count_cons]

/-- What all layers report of an operation counts its effect, if there was one, once for every layer that holds the cell. For a
count it is the same whether a layer reports before the others or after them. -/
theorem reports_count (layers : List Layer) (op : History.Operation C E) (answer : History.Answer) (head : String) (cell : Nat)
    (effect : Effect) :
    (reports layers op answer head).count (.counted cell effect) =
      if op.effect = effect ∧ answer.success = true then holders layers cell else 0 := by
  induction layers with
  | nil => simp [reports, holders]
  | cons layer layers ih =>
    have hcount : (reports (layer :: layers) op answer head).count (.counted cell effect) =
        (layer.report op answer head).count (.counted cell effect) +
          (reports layers op answer head).count (.counted cell effect) := by
      rw [reports_cons]
      split
      · rw [List.count_append]
      · rw [List.count_append, Nat.add_comm]
    rw [hcount, ih, report_count]
    simp only [holders, List.countP_cons, decide_eq_true_eq]
    grind

/-- An operation counts its effect, if it had one, once for every layer that holds the cell. -/
theorem perform_count (b : Backend C E) (op : History.Operation C E) (cell : Nat) (effect : Effect) :
    (b.perform op).signals.count (.counted cell effect) =
      if op.effect = effect ∧ (b.perform op).answer.success = true then holders b.layers cell else 0 := by
  rw [perform_answer, perform_eq]
  exact reports_count _ _ _ _ _ _

/-- A run counts every effect as often as it was had, once for every layer that holds the cell. -/
theorem run_count (b : Backend C E) (ops : List (History.Operation C E)) (cell : Nat) (effect : Effect) :
    (Turn.run perform b ops).signals.count (.counted cell effect) =
      holders b.layers cell * effects (Turn.run perform b ops).answer effect := by
  induction ops generalizing b with
  | nil => rfl
  | cons op ops ih =>
    have hrest := ih (b.perform op).state
    rw [perform_layers] at hrest
    simp only [Turn.run, List.count_append, perform_count, hrest, effects_cons]
    split
    · rw [Nat.mul_add, Nat.mul_one, Nat.add_comm]
    · rw [Nat.mul_add, Nat.mul_zero, Nat.zero_add, Nat.add_zero]

/-! ## Effects and operations -/

omit [EventKey E] in
/-- Writing, pausing and clearing the checkpoint always have an effect. -/
theorem success_of_effect (h : History C E) {op : History.Operation C E}
    (hop : op.effect = .write ∨ op.effect = .pause ∨ op.effect = .clearPaused) : (h.perform op).2.success = true := by
  cases op with
  | write n => rfl
  | pause => rfl
  | clearPaused => rfl
  | _ => simp [History.Operation.effect] at hop

/-- The effects of writing, pausing and clearing the checkpoint were had as often as they were asked for. -/
theorem effects_eq_countP (b : Backend C E) (ops : List (History.Operation C E)) {effect : Effect}
    (heffect : effect = .write ∨ effect = .pause ∨ effect = .clearPaused) :
    effects (Turn.run perform b ops).answer effect = ops.countP fun op => op.effect = effect := by
  induction ops generalizing b with
  | nil => rfl
  | cons op ops ih =>
    have hsuccess : op.effect = effect → (b.perform op).answer.success = true := by
      rintro rfl
      rw [perform_answer]
      exact success_of_effect b.history heffect
    simp only [Turn.run, effects_cons, ih, List.countP_cons, decide_eq_true_eq]
    by_cases hop : op.effect = effect
    · simp only [hop, hsuccess hop, and_self]
    · simp only [hop, false_and]

omit [EventKey E] in
/-- An operation adds a node just if its effect is writing. -/
theorem perform_size (h : History C E) (op : History.Operation C E) :
    (h.perform op).1.size = h.size + if op.effect = .write ∧ (h.perform op).2.success = true then 1 else 0 := by
  have hnodes := History.perform_nodes h op
  rw [History.size, hnodes, List.length_append]
  cases op <;> rfl

/-- Along a run the arena grows by one node for every time that writing was had. -/
theorem run_size (b : Backend C E) (ops : List (History.Operation C E)) :
    (Turn.run perform b ops).state.history.size = b.history.size + effects (Turn.run perform b ops).answer .write := by
  induction ops generalizing b with
  | nil => rfl
  | cons op ops ih =>
    simp only [Turn.run, ih, effects_cons, perform_history, perform_size, perform_answer]
    omega

/-- A run leaves the layers around the history. -/
theorem run_layers (b : Backend C E) (ops : List (History.Operation C E)) :
    (Turn.run perform b ops).state.layers = b.layers :=
  Turn.run_invariant (P := fun b' : Backend C E => b'.layers = b.layers) (fun b' op h => (perform_layers b' op).trans h) ops rfl

/-- Counters count effects, exactly. Let operations be carried out on a history in layers, with every cell at zero before them.
1. Every counter of a cell shows how often its effect was had, times the number of layers that hold the cell, modulo `2 ^ 64`.
2. In the cell that a layer has for itself, every counter shows how often its effect was had; that of writing also shows by how
   many nodes the arena has grown.
3. Writing, pausing and clearing the checkpoint were had as often as they were asked for.
4. Whatever a cell has counted, one more operation adds to the counter of its own effect and to no other, once for every layer
   that holds the cell: undoing to the root is counted once, and never as undoing.
5. An operation that is answered `false` leaves the counters of all cells as they were. -/
theorem counters_exact (h : History C E) (layers : List Layer) (ops : List (History.Operation C E)) :
    let ended := Turn.run perform (wrap h layers) ops
    let shown (cell : Nat) : Counters := Counters.afterAll cell {} ended.signals
    (∀ cell effect, (shown cell).tally effect = UInt64.ofNat (holders layers cell * effects ended.answer effect)) ∧
    (∀ layer ∈ layers, holders layers layer.cell = 1 →
      (∀ effect, (shown layer.cell).tally effect = UInt64.ofNat (effects ended.answer effect)) ∧
        h.size ≤ ended.state.history.size ∧
        (shown layer.cell).writes = UInt64.ofNat (ended.state.history.size - h.size)) ∧
    (∀ effect, effect = .write ∨ effect = .pause ∨ effect = .clearPaused →
      effects ended.answer effect = ops.countP fun op => op.effect = effect) ∧
    (∀ op cell c effect, (Counters.afterAll cell c (ended.state.perform op).signals).tally effect = c.tally effect +
      if op.effect = effect ∧ (ended.state.perform op).answer.success = true then UInt64.ofNat (holders layers cell) else 0) ∧
    (∀ op, (ended.state.perform op).answer.success = false →
      ∀ cell c, Counters.afterAll cell c (ended.state.perform op).signals = c) := by
  intro ended shown
  have hlayers : ended.state.layers = layers := (run_layers _ ops).trans (layers_wrap h layers)
  have htally : ∀ cell effect,
      (shown cell).tally effect = UInt64.ofNat (holders layers cell * effects ended.answer effect) := by
    intro cell effect
    have hzero : ({} : Counters).tally effect = 0 := by cases effect <;> rfl
    rw [Counters.afterAll_tally, hzero, run_count, layers_wrap, UInt64.zero_add]
  have hsize : ended.state.history.size = h.size + effects ended.answer .write := by
    have hgrown := run_size (wrap h layers) ops
    rw [history_wrap] at hgrown
    exact hgrown
  refine ⟨htally, ?_, fun effect heffect => effects_eq_countP _ ops heffect, ?_, ?_⟩
  · intro layer _ hown
    have hexact : ∀ effect, (shown layer.cell).tally effect = UInt64.ofNat (effects ended.answer effect) := by
      intro effect
      rw [htally, hown, Nat.one_mul]
    refine ⟨hexact, by omega, ?_⟩
    have hwrites := hexact .write
    rw [hsize, Nat.add_sub_cancel_left]
    exact hwrites
  · intro op cell c effect
    rw [Counters.afterAll_tally, perform_count, hlayers]
    split
    · rfl
    · rfl
  · intro op hidle cell c
    rw [(perform_of_failure _ _ hidle).2]
    rfl

end Backend

end Chronicle
