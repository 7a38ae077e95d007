import Mathlib.Logic.Function.Iterate
import Chronicle.Proofs.Calls
import Chronicle.Proofs.Lineage

/-!
# Transparency: layers change nothing that can be seen

A layer counts and logs, and otherwise hands on what it is asked to what it wraps. A `Reading` is everything that can be asked
of a history; it is read through the layers one by one, and comes to that of the history within (`reading_eq`). Under
operations a history in layers and the same history without them stay in step (`run_wrap`), and so do two interpreters over
histories that are the same up to stamps, whatever their layers (`run_alike`).
-/

namespace Chronicle

/-- Everything that can be asked of a history without changing it. -/
structure Reading (C E : Type) where
  headNode : Node C E
  head : Nat
  node? : Nat → Option (Node C E)
  size : Nat
  /-- How many heads there are to step back through. -/
  pastLength : Nat
  /-- How many heads there are to step forward through. -/
  redoneLength : Nat
  canUndo : Bool
  canRedo : Bool
  isPaused : Bool

namespace Reading

variable {C E : Type}

/-- The nodes from an index back along the parents, each looked up in its turn. The walk ends at a parent that is no earlier
node. -/
def walk (r : Reading C E) (index : Nat) : List (Node C E) :=
  match r.node? index with
  | none => []
  | some n =>
    match n.parent with
    | none => [n]
    | some parent => if parent < index then n :: walk r parent else [n]
termination_by index

/-- The nodes from the head back along the parents. -/
def lineage (r : Reading C E) : List (Node C E) := r.walk r.head

end Reading

/-- What a history answers by itself. -/
def History.reading {C E : Type} (h : History C E) : Reading C E where
  headNode := h.headNode
  head := h.head
  node? := h.node?
  size := h.size
  pastLength := h.past.length
  redoneLength := h.redone.length
  canUndo := h.canUndo
  canRedo := h.canRedo
  isPaused := h.isPaused

/-- Walking by the answers of a history gives the nodes at the indices that its own walk gives. -/
theorem History.walk_reading {C E : Type} (h : History C E) (index : Nat) :
    h.reading.walk index = (h.walk index).filterMap h.node? := by
  induction index using Nat.strongRecOn with
  | ind index ih =>
    have hnode : h.reading.node? index = h.node? index := rfl
    unfold Reading.walk History.walk
    rw [hnode]
    cases hn : h.node? index with
    | none => rfl
    | some n =>
      cases hp : n.parent with
      | none => simp [hp, hn]
      | some parent =>
        by_cases hlt : parent < index
        · simp [hp, hlt, hn, ih parent hlt]
        · simp [hp, hlt, hn]

/-- The lineage that is read off a history is its lineage. -/
theorem History.lineage_reading {C E : Type} (h : History C E) : h.reading.lineage = h.lineage := h.walk_reading h.head

namespace Backend

variable {C E : Type}

/-- What a history answers through its layers: each layer asks what it wraps. -/
def reading : Backend C E → Reading C E
  | .plain h => h.reading
  | .observed _ inner =>
    { headNode := inner.reading.headNode
      head := inner.reading.head
      node? := fun index => inner.reading.node? index
      size := inner.reading.size
      pastLength := inner.reading.pastLength
      redoneLength := inner.reading.redoneLength
      canUndo := inner.reading.canUndo
      canRedo := inner.reading.canRedo
      isPaused := inner.reading.isPaused }

/-- What is left when the outermost layer is taken off; a plain history stays as it is. -/
def inner : Backend C E → Backend C E
  | .plain h => .plain h
  | .observed _ inner => inner

/-- Through any layers the answers are those of the history within. -/
theorem reading_eq (b : Backend C E) : b.reading = b.history.reading := by
  induction b with
  | plain h => rfl
  | observed layer inner ih => exact ih

/-- Taking layers off leaves the others around the same history. -/
theorem iterate_inner_wrap (h : History C E) (layers : List Layer) (n : Nat) :
    inner^[n] (wrap h layers) = wrap h (layers.drop n) := by
  induction n generalizing layers with
  | zero => rfl
  | succ n ih =>
    cases layers with
    | nil =>
      have hplain := ih []
      rw [List.drop_nil] at hplain ⊢
      exact hplain
    | cons layer layers => exact ih layers

end Backend

namespace Interpreter

variable {C E ε : Type} [EventKey E]

/-- Two interpreters that are alike, and both started or both stopped, answer a run of calls alike and stay so, whatever the
layers around their histories and whatever their clocks. -/
theorem run_alike {i j : Interpreter C E} (h : Alike i j) (hs : i.started = j.started) (clock clock' : Nat → Stamp)
    (calls : List (Call C E ε)) :
    (j.run clock' calls).answer = (i.run clock calls).answer ∧
      Alike (i.run clock calls).state (j.run clock' calls).state ∧
      (i.run clock calls).state.started = (j.run clock' calls).state.started := by
  have hstep : ∀ (i j : Interpreter C E) (c : Call C E ε), Alike i j ∧ i.started = j.started →
      (j.call (clock' j.history.size) c).answer = (i.call (clock i.history.size) c).answer ∧
        Alike (i.call (clock i.history.size) c).state (j.call (clock' j.history.size) c).state ∧
        (i.call (clock i.history.size) c).state.started = (j.call (clock' j.history.size) c).state.started := by
    rintro i j c ⟨h, hs⟩
    have hd := decision_alike h hs c
    obtain ⟨hanswer, halike, -⟩ := call_alike h (clock i.history.size) (clock' j.history.size) hd
    exact ⟨hanswer.symm, halike, call_started_alike hs _ _ hd⟩
  exact Turn.run_simulates_all (R := fun i j : Interpreter C E => Alike i j ∧ i.started = j.started) hstep calls ⟨h, hs⟩

/-- Layers are transparent, however many there are, whether they log, and whether or not they share their cells. In three
parts:
1. Operations are answered through the layers as on the history alone, and leave everything that can be asked through them, the
   lineage among it, as it is on the history alone.
2. At that point any number of layers can be taken off. What is left of them is around the history that the operations alone
   lead to; if none is left, it is that history.
3. An interpreter over the history in layers answers all calls like one over a history without them that is the same up to
   stamps, is started if that one is, and has, up to stamps, the same arena, head, stacks and checkpoint. -/
theorem layers_transparent {h h' : History C E} (hh : h.unstamped = h'.unstamped) (layers : List Layer)
    (ops : List (History.Operation C E)) (m : Machine C) (clock clock' : Nat → Stamp) (calls : List (Call C E ε)) :
    let layered := Turn.run Backend.perform (Backend.wrap h layers) ops
    let observed := (Interpreter.over m (Backend.wrap h layers)).run clock calls
    let plain := (Interpreter.over m (.plain h')).run clock' calls
    (layered.answer = (Turn.run History.turn h ops).answer ∧ layered.state.reading = (h.run ops).reading ∧
      layered.state.reading.lineage = (h.run ops).lineage) ∧
    (∀ n, Backend.inner^[n] layered.state = Backend.wrap (h.run ops) (layers.drop n)) ∧
    (observed.answer = plain.answer ∧ observed.state.started = plain.state.started ∧
      observed.state.history.unstamped = plain.state.history.unstamped) := by
  intro layered observed plain
  obtain ⟨hanswer, hstate⟩ := Backend.run_wrap h layers ops
  rw [History.run_turn_state] at hstate
  have hreading : layered.state.reading = (h.run ops).reading := by rw [Backend.reading_eq, hstate, Backend.history_wrap]
  have halike : Alike (Interpreter.over m (Backend.wrap h layers)) (Interpreter.over m (.plain h')) :=
    ⟨rfl, (congrArg History.unstamped (Backend.history_wrap h layers)).trans hh⟩
  obtain ⟨hcalls, hend, hstarted⟩ := run_alike halike rfl clock clock' calls
  refine ⟨⟨hanswer, hreading, ?_⟩, ?_, hcalls.symm, hstarted, hend.history⟩
  · rw [hreading, History.lineage_reading]
  · intro n
    rw [hstate, Backend.iterate_inner_wrap]

/-- Two layers with one cell around a door, and a door without them that was hung at another time. -/
theorem layers_transparent_door :
    let door : Machine Unit :=
      ⟨Definition.withFallback { initial := "closed", context := () } "PUSH" (.bare "open"), by decide⟩
    let hung (n : Nat) : History Unit String := .new (rootOf door (.ofNat n))
    (hung 0).unstamped = (hung 9).unstamped ∧
      ((Interpreter.over door (Backend.wrap (hung 0) [⟨0, true⟩, ⟨0, false⟩])).run .ofNat
        ([.send "PUSH", .undo, .undo, .redo] : List (Call Unit String Empty))).answer.map Prod.snd =
        [.flag true, .flag true, .flag false, .flag true] := by
  intro door hung
  have hsame : (hung 0).unstamped = (hung 9).unstamped := rfl
  refine ⟨hsame, ?_⟩
  have h := layers_transparent hsame [⟨0, true⟩, ⟨0, false⟩] [] door .ofNat .ofNat
    ([.send "PUSH", .undo, .undo, .redo] : List (Call Unit String Empty))
  rw [h.2.2.1]
  decide

end Interpreter

end Chronicle
