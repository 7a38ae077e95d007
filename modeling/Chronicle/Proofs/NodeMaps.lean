import Chronicle.Proofs.Arena

/-!
# Node maps: operations do not look into nodes

Where the head and the stacks go does not depend on what the nodes hold. So if every node of a history is replaced by what a
function makes of it, performing an operation and replacing the nodes may be done in either order (`perform_mapNodes`). The
function may forget something of the nodes: their stamps, or their contexts.
-/

namespace Chronicle

namespace History

variable {C E C' E' : Type} (f : Node C E → Node C' E')

/-- The history with every node replaced. -/
def mapNodes (h : History C E) : History C' E' where
  first := f h.first
  written := h.written.map f
  head := h.head
  past := h.past
  redone := h.redone
  paused := h.paused

/-- The operation with the node it writes replaced. -/
def Operation.mapNodes : Operation C E → Operation C' E'
  | .write n => .write (f n)
  | .undo => .undo
  | .redo => .redo
  | .undoToRoot => .undoToRoot
  | .pause => .pause
  | .resume => .resume
  | .clearPaused => .clearPaused

@[simp] theorem nodes_mapNodes (h : History C E) : (h.mapNodes f).nodes = h.nodes.map f := rfl

@[simp] theorem node?_mapNodes (h : History C E) (k : Nat) : (h.mapNodes f).node? k = (h.node? k).map f := by
  simp only [node?, nodes_mapNodes, List.getElem?_map]

@[simp] theorem size_mapNodes (h : History C E) : (h.mapNodes f).size = h.size := by
  simp only [size, nodes_mapNodes, List.length_map]

@[simp] theorem headNode_mapNodes (h : History C E) : (h.mapNodes f).headNode = f h.headNode := by
  have hhead : (h.mapNodes f).head = h.head := rfl
  have hfirst : (h.mapNodes f).first = f h.first := rfl
  unfold headNode
  rw [hhead, hfirst, node?_mapNodes]
  cases h.node? h.head with
  | none => rfl
  | some n => rfl

/-! ## Performing and replacing -/

theorem write_mapNodes (h : History C E) (n : Node C E) : (h.mapNodes f).write (f n) = (h.write n).mapNodes f := by
  simp only [write, size_mapNodes]
  simp [mapNodes]

theorem undo?_mapNodes (h : History C E) : (h.mapNodes f).undo? = h.undo?.map (mapNodes f) := by
  obtain ⟨first, written, head, past, redone, paused⟩ := h
  cases past <;> rfl

theorem redo?_mapNodes (h : History C E) : (h.mapNodes f).redo? = h.redo?.map (mapNodes f) := by
  obtain ⟨first, written, head, past, redone, paused⟩ := h
  cases redone <;> rfl

theorem resume?_mapNodes (h : History C E) : (h.mapNodes f).resume? = h.resume?.map (mapNodes f) := by
  obtain ⟨first, written, head, past, redone, paused⟩ := h
  cases paused <;> rfl

theorem undoTimes_mapNodes (k : Nat) (h : History C E) : undoTimes k (h.mapNodes f) = (undoTimes k h).mapNodes f := by
  induction k generalizing h with
  | zero => rfl
  | succ k ih =>
    unfold undoTimes
    rw [undo?_mapNodes]
    cases h.undo? with
    | none => rfl
    | some h' => exact ih h'

theorem undoToRoot?_mapNodes (h : History C E) : (h.mapNodes f).undoToRoot? = h.undoToRoot?.map (mapNodes f) := by
  have hc : (h.mapNodes f).canUndo = h.canUndo := rfl
  have hp : (h.mapNodes f).past = h.past := rfl
  unfold undoToRoot?
  rw [hc, hp, undoTimes_mapNodes]
  split <;> rfl

theorem moveTo_mapNodes (h : History C E) (o : Option (History C E)) :
    (h.mapNodes f).moveTo (o.map (mapNodes f)) = ((h.moveTo o).1.mapNodes f, (h.moveTo o).2) := by
  cases o <;> rfl

/-- Replacing the nodes and performing an operation may be done in either order, and the answer is the same. -/
theorem perform_mapNodes (h : History C E) (op : Operation C E) :
    (h.mapNodes f).perform (op.mapNodes f) = ((h.perform op).1.mapNodes f, (h.perform op).2) := by
  cases op with
  | write n => simp only [Operation.mapNodes, perform, write_mapNodes, size_mapNodes]
  | undo => simp only [Operation.mapNodes, perform, undo?_mapNodes, moveTo_mapNodes]
  | redo => simp only [Operation.mapNodes, perform, redo?_mapNodes, moveTo_mapNodes]
  | undoToRoot => simp only [Operation.mapNodes, perform, undoToRoot?_mapNodes, moveTo_mapNodes]
  | pause => rfl
  | resume => simp only [Operation.mapNodes, perform, resume?_mapNodes, moveTo_mapNodes]
  | clearPaused => rfl

/-! ## Histories that are the same once their nodes are replaced -/

variable {f} {C'' E'' : Type} {g : Node C'' E'' → Node C' E'} {h : History C E} {h' : History C'' E''}

/-- Histories that are the same once their nodes are replaced stay so under operations that are, and answer the same. -/
theorem perform_mapNodes_congr (hh : h.mapNodes f = h'.mapNodes g) {op : Operation C E} {op' : Operation C'' E''}
    (hop : op.mapNodes f = op'.mapNodes g) :
    (h.perform op).1.mapNodes f = (h'.perform op').1.mapNodes g ∧ (h.perform op).2 = (h'.perform op').2 := by
  have hboth : ((h.perform op).1.mapNodes f, (h.perform op).2) = ((h'.perform op').1.mapNodes g, (h'.perform op').2) := by
    rw [← perform_mapNodes, ← perform_mapNodes, hh, hop]
  exact Prod.mk.inj hboth

/-- Histories that are the same once their nodes are replaced have the same head node once it is replaced. -/
theorem headNode_mapNodes_congr (hh : h.mapNodes f = h'.mapNodes g) : f h.headNode = g h'.headNode := by
  rw [← headNode_mapNodes f, ← headNode_mapNodes g, hh]

end History

end Chronicle
