import Chronicle.Proofs.Layers
import Chronicle.Proofs.NodeMaps

/-!
# Stamps: histories up to ids and times

The id and the time of a node come from its stamp, and nothing that moves about in a history looks at them. `unstamped`
forgets both; two histories are the same up to ids and times if they are the same without them. `perform_alike` says that two
histories which are the same up to stamps stay so and answer the same; through the same layers they report the same, too.
-/

namespace Chronicle

variable {C E : Type}

/-- The node without its id and its time. -/
def Node.unstamped (n : Node C E) : Node C E := { n with timestamp := .epoch, id := none }

namespace History

/-- The history without the ids and times of its nodes. -/
def unstamped (h : History C E) : History C E :=
  { h with first := h.first.unstamped, written := h.written.map Node.unstamped }

/-- The operation without the id and the time of the node it writes. -/
def Operation.unstamped : Operation C E → Operation C E
  | .write n => .write n.unstamped
  | op => op

/-- Forgetting the stamps is replacing the nodes. -/
theorem Operation.unstamped_eq (op : Operation C E) : op.unstamped = op.mapNodes Node.unstamped := by
  cases op <;> rfl

/-- Histories that are the same up to stamps stay so under operations that are the same up to stamps, and answer the same. -/
theorem perform_alike {h h' : History C E} {op op' : Operation C E} (hh : h.unstamped = h'.unstamped)
    (hop : op.unstamped = op'.unstamped) :
    (h.perform op).1.unstamped = (h'.perform op').1.unstamped ∧ (h.perform op).2 = (h'.perform op').2 := by
  rw [Operation.unstamped_eq, Operation.unstamped_eq] at hop
  exact perform_mapNodes_congr hh hop

/-- The heads of histories that are the same up to stamps have the same state and the same context. -/
theorem headNode_alike {h h' : History C E} (hh : h.unstamped = h'.unstamped) :
    h.headNode.state = h'.headNode.state ∧ h.headNode.context = h'.headNode.context := by
  have hnode : h.headNode.unstamped = h'.headNode.unstamped := headNode_mapNodes_congr hh
  have hstate := congrArg Node.state hnode
  have hcontext := congrArg Node.context hnode
  exact ⟨hstate, hcontext⟩

end History

namespace Backend

variable [EventKey E]

/-- What layers report of an operation does not depend on its stamp. -/
theorem reports_unstamped (layers : List Layer) (op : History.Operation C E) (answer : History.Answer) (head : String) :
    reports layers op.unstamped answer head = reports layers op answer head := by
  cases op <;> rfl

/-- Histories that are the same up to stamps, in the same layers, have the same reported of operations that are the same up to
stamps. -/
theorem perform_signals_alike {b b' : Backend C E} {op op' : History.Operation C E}
    (hh : b.history.unstamped = b'.history.unstamped) (hl : b.layers = b'.layers) (hop : op.unstamped = op'.unstamped) :
    (b.perform op).signals = (b'.perform op').signals := by
  obtain ⟨hstate, hanswer⟩ := History.perform_alike hh hop
  rw [perform_eq, perform_eq, hl, hanswer, (History.headNode_alike hstate).1]
  simp only
  rw [← reports_unstamped b'.layers op, hop, reports_unstamped]

end Backend

end Chronicle
