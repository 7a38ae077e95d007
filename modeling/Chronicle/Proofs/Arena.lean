import Chronicle.History.Operation

/-!
# The arena: what operations do to the nodes, and the places they hold

Only writing adds a node, and no operation changes or removes one (`perform_nodes`). Head, stacks and checkpoint are places of
the arena (`WellPlaced`); every operation keeps it so, since the arena never shrinks and a move only takes over a place that
the history held already.
-/

namespace Chronicle

namespace History

variable {C E : Type}

/-- The nodes an operation adds to the arena. -/
def Operation.added : Operation C E → List (Node C E)
  | .write n => [n]
  | _ => []

/-- Head, stacks and checkpoint of a history are places of its arena. -/
structure WellPlaced (h : History C E) : Prop where
  head : h.head < h.size
  past : ∀ k ∈ h.past, k < h.size
  redone : ∀ k ∈ h.redone, k < h.size
  paused : ∀ k, h.paused = some k → k < h.size

/-! ## Single steps -/

/-- A step back moves the head to the top of the past and puts the old head on what was undone. -/
theorem undo?_eq_some {h h' : History C E} (hu : h.undo? = some h') :
    ∃ previous past, h.past = previous :: past ∧ h' = { h with head := previous, past, redone := h.head :: h.redone } := by
  obtain ⟨first, written, head, past, redone, paused⟩ := h
  cases past with
  | nil => cases hu
  | cons previous past => exact ⟨previous, past, rfl, (Option.some.inj hu).symm⟩

/-- There is no step back just if the past is empty. -/
theorem undo?_eq_none {h : History C E} : h.undo? = none ↔ h.past = [] := by
  obtain ⟨first, written, head, past, redone, paused⟩ := h
  cases past with
  | nil => exact ⟨fun _ => rfl, fun _ => rfl⟩
  | cons previous past => exact ⟨nofun, nofun⟩

/-- A step forward moves the head to the top of what was undone and puts the old head on the past. -/
theorem redo?_eq_some {h h' : History C E} (hr : h.redo? = some h') :
    ∃ next redone, h.redone = next :: redone ∧ h' = { h with head := next, past := h.head :: h.past, redone } := by
  obtain ⟨first, written, head, past, redone, paused⟩ := h
  cases redone with
  | nil => cases hr
  | cons next redone => exact ⟨next, redone, rfl, (Option.some.inj hr).symm⟩

/-- There is no step forward just if nothing was undone. -/
theorem redo?_eq_none {h : History C E} : h.redo? = none ↔ h.redone = [] := by
  obtain ⟨first, written, head, past, redone, paused⟩ := h
  cases redone with
  | nil => exact ⟨fun _ => rfl, fun _ => rfl⟩
  | cons next redone => exact ⟨nofun, nofun⟩

/-- Resuming moves the head to the checkpoint, clears it and leaves both stacks. -/
theorem resume?_eq_some {h h' : History C E} (hr : h.resume? = some h') :
    ∃ k, h.paused = some k ∧ h' = { h with head := k, paused := none } := by
  obtain ⟨k, hk, hh⟩ := Option.map_eq_some_iff.mp hr
  exact ⟨k, hk, hh.symm⟩

/-- With a checkpoint resuming moves the head to it, clears it and leaves both stacks. -/
theorem perform_resume {h : History C E} {k : Nat} (hk : h.paused = some k) :
    (h.perform .resume).1 = { h with head := k, paused := none } := by
  simp [perform, resume?, hk, moveTo]

/-- Without a checkpoint resuming does nothing. -/
theorem perform_resume_of_none {h : History C E} (hk : h.paused = none) : (h.perform .resume).1 = h := by
  simp [perform, resume?, hk, moveTo]

/-- What one step back keeps, any number of steps back keeps. -/
theorem undoTimes_invariant {P : History C E → Prop} (hundo : ∀ h h', P h → h.undo? = some h' → P h') (k : Nat)
    {h : History C E} (hP : P h) : P (undoTimes k h) := by
  induction k generalizing h with
  | zero => exact hP
  | succ k ih =>
    unfold undoTimes
    cases hu : h.undo? with
    | none => exact hP
    | some h' => exact ih (hundo h h' hP hu)

/-- What every single step of an operation keeps, the operation keeps: undoing to the root is undoing step by step. -/
theorem perform_invariant {P : History C E → Prop} {h : History C E} (hP : P h) (op : Operation C E)
    (hwrite : ∀ n, op = .write n → P (h.write n)) (hundo : ∀ h h', P h → h.undo? = some h' → P h')
    (hredo : ∀ h', h.redo? = some h' → P h') (hpause : P h.pause) (hresume : ∀ h', h.resume? = some h' → P h')
    (hclear : P h.clearPaused) : P (h.perform op).1 := by
  have hmove : ∀ o : Option (History C E), (∀ h', o = some h' → P h') → P (h.moveTo o).1 := by
    intro o ho
    cases o with
    | none => exact hP
    | some h' => exact ho h' rfl
  cases op with
  | write n => exact hwrite n rfl
  | undo => exact hmove _ fun h' hu => hundo h h' hP hu
  | redo => exact hmove _ hredo
  | undoToRoot =>
    apply hmove
    intro h' hu
    unfold undoToRoot? at hu
    split at hu
    · cases hu
      exact undoTimes_invariant hundo _ hP
    · cases hu
  | pause => exact hpause
  | resume => exact hmove _ hresume
  | clearPaused => exact hclear

/-- A move that had an effect led to where it was to lead. -/
theorem exists_of_moveTo {h : History C E} {o : Option (History C E)} (hs : (h.moveTo o).2.success = true) :
    ∃ h', o = some h' ∧ (h.moveTo o).1 = h' := by
  cases o with
  | none => cases hs
  | some h' => exact ⟨h', rfl, rfl⟩

/-- A move is answered by whether it had an effect, and never by `done`. -/
theorem moveTo_ne_done (h : History C E) (o : Option (History C E)) : (h.moveTo o).2 ≠ .done := by
  cases o <;> simp [moveTo]

/-- A move that answers `moved false` leaves the history as it was, and so does every operation that has no effect. -/
theorem perform_of_failure (h : History C E) (op : Operation C E) (hf : (h.perform op).2.success = false) :
    (h.perform op).1 = h := by
  have hmove : ∀ o : Option (History C E), (h.moveTo o).2.success = false → (h.moveTo o).1 = h := by
    intro o ho
    cases o with
    | none => rfl
    | some h' => simp [moveTo, Answer.success] at ho
  cases op with
  | write n => simp [perform, Answer.success] at hf
  | pause => simp [perform, Answer.success] at hf
  | clearPaused => simp [perform, Answer.success] at hf
  | undo => exact hmove _ hf
  | redo => exact hmove _ hf
  | undoToRoot => exact hmove _ hf
  | resume => exact hmove _ hf

/-- An operation that answers `done` leaves the head where it is. -/
theorem perform_head_of_done {h : History C E} {op : Operation C E} (hd : (h.perform op).2 = .done) :
    (h.perform op).1.head = h.head := by
  cases op with
  | write n => cases hd
  | pause => rfl
  | clearPaused => rfl
  | undo => exact absurd hd (moveTo_ne_done h _)
  | redo => exact absurd hd (moveTo_ne_done h _)
  | undoToRoot => exact absurd hd (moveTo_ne_done h _)
  | resume => exact absurd hd (moveTo_ne_done h _)

/-! ## Nodes -/

theorem nodes_write (h : History C E) (n : Node C E) : (h.write n).nodes = h.nodes ++ [n] := rfl

@[simp] theorem size_write (h : History C E) (n : Node C E) : (h.write n).size = h.size + 1 := by
  simp [size, nodes_write]

/-- The node that was written is at the head. -/
@[simp] theorem headNode_write (h : History C E) (n : Node C E) : (h.write n).headNode = n := by
  have hhead : (h.write n).head = h.size := rfl
  have hnode : (h.write n).node? h.size = some n := by simp [node?, nodes_write, size]
  rw [headNode, hhead, hnode]
  rfl

/-- An operation adds the node it writes, if it writes one, at the end of the arena, and changes no node. -/
theorem perform_nodes (h : History C E) (op : Operation C E) : (h.perform op).1.nodes = h.nodes ++ op.added := by
  by_cases hw : ∃ n, op = .write n
  · obtain ⟨n, rfl⟩ := hw
    rfl
  · have hadded : op.added = [] := by
      cases op with
      | write n => exact absurd ⟨n, rfl⟩ hw
      | _ => rfl
    rw [hadded, List.append_nil]
    apply perform_invariant (P := fun h' => h'.nodes = h.nodes) rfl op
    · intro n hn
      exact absurd ⟨n, hn⟩ hw
    · intro a b ha hu
      obtain ⟨previous, past, -, rfl⟩ := undo?_eq_some hu
      exact ha
    · intro b hr
      obtain ⟨next, redone, -, rfl⟩ := redo?_eq_some hr
      rfl
    · rfl
    · intro b hr
      obtain ⟨k, -, rfl⟩ := resume?_eq_some hr
      rfl
    · rfl

/-- A node stays at its place. -/
theorem perform_node? {h : History C E} {k : Nat} {n : Node C E} (hn : h.node? k = some n) (op : Operation C E) :
    (h.perform op).1.node? k = some n := by
  unfold node? at hn ⊢
  rw [perform_nodes, List.getElem?_append_left (List.getElem?_eq_some_iff.mp hn).1]
  exact hn

/-! ## Places -/

/-- There is a node at every place below the size. -/
theorem exists_node? {h : History C E} {k : Nat} (hk : k < h.size) : ∃ n, h.node? k = some n :=
  ⟨h.nodes.get ⟨k, hk⟩, List.getElem?_eq_getElem hk⟩

/-- There is a node only at a place below the size. -/
theorem lt_size_of_node? {h : History C E} {k : Nat} {n : Node C E} (hn : h.node? k = some n) : k < h.size :=
  (List.getElem?_eq_some_iff.mp hn).1

/-- A new history holds the place of its only node. -/
theorem wellPlaced_new (first : Node C E) : (new first).WellPlaced where
  head := by simp [new, size, nodes]
  past := by simp [new]
  redone := by simp [new]
  paused := by simp [new]

/-- The node at the head stands at the place of the head. -/
theorem WellPlaced.node?_head {h : History C E} (hp : h.WellPlaced) : h.node? h.head = some h.headNode := by
  obtain ⟨n, hn⟩ := exists_node? hp.head
  rw [headNode, hn]
  rfl

theorem WellPlaced.write {h : History C E} (hp : h.WellPlaced) (n : Node C E) : (h.write n).WellPlaced where
  head := by
    rw [size_write]
    exact Nat.lt_succ_self _
  past := by
    intro k hk
    rw [size_write]
    rcases List.mem_cons.mp hk with rfl | hk
    · exact Nat.lt_succ_of_lt hp.head
    · exact Nat.lt_succ_of_lt (hp.past k hk)
  redone := by
    intro k hk
    cases hk
  paused := by
    intro k hk
    rw [size_write]
    exact Nat.lt_succ_of_lt (hp.paused k hk)

theorem WellPlaced.undo {h h' : History C E} (hp : h.WellPlaced) (hu : h.undo? = some h') : h'.WellPlaced := by
  obtain ⟨previous, past, hpast, rfl⟩ := undo?_eq_some hu
  have hplaces := hp.past
  rw [hpast] at hplaces
  refine ⟨hplaces previous List.mem_cons_self, fun k hk => hplaces k (List.mem_cons_of_mem _ hk), ?_, hp.paused⟩
  intro k hk
  rcases List.mem_cons.mp hk with rfl | hk
  · exact hp.head
  · exact hp.redone k hk

theorem WellPlaced.redo {h h' : History C E} (hp : h.WellPlaced) (hr : h.redo? = some h') : h'.WellPlaced := by
  obtain ⟨next, redone, hredone, rfl⟩ := redo?_eq_some hr
  have hplaces := hp.redone
  rw [hredone] at hplaces
  refine ⟨hplaces next List.mem_cons_self, ?_, fun k hk => hplaces k (List.mem_cons_of_mem _ hk), hp.paused⟩
  intro k hk
  rcases List.mem_cons.mp hk with rfl | hk
  · exact hp.head
  · exact hp.past k hk

theorem WellPlaced.pause {h : History C E} (hp : h.WellPlaced) : h.pause.WellPlaced where
  head := hp.head
  past := hp.past
  redone := hp.redone
  paused := by
    intro k hk
    cases hk
    exact hp.head

theorem WellPlaced.resume {h h' : History C E} (hp : h.WellPlaced) (hr : h.resume? = some h') : h'.WellPlaced := by
  obtain ⟨k, hk, rfl⟩ := resume?_eq_some hr
  exact ⟨hp.paused k hk, hp.past, hp.redone, fun k' hk' => by cases hk'⟩

theorem WellPlaced.clearPaused {h : History C E} (hp : h.WellPlaced) : h.clearPaused.WellPlaced where
  head := hp.head
  past := hp.past
  redone := hp.redone
  paused := by
    intro k hk
    cases hk

/-- Every operation leaves head, stacks and checkpoint within the arena. -/
theorem WellPlaced.perform {h : History C E} (hp : h.WellPlaced) (op : Operation C E) : (h.perform op).1.WellPlaced :=
  perform_invariant hp op (fun n _ => hp.write n) (fun _ _ ha hu => ha.undo hu) (fun _ hr => hp.redo hr) hp.pause
    (fun _ hr => hp.resume hr) hp.clearPaused

end History

end Chronicle
