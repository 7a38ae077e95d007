import Chronicle.Proofs.Lineage
import Chronicle.Proofs.Runs

/-!
# Places: what a history stores, and what it still holds

The arena only grows: after a run it is the nodes there were and then the nodes that were written (`run_nodes`). So a node is
found at its place ever after, and the walk back from it passes the same nodes (`walk_run`).

Of the places of its arena a history holds those of the head, the stacks and the checkpoint. An operation comes to hold no
other place than it held before, save the place of a node it writes (`perform_holds`), and that place is new. So what is let go
once is never held again (`Forgotten.run`), although the node stays where it is.
-/

namespace Chronicle

namespace History

variable {C E : Type}

/-- A history holds the places of its head, of its stacks and of its checkpoint. -/
def Holds (h : History C E) (k : Nat) : Prop := k = h.head ∨ k ∈ h.past ∨ k ∈ h.redone ∨ h.paused = some k

instance (h : History C E) (k : Nat) : Decidable (h.Holds k) := inferInstanceAs (Decidable (_ ∨ _ ∨ _ ∨ _))

/-- A place is forgotten if there is a node at it and the history does not hold it. -/
structure Forgotten (h : History C E) (k : Nat) : Prop where
  stored : k < h.size
  dropped : ¬h.Holds k

/-! ## What is stored -/

/-- After a run the arena is the nodes there were, then the nodes that were written, in the order of writing. -/
theorem run_nodes (h : History C E) (ops : List (Operation C E)) :
    (h.run ops).nodes = h.nodes ++ ops.flatMap Operation.added := by
  induction ops generalizing h with
  | nil => simp [run]
  | cons op ops ih =>
    calc ((h.perform op).1.run ops).nodes
        = (h.perform op).1.nodes ++ ops.flatMap Operation.added := ih _
      _ = h.nodes ++ (op :: ops).flatMap Operation.added := by
        rw [perform_nodes, List.flatMap_cons, List.append_assoc]

/-- A run changes nothing at the places there were. -/
theorem run_node? (h : History C E) (ops : List (Operation C E)) {k : Nat} (hk : k < h.size) :
    (h.run ops).node? k = h.node? k := by
  unfold node?
  rw [run_nodes, List.getElem?_append_left hk]

/-- A walk depends on no node after the one it begins with. -/
theorem walk_congr {h h' : History C E} {k : Nat} (hnodes : ∀ j ≤ k, h'.node? j = h.node? j) : h'.walk k = h.walk k := by
  induction k using Nat.strong_induction_on with
  | _ k ih =>
    unfold walk
    rw [hnodes k (Nat.le_refl k)]
    cases h.node? k with
    | none => rfl
    | some n =>
      cases hp : n.parent with
      | none => simp only [hp]
      | some p =>
        by_cases hlt : p < k
        · have hrest : h'.walk p = h.walk p := ih p hlt fun j hj => hnodes j (by omega)
          simp only [hp, hlt, if_true, hrest]
        · simp only [hp, hlt, if_false]

/-- A run changes no walk from a place there was. -/
theorem walk_run (h : History C E) (ops : List (Operation C E)) {k : Nat} (hk : k < h.size) :
    (h.run ops).walk k = h.walk k :=
  walk_congr fun _ hj => run_node? h ops (Nat.lt_of_le_of_lt hj hk)

/-! ## What is held -/

theorem holds_of_past {h : History C E} {k : Nat} (hk : k ∈ h.past) : h.Holds k := Or.inr (Or.inl hk)

theorem holds_of_redone {h : History C E} {k : Nat} (hk : k ∈ h.redone) : h.Holds k := Or.inr (Or.inr (Or.inl hk))

theorem holds_of_paused {h : History C E} {k : Nat} (hk : h.paused = some k) : h.Holds k := Or.inr (Or.inr (Or.inr hk))

/-- Head, stacks and checkpoint are places of the arena just if every place that is held is one. -/
theorem wellPlaced_iff {h : History C E} : h.WellPlaced ↔ ∀ k, h.Holds k → k < h.size := by
  constructor
  · rintro hp k (rfl | hk | hk | hk)
    · exact hp.head
    · exact hp.past k hk
    · exact hp.redone k hk
    · exact hp.paused k hk
  · intro hall
    exact ⟨hall _ (Or.inl rfl), fun k hk => hall k (holds_of_past hk), fun k hk => hall k (holds_of_redone hk),
      fun k hk => hall k (holds_of_paused hk)⟩

/-- After a run, head, stacks and checkpoint are places of the arena if they were before. -/
theorem WellPlaced.run {h : History C E} (hp : h.WellPlaced) (ops : List (Operation C E)) : (h.run ops).WellPlaced := by
  induction ops generalizing h with
  | nil => exact hp
  | cons op ops ih => exact ih (hp.perform op)

/-- The checkpoint is at a node just if there is one. -/
theorem WellPlaced.checkpoint?_isSome {h : History C E} (hp : h.WellPlaced) : h.checkpoint?.isSome = h.isPaused := by
  unfold checkpoint? isPaused
  cases hk : h.paused with
  | none => rfl
  | some k =>
    obtain ⟨n, hn⟩ := exists_node? (hp.paused k hk)
    simp only [Option.bind_some, hn, Option.isSome_some]

/-- A written node brings its own place; what could be redone is let go, unless it is held otherwise. -/
theorem holds_write {h : History C E} {n : Node C E} {k : Nat} :
    (h.write n).Holds k ↔ k = h.size ∨ k = h.head ∨ k ∈ h.past ∨ h.paused = some k := by
  simp [Holds, write, or_assoc]

/-- A step back takes no place up and lets none go. -/
theorem holds_undo {h h' : History C E} (hu : h.undo? = some h') {k : Nat} : h'.Holds k ↔ h.Holds k := by
  obtain ⟨previous, past, hpast, rfl⟩ := undo?_eq_some hu
  simp only [Holds, hpast, List.mem_cons]
  tauto

/-- A step forward takes no place up and lets none go. -/
theorem holds_redo {h h' : History C E} (hr : h.redo? = some h') {k : Nat} : h'.Holds k ↔ h.Holds k := by
  obtain ⟨next, redone, hredone, rfl⟩ := redo?_eq_some hr
  simp only [Holds, hredone, List.mem_cons]
  tauto

/-- Pausing lets the old checkpoint go, unless it is held otherwise. -/
theorem holds_pause {h : History C E} {k : Nat} : h.pause.Holds k ↔ k = h.head ∨ k ∈ h.past ∨ k ∈ h.redone := by
  simp only [Holds, pause, Option.some.injEq]
  tauto

/-- Resuming lets the head go, unless it is held otherwise. -/
theorem holds_resume {h h' : History C E} (hr : h.resume? = some h') {k : Nat} :
    h'.Holds k ↔ h.paused = some k ∨ k ∈ h.past ∨ k ∈ h.redone := by
  obtain ⟨place, hplace, rfl⟩ := resume?_eq_some hr
  simp only [Holds, hplace, Option.some.injEq, reduceCtorEq, or_false]
  tauto

/-- Clearing the checkpoint lets it go, unless it is held otherwise. -/
theorem holds_clearPaused {h : History C E} {k : Nat} :
    h.clearPaused.Holds k ↔ k = h.head ∨ k ∈ h.past ∨ k ∈ h.redone := by
  simp [Holds, clearPaused]

/-- After an operation a history holds no place that it did not hold before, save the place of the node that was written. -/
theorem perform_holds {h : History C E} (op : Operation C E) :
    ∀ k, (h.perform op).1.Holds k → h.Holds k ∨ k = h.size := by
  apply perform_invariant (P := fun h' => ∀ k, h'.Holds k → h.Holds k ∨ k = h.size)
  · exact fun k hk => Or.inl hk
  · intro n _ k hk
    rcases holds_write.mp hk with hk | hk | hk | hk
    · exact Or.inr hk
    · exact Or.inl (Or.inl hk)
    · exact Or.inl (holds_of_past hk)
    · exact Or.inl (holds_of_paused hk)
  · exact fun a b ha hu k hk => ha k ((holds_undo hu).mp hk)
  · exact fun b hr k hk => Or.inl ((holds_redo hr).mp hk)
  · intro k hk
    rcases holds_pause.mp hk with hk | hk | hk
    · exact Or.inl (Or.inl hk)
    · exact Or.inl (holds_of_past hk)
    · exact Or.inl (holds_of_redone hk)
  · intro b hr k hk
    rcases (holds_resume hr).mp hk with hk | hk | hk
    · exact Or.inl (holds_of_paused hk)
    · exact Or.inl (holds_of_past hk)
    · exact Or.inl (holds_of_redone hk)
  · intro k hk
    rcases holds_clearPaused.mp hk with hk | hk | hk
    · exact Or.inl (Or.inl hk)
    · exact Or.inl (holds_of_past hk)
    · exact Or.inl (holds_of_redone hk)

/-- An operation leaves a forgotten place forgotten: the place of a node it writes is a new one. -/
theorem Forgotten.perform {h : History C E} {k : Nat} (hf : h.Forgotten k) (op : Operation C E) :
    (h.perform op).1.Forgotten k where
  stored := by
    obtain ⟨n, hn⟩ := exists_node? hf.stored
    exact lt_size_of_node? (perform_node? hn op)
  dropped := by
    intro hk
    rcases perform_holds op k hk with hheld | hnew
    · exact hf.dropped hheld
    · exact Nat.ne_of_lt hf.stored hnew

/-- A run leaves a forgotten place forgotten. -/
theorem Forgotten.run {h : History C E} {k : Nat} (hf : h.Forgotten k) (ops : List (Operation C E)) :
    (h.run ops).Forgotten k := by
  induction ops generalizing h with
  | nil => exact hf
  | cons op ops ih => exact ih (hf.perform op)

/-! ## Both along every run -/

/-- The arena is append-only, and all places a history holds are in it. In three parts, after any operations on a new history:
1. The nodes are the first one and then all that were written, in the order of writing. Whatever was done before and after it,
   writing a node is answered by the number of nodes there were, and the node stands at that place.
2. There is a node at every place that is held: at the head, at all places of both stacks, and at the checkpoint, which is at
   a node just if there is one.
3. Whatever is done next, the walk back from any place of the arena passes the same places, and the nodes there are the same. -/
theorem arena_append_only (first : Node C E) (ops : List (Operation C E)) :
    let h := (new first).run ops
    (h.nodes = first :: ops.flatMap Operation.added ∧
      ∀ before n after, ops = before ++ .write n :: after →
        (((new first).run before).perform (.write n)).2 = .index ((new first).run before).size ∧
          h.node? ((new first).run before).size = some n) ∧
    ((∀ k, h.Holds k → k < h.size ∧ ∃ n, h.node? k = some n) ∧ h.node? h.head = some h.headNode ∧
      h.checkpoint?.isSome = h.isPaused) ∧
    (∀ more k, k < h.size →
      (h.run more).walk k = h.walk k ∧ ((h.run more).walk k).map (h.run more).node? = (h.walk k).map h.node?) := by
  intro h
  have hplaced : h.WellPlaced := (wellPlaced_new first).run ops
  refine ⟨⟨run_nodes (new first) ops, ?_⟩, ⟨?_, hplaced.node?_head, hplaced.checkpoint?_isSome⟩, ?_⟩
  · intro before n after hops
    refine ⟨rfl, ?_⟩
    obtain ⟨now, hnow⟩ : ∃ now, now = (new first).run before := ⟨_, rfl⟩
    have hrun : h = (now.write n).run after := by
      rw [hnow]
      exact (congrArg (new first).run hops).trans (run_append _ _ _)
    have hlast : (now.write n).node? now.size = some n := by simp [node?, nodes_write, size]
    rw [hrun, ← hnow, run_node? _ _ (lt_size_of_node? hlast), hlast]
  · intro k hk
    have hlt := wellPlaced_iff.mp hplaced k hk
    exact ⟨hlt, exists_node? hlt⟩
  · intro more k hk
    have hwalk := walk_run h more hk
    refine ⟨hwalk, ?_⟩
    rw [hwalk]
    apply List.map_congr_left
    intro i hi
    obtain ⟨n, hn⟩ := Option.isSome_iff_exists.mp (node?_of_mem_walk h k i hi)
    exact run_node? h more (lt_size_of_node? hn)

/-- A discarded future never comes back. If at some moment of a run there is a node at a place that is neither the head, nor on
one of the stacks, nor the checkpoint, then it is none of these at any later moment, although the same node is still there. -/
theorem discarded_for_good (first : Node C E) (before after : List (Operation C E)) {k : Nat}
    (hstored : k < ((new first).run before).size) (hdropped : ¬((new first).run before).Holds k) :
    let later := (new first).run (before ++ after)
    (k ≠ later.head ∧ k ∉ later.past ∧ k ∉ later.redone ∧ later.paused ≠ some k) ∧
      ∃ n, later.node? k = some n ∧ ((new first).run before).node? k = some n := by
  intro later
  have hlater : later = ((new first).run before).run after := run_append _ _ _
  have hforgotten : later.Forgotten k := by
    rw [hlater]
    exact Forgotten.run ⟨hstored, hdropped⟩ after
  constructor
  · have hnone := hforgotten.dropped
    simp only [Holds, not_or] at hnone
    exact hnone
  · obtain ⟨n, hn⟩ := exists_node? hstored
    refine ⟨n, ?_, hn⟩
    rw [hlater, run_node? _ _ hstored, hn]

/-- A node that was undone and written over is out of reach, however one moves about afterwards; it is still stored. -/
theorem discarded_for_good_draft :
    let draft (state : String) : Node Unit String := .root state () .epoch
    let before : List (Operation Unit String) := [.write (draft "first try"), .undo, .write (draft "second try")]
    let after : List (Operation Unit String) := [.pause, .undo, .write (draft "third try"), .resume, .undoToRoot, .redo]
    (1 < ((new (draft "blank")).run before).size ∧ ¬((new (draft "blank")).run before).Holds 1) ∧
      ((new (draft "blank")).run (before ++ after)).head ≠ 1 ∧
      ∃ n, ((new (draft "blank")).run (before ++ after)).node? 1 = some n := by
  intro draft before after
  have hstored : 1 < ((new (draft "blank")).run before).size := by decide
  have hdropped : ¬((new (draft "blank")).run before).Holds 1 := by decide
  obtain ⟨⟨hhead, -⟩, n, hn, -⟩ := discarded_for_good (draft "blank") before after hstored hdropped
  exact ⟨⟨hstored, hdropped⟩, hhead.symm, n, hn⟩

end History

end Chronicle
