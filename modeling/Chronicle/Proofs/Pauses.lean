import Chronicle.Proofs.Places

/-!
# Pauses: what is left of the nodes that were written during one

The head and the past are one list of places, the latest first, along which undoing goes back (`run_undo_heads`). Writing puts
a place before the list (`run_write_heads`), and resuming puts the checkpoint in the place of its first entry. So of the nodes
written during a pause undoing reaches all but the last: the last was the head, and resuming lets it go
(`forgotten_of_resume`).
-/

namespace Chronicle

namespace History

variable {C E : Type}

/-- The heads there were and the one there is, as far as undoing goes back, the latest first. -/
def heads (h : History C E) : List Nat := h.head :: h.past

/-! ## Undoing, writing and resuming -/

/-- A step back takes the latest head off, if another is left. -/
theorem undo_heads {h : History C E} (hpast : h.past ≠ []) :
    (h.perform .undo).1.heads = h.heads.tail ∧ (h.perform .undo).1.past = h.past.tail := by
  obtain ⟨first, written, head, past, redone, paused⟩ := h
  cases past with
  | nil => exact absurd rfl hpast
  | cons previous past => exact ⟨rfl, rfl⟩

/-- As many steps back as the past is long at most take as many heads off. -/
theorem run_undo_heads (h : History C E) {t : Nat} (ht : t ≤ h.past.length) :
    (h.run (List.replicate t .undo)).heads = h.heads.drop t := by
  induction t generalizing h with
  | zero => rfl
  | succ t ih =>
    have hpast : h.past ≠ [] := List.ne_nil_of_length_pos (by omega)
    obtain ⟨hheads, hrest⟩ := undo_heads hpast
    have hroom : t ≤ (h.perform .undo).1.past.length := by
      rw [hrest, List.length_tail]
      omega
    calc (h.run (List.replicate (t + 1) .undo)).heads
        = ((h.perform .undo).1.run (List.replicate t .undo)).heads := rfl
      _ = h.heads.tail.drop t := by rw [ih _ hroom, hheads]
      _ = h.heads.drop (t + 1) := by rw [List.drop_tail]

/-- After at most as many steps back as the past is long, the head is the entry that many places on. -/
theorem run_undo_head (h : History C E) {t : Nat} (ht : t ≤ h.past.length) :
    h.heads[t]? = some (h.run (List.replicate t .undo)).head := by
  have hdrop : (h.run (List.replicate t .undo)).heads[0]? = (h.heads.drop t)[0]? := by rw [run_undo_heads h ht]
  rw [List.getElem?_drop, Nat.add_zero] at hdrop
  exact hdrop.symm

/-- Nodes that are written one after another come before the heads there were. -/
theorem run_write_heads (h : History C E) (ns : List (Node C E)) :
    (h.run (ns.map .write)).heads = (List.range' h.size ns.length).reverse ++ h.heads := by
  induction ns generalizing h with
  | nil => rfl
  | cons n ns ih =>
    calc (h.run ((n :: ns).map .write)).heads
        = ((h.write n).run (ns.map .write)).heads := rfl
      _ = (List.range' (h.size + 1) ns.length).reverse ++ h.size :: h.heads := by rw [ih, size_write]; rfl
      _ = (List.range' h.size (ns.length + 1)).reverse ++ h.heads := by simp [List.range'_succ]

/-- Writing leaves the checkpoint. -/
theorem run_write_paused (h : History C E) (ns : List (Node C E)) : (h.run (ns.map .write)).paused = h.paused := by
  induction ns generalizing h with
  | nil => rfl
  | cons n ns ih => exact ih (h.write n)

/-- Writing adds the nodes to the arena in their order. -/
theorem run_write_nodes (h : History C E) (ns : List (Node C E)) : (h.run (ns.map .write)).nodes = h.nodes ++ ns := by
  rw [run_nodes]
  simp [List.flatMap_map, Operation.added]

/-- Resuming after a node was written lets that node go: what is held after it was held before the writing, and so stands at an
earlier place. -/
theorem forgotten_of_resume {h : History C E} (hp : h.WellPlaced) (n : Node C E) {k : Nat} (hk : h.paused = some k) :
    ((h.write n).perform .resume).1.Forgotten h.size := by
  have hpaused : (h.write n).paused = some k := hk
  rw [perform_resume hpaused]
  refine ⟨Nat.lt_of_lt_of_eq (Nat.lt_succ_self h.size) (size_write h n).symm, ?_⟩
  rintro (hheld | hheld | hheld | hheld)
  · exact Nat.ne_of_gt (hp.paused k hk) hheld
  · rcases List.mem_cons.mp hheld with hheld | hheld
    · exact Nat.ne_of_gt hp.head hheld
    · exact Nat.lt_irrefl _ (hp.past _ hheld)
  · cases hheld
  · cases hheld

/-! ## A pause -/

/-- After a pause during which nodes were written, as many steps back as nodes were written after one of them lead to that
one, if it is not the last. Resuming replaces the first of the places that undoing goes through, and no other. -/
theorem undo_after_pause (h : History C E) (ns : List (Node C E)) {k : Nat} (hk : h.paused = some k) {i : Nat}
    (hi : i + 1 < ns.length) :
    (((h.run (ns.map .write)).perform .resume).1.run (List.replicate (ns.length - 1 - i) .undo)).head = h.size + i := by
  obtain ⟨t, ht⟩ : ∃ t, ns.length - 1 - i = t + 1 := ⟨ns.length - 2 - i, by omega⟩
  obtain ⟨resumed, hresumed⟩ : ∃ resumed, resumed = ((h.run (ns.map .write)).perform .resume).1 := ⟨_, rfl⟩
  have hheads : resumed.heads.tail = ((List.range' h.size ns.length).reverse ++ h.heads).tail := by
    rw [hresumed, perform_resume ((run_write_paused h ns).trans hk), ← run_write_heads]
    rfl
  have hpast : t + 1 ≤ resumed.past.length := by
    have hlength := congrArg List.length hheads
    simp only [heads, List.tail_cons, List.length_tail, List.length_append, List.length_reverse, List.length_range',
      List.length_cons] at hlength
    omega
  rw [← hresumed, ht]
  have hhead : some (resumed.run (List.replicate (t + 1) .undo)).head = some (h.size + i) := by
    calc some (resumed.run (List.replicate (t + 1) .undo)).head
        = resumed.heads.tail[t]? := by rw [List.getElem?_tail, run_undo_head resumed hpast]
      _ = (List.range' h.size ns.length).reverse[t + 1]? := by
        rw [hheads, List.getElem?_tail, List.getElem?_append_left (by simp; omega)]
      _ = some (h.size + i) := by
        rw [List.getElem?_reverse (by simp; omega), List.length_range', List.getElem?_range' (by omega)]
        congr 1
        omega
  exact Option.some.inj hhead

/-- What is left of the nodes written during a pause, once it is over. For every history that operations lead to from a new
one, if it is paused and nodes are written and it is resumed:
1. Resuming is answered `true` and leads to the checkpoint. The nodes stand in the arena in the order of writing.
2. Of all these nodes but the last, each is the head after as many further steps back as nodes were written after it.
3. The last one is never the head again, whatever is done. -/
theorem all_but_last_undoable (first : Node C E) (ops : List (Operation C E)) (earlier : List (Node C E)) (last : Node C E)
    {k : Nat} (hk : ((new first).run ops).paused = some k) :
    let h := (new first).run ops
    let written := h.run ((earlier ++ [last]).map .write)
    let resumed := (written.perform .resume).1
    ((written.perform .resume).2 = .moved true ∧ resumed.head = k ∧
      ∀ i, resumed.node? (h.size + i) = (earlier ++ [last])[i]?) ∧
    (∀ i n, earlier[i]? = some n →
      let undone := resumed.run (List.replicate (earlier.length - i) .undo)
      undone.head = h.size + i ∧ undone.headNode = n) ∧
    (∀ more, (resumed.run more).head ≠ h.size + earlier.length) := by
  intro h written resumed
  have hplaced : h.WellPlaced := (wellPlaced_new first).run ops
  have hpaused : written.paused = some k := (run_write_paused h _).trans hk
  have hresumed : resumed = { written with head := k, paused := none } := perform_resume hpaused
  have hnode : ∀ i, resumed.node? (h.size + i) = (earlier ++ [last])[i]? := by
    intro i
    have hnodes : resumed.nodes = h.nodes ++ (earlier ++ [last]) := by
      rw [hresumed]
      exact run_write_nodes h _
    rw [node?, hnodes, size, List.getElem?_append_right (Nat.le_add_right _ _), Nat.add_sub_cancel_left]
  refine ⟨⟨?_, ?_, hnode⟩, ?_, ?_⟩
  · simp only [perform, resume?, hpaused, Option.map_some, moveTo]
  · rw [hresumed]
  · intro i n hn undone
    obtain ⟨hi, -⟩ := List.getElem?_eq_some_iff.mp hn
    have hhead : undone.head = h.size + i := by
      have hundo := undo_after_pause h (earlier ++ [last]) hk (i := i) (by simpa using hi)
      rw [List.length_append, List.length_singleton, Nat.add_sub_cancel] at hundo
      exact hundo
    have hfound : resumed.node? (h.size + i) = some n := by rw [hnode, List.getElem?_append_left hi, hn]
    refine ⟨hhead, ?_⟩
    rw [headNode, hhead, run_node? _ _ (lt_size_of_node? hfound), hfound, Option.getD_some]
  · intro more hlast
    have hsplit : written = (h.run (earlier.map .write)).write last := by
      show h.run ((earlier ++ [last]).map .write) = _
      rw [List.map_append, run_append]
      rfl
    have hsize : (h.run (earlier.map .write)).size = h.size + earlier.length := by
      rw [size, run_write_nodes, List.length_append, size]
    have hforgotten : (written.perform .resume).1.Forgotten (h.size + earlier.length) := by
      rw [hsplit, ← hsize]
      exact forgotten_of_resume (hplaced.run _) last ((run_write_paused h earlier).trans hk)
    exact (hforgotten.run more).dropped (Or.inl hlast.symm)

/-- Of two drafts written during a pause the first is one step back when the pause is over. -/
theorem all_but_last_undoable_drafts :
    let draft (state : String) : Node Unit String := .root state () .epoch
    ((new (draft "blank")).run [.pause]).paused = some 0 ∧
      ((new (draft "blank")).run [.pause, .write (draft "first"), .write (draft "second"), .resume, .undo]).headNode =
        draft "first" := by
  intro draft
  have hpaused : ((new (draft "blank")).run [.pause]).paused = some 0 := rfl
  refine ⟨hpaused, ?_⟩
  exact ((all_but_last_undoable (draft "blank") [.pause] [draft "first"] (draft "second") hpaused).2.1 0 _ rfl).2

/-- A draft that is the only node written during a pause is lost when the pause is over: no number of steps back leads to it. -/
theorem only_draft_lost :
    let draft (state : String) : Node Unit String := .root state () .epoch
    let written := (new (draft "blank")).run [.pause, .write (draft "draft")]
    let resumed := (written.perform .resume).1
    (written.perform .resume).2 = .moved true ∧
      ¬∃ t, (resumed.run (List.replicate t .undo)).head = 1 ∨ (resumed.run (List.replicate t .undo)).headNode = draft "draft" := by
  intro draft written resumed
  refine ⟨rfl, ?_⟩
  rintro ⟨t, ht⟩
  have hforgotten : (resumed.run (List.replicate t .undo)).Forgotten 1 := Forgotten.run ⟨by decide, by decide⟩ _
  have hsize : (resumed.run (List.replicate t .undo)).size = 2 := by
    rw [size, run_nodes, List.flatMap_eq_nil_iff.mpr fun op hop => by rw [List.eq_of_mem_replicate hop]; rfl]
    rfl
  have hhead : (resumed.run (List.replicate t .undo)).head = 0 := by
    have hplaced : (resumed.run (List.replicate t .undo)).WellPlaced :=
      ((wellPlaced_new (draft "blank")).run [.pause, .write (draft "draft"), .resume]).run _
    have hlt := hplaced.head
    have hne : 1 ≠ (resumed.run (List.replicate t .undo)).head := fun h => hforgotten.dropped (Or.inl h)
    omega
  rcases ht with ht | ht
  · rw [hhead] at ht
    cases ht
  · rw [headNode, hhead, run_node? _ _ (by decide)] at ht
    have hstate : "blank" = "draft" := congrArg Node.state ht
    exact absurd hstate (by decide)

end History

end Chronicle
