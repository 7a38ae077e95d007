import Chronicle.Proofs.Arena
import Chronicle.Proofs.Runs

/-!
# The timeline: a history is a cursor over a list

The past, the head and what was undone are one list of places, and the head is where the cursor stands. `Timeline.step` says
what an operation does to such a list, without a word of stacks or nodes: undoing and redoing move the cursor, writing cuts the
list off behind it, resuming overwrites the entry it stands on. `perform_timeline` says that a history does the same, and
`run_timeline` that it does so along every run. `there_and_back` gives the round trips of undoing and redoing, also after
resuming, where the list holds places twice and out of order.
-/

namespace Chronicle

/-- A cursor over a list of places, with the checkpoint and the place that is written next. -/
structure Timeline where
  entries : List Nat
  cursor : Nat
  checkpoint : Option Nat
  fresh : Nat
deriving DecidableEq, Repr

namespace Timeline

/-- The timeline of a history of one node. -/
def start : Timeline := { entries := [0], cursor := 0, checkpoint := none, fresh := 1 }

/-- What an operation does to a timeline and what it answers. Of a node that is written nothing plays a part. -/
def step (t : Timeline) : Effect → Timeline × History.Answer
  | .write =>
    ({ t with entries := t.entries.take (t.cursor + 1) ++ [t.fresh], cursor := t.cursor + 1, fresh := t.fresh + 1 },
      .index t.fresh)
  | .undo => if 0 < t.cursor then ({ t with cursor := t.cursor - 1 }, .moved true) else (t, .moved false)
  | .redo =>
    if t.cursor + 1 < t.entries.length then ({ t with cursor := t.cursor + 1 }, .moved true) else (t, .moved false)
  | .undoToRoot => ({ t with cursor := 0 }, .moved (0 < t.cursor))
  | .pause => ({ t with checkpoint := t.entries[t.cursor]? }, .done)
  | .resume =>
    match t.checkpoint with
    | some place => ({ t with entries := t.entries.set t.cursor place, checkpoint := none }, .moved true)
    | none => (t, .moved false)
  | .clearPaused => ({ t with checkpoint := none }, .done)

/-- A step as a turn. -/
def turn {C E : Type} (t : Timeline) (op : History.Operation C E) : Turn Timeline History.Answer :=
  ⟨(t.step op.effect).1, (t.step op.effect).2, []⟩

end Timeline

namespace History

variable {C E : Type}

/-- The timeline of a history: the past, the head, then what was undone, with the cursor at the head. -/
def timeline (h : History C E) : Timeline where
  entries := h.past.reverse ++ h.head :: h.redone
  cursor := h.past.length
  checkpoint := h.paused
  fresh := h.size

/-- Undoing again and again until there is nothing to undo leads from one history to another. -/
inductive Unwinds : History C E → History C E → Prop where
  | stop {h : History C E} : h.undo? = none → Unwinds h h
  | step {h h' h'' : History C E} : h.undo? = some h' → Unwinds h' h'' → Unwinds h h''

/-! ## Single operations -/

/-- A step back moves the cursor back and leaves the entries. -/
theorem undo_timeline {h h' : History C E} (hu : h.undo? = some h') :
    h'.timeline = { h.timeline with cursor := h.timeline.cursor - 1 } ∧ h.past.length = h'.past.length + 1 := by
  obtain ⟨previous, past, hpast, rfl⟩ := undo?_eq_some hu
  simp [timeline, hpast, size, nodes]

/-- A step forward moves the cursor forward and leaves the entries. -/
theorem redo_timeline {h h' : History C E} (hr : h.redo? = some h') :
    h'.timeline = { h.timeline with cursor := h.timeline.cursor + 1 } ∧ h.redone.length = h'.redone.length + 1 := by
  obtain ⟨next, redone, hredone, rfl⟩ := redo?_eq_some hr
  simp [timeline, hredone, size, nodes]

/-- As many steps back as the past is long move the cursor to the first entry and leave the entries. -/
theorem undoTimes_timeline (h : History C E) :
    (undoTimes h.past.length h).timeline = { h.timeline with cursor := 0 } := by
  obtain ⟨k, hk⟩ : ∃ k, k = h.past.length := ⟨_, rfl⟩
  rw [← hk]
  induction k generalizing h with
  | zero => simp [undoTimes, timeline, ← hk]
  | succ k ih =>
    unfold undoTimes
    cases hu : h.undo? with
    | none =>
      rw [undo?_eq_none.mp hu] at hk
      cases hk
    | some h' =>
      obtain ⟨htimeline, hlength⟩ := undo_timeline hu
      simp only
      rw [ih h' (by omega), htimeline]

/-- A history does to its timeline what the operation does to a timeline, and answers the same. -/
theorem perform_timeline (h : History C E) (op : Operation C E) :
    ((h.perform op).1.timeline, (h.perform op).2) = h.timeline.step op.effect := by
  cases op with
  | write n =>
    have htake : (h.past.reverse ++ h.head :: h.redone).take (h.past.length + 1) = h.past.reverse ++ [h.head] := by
      rw [List.take_append, List.take_of_length_le (by simp)]
      simp
    simp only [perform, Operation.effect, Timeline.step, timeline, htake]
    simp [write, size, nodes]
  | undo =>
    cases hu : h.undo? with
    | none =>
      have hpast : h.past = [] := undo?_eq_none.mp hu
      simp [perform, hu, moveTo, Operation.effect, Timeline.step, timeline, hpast]
    | some h' =>
      obtain ⟨htimeline, hlength⟩ := undo_timeline hu
      have hpos : 0 < h.timeline.cursor := by
        simp only [timeline]
        omega
      simp [perform, hu, moveTo, Operation.effect, Timeline.step, htimeline, hpos]
  | redo =>
    cases hr : h.redo? with
    | none =>
      have hredone : h.redone = [] := redo?_eq_none.mp hr
      simp [perform, hr, moveTo, Operation.effect, Timeline.step, timeline, hredone]
    | some h' =>
      obtain ⟨htimeline, hlength⟩ := redo_timeline hr
      have hlt : h.timeline.cursor + 1 < h.timeline.entries.length := by
        simp only [timeline, List.length_append, List.length_reverse, List.length_cons]
        omega
      simp [perform, hr, moveTo, Operation.effect, Timeline.step, htimeline, hlt]
  | undoToRoot =>
    by_cases hc : h.canUndo = true
    · have hpos : 0 < h.timeline.cursor := by
        simp only [canUndo, Bool.not_eq_true', List.isEmpty_eq_false_iff] at hc
        exact List.length_pos_iff.mpr hc
      simp [perform, undoToRoot?, hc, moveTo, Operation.effect, Timeline.step, undoTimes_timeline, hpos]
    · have hpast : h.past = [] := by
        simpa [canUndo] using hc
      simp [perform, undoToRoot?, hc, moveTo, Operation.effect, Timeline.step, timeline, hpast]
  | pause => simp [perform, pause, Operation.effect, Timeline.step, timeline, size, nodes]
  | resume =>
    cases hp : h.paused with
    | none => simp [perform, resume?, hp, moveTo, Operation.effect, Timeline.step, timeline]
    | some place => simp [perform, resume?, hp, moveTo, Operation.effect, Timeline.step, timeline, size, nodes]
  | clearPaused => rfl

/-- The head is the entry the cursor stands on. -/
theorem timeline_cursor (h : History C E) : h.timeline.entries[h.timeline.cursor]? = some h.head := by
  simp [timeline]

/-- Only writing and resuming change the entries. -/
theorem perform_entries {h : History C E} {op : Operation C E} (hwrite : op.added = []) (hresume : op = .resume → h.paused = none) :
    (h.perform op).1.timeline.entries = h.timeline.entries := by
  have hstep : (h.perform op).1.timeline.entries = (h.timeline.step op.effect).1.entries :=
    congrArg (fun t => t.1.entries) (perform_timeline h op)
  rw [hstep]
  cases op with
  | write n => cases hwrite
  | undo => simp only [Operation.effect, Timeline.step]; split <;> rfl
  | redo => simp only [Operation.effect, Timeline.step]; split <;> rfl
  | undoToRoot => rfl
  | pause => rfl
  | resume => simp only [Operation.effect, Timeline.step, timeline, hresume rfl]
  | clearPaused => rfl

/-! ## Runs -/

/-- Along a run a history answers what its timeline answers, and its timeline stays the timeline of the run. -/
theorem run_timeline (h : History C E) (ops : List (Operation C E)) :
    (Turn.run turn h ops).answer = (Turn.run Timeline.turn h.timeline ops).answer ∧
      (h.run ops).timeline = (Turn.run Timeline.turn h.timeline ops).state := by
  have hstep : ∀ (h : History C E) (t : Timeline) (op : Operation C E), h.timeline = t →
      (Timeline.turn t op).answer = (turn h op).answer ∧ (turn h op).state.timeline = (Timeline.turn t op).state := by
    rintro h t op rfl
    have hperform := perform_timeline h op
    exact ⟨(congrArg Prod.snd hperform).symm, congrArg Prod.fst hperform⟩
  obtain ⟨hanswer, hstate⟩ := Turn.run_simulates_all (R := fun (h : History C E) t => h.timeline = t) hstep ops
    (rfl : h.timeline = h.timeline)
  rw [run_turn_state] at hstate
  exact ⟨hanswer.symm, hstate⟩

/-! ## There and back -/

/-- If `back` undoes what `there` does wherever there is room to go, then going there `k` times and back `k` times leads to
where one was, as long as there is room for `k` times. -/
theorem there_and_back {there back : Operation C E} {room : History C E → Nat}
    (hstep : ∀ h, 0 < room h → room (h.perform there).1 + 1 = room h ∧ ((h.perform there).1.perform back).1 = h) (k : Nat)
    (h : History C E) (hk : k ≤ room h) : h.run (List.replicate k there ++ List.replicate k back) = h := by
  induction k generalizing h with
  | zero => rfl
  | succ k ih =>
    obtain ⟨hroom, hback⟩ := hstep h (by omega)
    have hlist : List.replicate (k + 1) there ++ List.replicate (k + 1) back =
        there :: (List.replicate k there ++ List.replicate k back) ++ [back] := by
      rw [List.replicate_succ, List.replicate_succ']
      simp
    have hinner := ih (h.perform there).1 (by omega)
    calc h.run (List.replicate (k + 1) there ++ List.replicate (k + 1) back)
        = (((h.perform there).1.run (List.replicate k there ++ List.replicate k back)).perform back).1 := by
          rw [hlist, run_append]
          rfl
      _ = h := by rw [hinner, hback]

/-- One step back and one forward lead to where one was. -/
theorem undo_redo (h : History C E) (hroom : 0 < h.past.length) :
    (h.perform .undo).1.past.length + 1 = h.past.length ∧ ((h.perform .undo).1.perform .redo).1 = h := by
  obtain ⟨first, written, head, past, redone, paused⟩ := h
  cases past with
  | nil => simp at hroom
  | cons previous past => exact ⟨rfl, rfl⟩

/-- One step forward and one back lead to where one was. -/
theorem redo_undo (h : History C E) (hroom : 0 < h.redone.length) :
    (h.perform .redo).1.redone.length + 1 = h.redone.length ∧ ((h.perform .redo).1.perform .undo).1 = h := by
  obtain ⟨first, written, head, past, redone, paused⟩ := h
  cases redone with
  | nil => simp at hroom
  | cons next redone => exact ⟨rfl, rfl⟩

/-- Stepping back `k` times is performing `k` undos: where there is nothing to undo, either stays. -/
theorem undoTimes_eq_run (k : Nat) (h : History C E) : undoTimes k h = h.run (List.replicate k .undo) := by
  induction k generalizing h with
  | zero => rfl
  | succ k ih =>
    rw [List.replicate_succ]
    have hcons : h.run (.undo :: List.replicate k .undo) = (h.perform .undo).1.run (List.replicate k .undo) := rfl
    rw [hcons, ← ih]
    obtain ⟨first, written, head, past, redone, paused⟩ := h
    cases past with
    | nil =>
      cases k with
      | zero => rfl
      | succ k => rfl
    | cons previous past => rfl

/-- Undoing to the root is undoing as often as the past is long. -/
theorem undoToRoot_eq_run (h : History C E) :
    (h.perform .undoToRoot).1 = h.run (List.replicate h.past.length .undo) := by
  obtain ⟨first, written, head, past, redone, paused⟩ := h
  cases past with
  | nil => rfl
  | cons previous past => exact undoTimes_eq_run _ _

/-! ## The loop of undoing to the root -/

/-- Undoing again and again comes to an end where undoing to the root leads. -/
theorem unwinds_undoToRoot (h : History C E) : Unwinds h (h.perform .undoToRoot).1 := by
  rw [undoToRoot_eq_run]
  obtain ⟨k, hk⟩ : ∃ k, k = h.past.length := ⟨_, rfl⟩
  rw [← hk]
  induction k generalizing h with
  | zero => exact Unwinds.stop (undo?_eq_none.mpr (List.length_eq_zero_iff.mp hk.symm))
  | succ k ih =>
    obtain ⟨first, written, head, past, redone, paused⟩ := h
    cases past with
    | nil => simp at hk
    | cons previous past => exact Unwinds.step rfl (ih _ (by simpa using hk))

/-- Undoing again and again leads to one history only. -/
theorem Unwinds.unique {h a b : History C E} (ha : Unwinds h a) (hb : Unwinds h b) : a = b := by
  induction ha with
  | stop hstop =>
    cases hb with
    | stop _ => rfl
    | step hu _ => rw [hstop] at hu; cases hu
  | step hu _ ih =>
    cases hb with
    | stop hstop => rw [hstop] at hu; cases hu
    | step hu' hrest =>
      rw [hu] at hu'
      cases hu'
      exact ih hrest

/-- A history is a cursor over a list of places, whatever its nodes hold. In four parts, for every history that a run of any
operations reaches from a new one:
1. The run was answered what the cursor over the list answers, and the timeline of the history is where the cursor got to; the
   next operation is answered, and changes the timeline, as `Timeline.step` says.
2. An operation that answers `moved false` changes nothing at all.
3. Undoing to the root is undoing again and again, which comes to an end.
4. Steps back and as many forward, steps forward and as many back, and undoing to the root and as many steps forward as the
   past was long, lead back to the very same history. -/
theorem refines_timeline (first : Node C E) (ops : List (Operation C E)) :
    let h := (new first).run ops
    ((Turn.run turn (new first) ops).answer = (Turn.run Timeline.turn .start ops).answer ∧
      h.timeline = (Turn.run Timeline.turn .start ops).state ∧
      ∀ op, ((h.perform op).1.timeline, (h.perform op).2) = h.timeline.step op.effect) ∧
    (∀ op, (h.perform op).2 = .moved false → (h.perform op).1 = h) ∧
    (∀ h', Unwinds h h' ↔ h' = (h.perform .undoToRoot).1) ∧
    ((∀ k ≤ h.past.length, h.run (List.replicate k .undo ++ List.replicate k .redo) = h) ∧
      (∀ k ≤ h.redone.length, h.run (List.replicate k .redo ++ List.replicate k .undo) = h) ∧
      h.run (.undoToRoot :: List.replicate h.past.length .redo) = h) := by
  intro h
  have hback := there_and_back (undo_redo (C := C) (E := E))
  refine ⟨⟨(run_timeline (new first) ops).1, (run_timeline (new first) ops).2, perform_timeline h⟩, ?_, ?_, ?_, ?_, ?_⟩
  · intro op hf
    exact perform_of_failure h op (by rw [hf]; rfl)
  · intro h'
    constructor
    · exact fun hu => hu.unique (unwinds_undoToRoot h)
    · rintro rfl
      exact unwinds_undoToRoot h
  · exact fun k hk => hback k h hk
  · exact fun k hk => there_and_back (redo_undo (C := C) (E := E)) k h hk
  · have hcons : h.run (.undoToRoot :: List.replicate h.past.length .redo) =
        (h.perform .undoToRoot).1.run (List.replicate h.past.length .redo) := rfl
    rw [hcons, undoToRoot_eq_run, ← run_append]
    exact hback h.past.length h (Nat.le_refl _)

end History

end Chronicle
