import Chronicle.Proofs.Audit
import Chronicle.Proofs.Timeline

/-!
# The thread: without jumps, undoing follows the parents

Undoing moves along the stacks and a walk follows the parents, and neither looks at the other. Where no call jumped to a
checkpoint they agree: the timeline is a thread of places that begins at the first node, and every place of it is later than
the one before and derived from it (`Threaded`). Moving about leaves the timeline as it is, and writing cuts it off behind the
head and derives a new node from the head, which is then the last of the thread (`Threaded.write`, `Threaded.operate`). Since
the thread holds what can be redone, too, it is still one after any undoing.
-/

namespace Chronicle

namespace History

variable {C E : Type}

/-- A place leads to another if the node there is later and derived from the node here. -/
def Leads (h : History C E) (k next : Nat) : Prop := k < next ∧ (h.node? next).bind Node.parent = some k

/-- The timeline begins at the first node, and every entry of it leads to the next. -/
structure Threaded (h : History C E) : Prop where
  begins : h.timeline.entries.head? = some 0
  leads : h.timeline.entries.IsChain h.Leads

/-! ## What is seen of a thread from the head -/

/-- The timeline is the past from its oldest place on, the head, and what was undone. -/
theorem timeline_entries (h : History C E) : h.timeline.entries = (h.head :: h.past).reverse ++ h.redone := by
  simp [timeline]

/-- Back from the head, every place of the past leads to the one after it, and the oldest is the first node. -/
theorem Threaded.back {h : History C E} (ht : h.Threaded) :
    (h.head :: h.past).IsChain (fun k previous => h.Leads previous k) ∧ (h.head :: h.past).getLast? = some 0 := by
  have hleads := ht.leads
  have hbegins := ht.begins
  rw [timeline_entries] at hleads hbegins
  rw [List.head?_append_of_ne_nil _ (by simp), List.head?_reverse] at hbegins
  exact ⟨List.isChain_reverse.mp hleads.left_of_append, hbegins⟩

/-- Forward from the head, every place leads to the next that can be redone. -/
theorem Threaded.ahead {h : History C E} (ht : h.Threaded) : (h.head :: h.redone).IsChain h.Leads := by
  have hleads : (h.past.reverse ++ h.head :: h.redone).IsChain h.Leads := ht.leads
  exact hleads.right_of_append

/-- Back along a thread the walk passes the places of the thread. -/
theorem walk_of_leads {h : History C E} {k : Nat} {past : List Nat}
    (hleads : (k :: past).IsChain fun k previous => h.Leads previous k) (hlast : (k :: past).getLast? = some 0) :
    h.walk k = k :: past := by
  induction past generalizing k with
  | nil =>
    obtain rfl : k = 0 := by simpa using hlast
    exact walk_zero h
  | cons previous past ih =>
    obtain ⟨⟨hlt, hparent⟩, hrest⟩ := List.isChain_cons_cons.mp hleads
    obtain ⟨n, hn, hp⟩ := Option.bind_eq_some_iff.mp hparent
    have hwalk := ih hrest (by simpa [List.getLast?_cons_cons] using hlast)
    rw [walk, hn]
    simp only [hp, hlt, if_true, hwalk]

/-- The walk from the head of a thread is the head and then the past from its top. -/
theorem Threaded.walk {h : History C E} (ht : h.Threaded) : h.walk h.head = h.head :: h.past :=
  walk_of_leads ht.back.1 ht.back.2

/-- A step back leads to the parent of the head. -/
theorem Threaded.undo {h h' : History C E} (ht : h.Threaded) (hu : h.undo? = some h') : h.Leads h'.head h.head := by
  obtain ⟨previous, past, hpast, rfl⟩ := undo?_eq_some hu
  have hback := ht.back.1
  rw [hpast] at hback
  exact (List.isChain_cons_cons.mp hback).1

/-- A step forward leads to a node that is derived from the head. -/
theorem Threaded.redo {h h' : History C E} (ht : h.Threaded) (hr : h.redo? = some h') : h.Leads h.head h'.head := by
  obtain ⟨next, redone, hredone, rfl⟩ := redo?_eq_some hr
  have hahead := ht.ahead
  rw [hredone] at hahead
  exact (List.isChain_cons_cons.mp hahead).1

/-- Undoing to the root leads to the first node: only the cursor moves. -/
theorem Threaded.undoToRoot {h : History C E} (ht : h.Threaded) : (h.perform .undoToRoot).1.head = 0 := by
  have hcursor : (h.perform .undoToRoot).1.timeline.cursor = 0 :=
    congrArg (fun t => t.1.cursor) (perform_timeline h .undoToRoot)
  have hentries : (h.perform .undoToRoot).1.timeline.entries = h.timeline.entries := perform_entries rfl nofun
  have hhead := timeline_cursor (h.perform .undoToRoot).1
  rw [hcursor, hentries, ← List.head?_eq_getElem?, ht.begins] at hhead
  exact (Option.some.inj hhead).symm

/-! ## What keeps a thread -/

/-- A place leads to another as long as both nodes stay where they are. -/
theorem Leads.mono {h h' : History C E} (hkept : ∀ k n, h.node? k = some n → h'.node? k = some n) {k next : Nat}
    (hl : h.Leads k next) : h'.Leads k next := by
  obtain ⟨hlt, hparent⟩ := hl
  obtain ⟨n, hn, hp⟩ := Option.bind_eq_some_iff.mp hparent
  exact ⟨hlt, Option.bind_eq_some_iff.mpr ⟨n, hkept _ n hn, hp⟩⟩

/-- A new history is a thread of one place. -/
theorem threaded_new (first : Node C E) : (new first).Threaded := ⟨rfl, List.IsChain.singleton 0⟩

/-- Writing a node derived from the head cuts the thread off behind the head and spins it on. -/
theorem Threaded.write {h : History C E} (ht : h.Threaded) (hp : h.WellPlaced) {n : Node C E} (hn : n.parent = some h.head) :
    (h.write n).Threaded := by
  have hentries : (h.write n).timeline.entries = (h.head :: h.past).reverse ++ [h.size] := by simp [timeline, History.write]
  have hkept : ∀ k m, h.node? k = some m → (h.write n).node? k = some m := fun k m hm => perform_node? hm (.write n)
  have hlast : (h.write n).node? h.size = some n := by simp [node?, nodes_write, size]
  constructor
  · have hbegins := ht.begins
    rw [timeline_entries, List.head?_append_of_ne_nil _ (by simp)] at hbegins
    rw [hentries, List.head?_append_of_ne_nil _ (by simp), hbegins]
  · have hleads := ht.leads
    rw [timeline_entries] at hleads
    have hold : (h.head :: h.past).reverse.IsChain (h.write n).Leads := hleads.left_of_append.imp fun _ _ => Leads.mono hkept
    have hnew : (h.write n).Leads h.head h.size := ⟨hp.head, by rw [hlast]; exact hn⟩
    rw [hentries]
    refine hold.append (List.IsChain.singleton _) ?_
    intro k hk next hnext
    obtain rfl : h.head = k := by simpa using hk
    obtain rfl : h.size = next := by simpa using hnext
    exact hnew

/-- An operation that neither writes nor jumps leaves the thread as it is. -/
theorem Threaded.operate {h : History C E} (ht : h.Threaded) {op : Operation C E} (hwrite : op.added = [])
    (hresume : op = .resume → h.paused = none) : (h.perform op).1.Threaded := by
  have hentries := perform_entries hwrite hresume
  refine ⟨hentries ▸ ht.begins, ?_⟩
  rw [hentries]
  exact ht.leads.imp fun _ _ => Leads.mono fun k n hn => perform_node? hn op

end History

namespace Interpreter

variable {C E ε : Type}

/-- Whether a call of a transcript moved the head to the checkpoint. -/
def jumped : Call C E ε × Answer ε → Bool
  | (.resume, .flag moved) => moved
  | _ => false

variable [EventKey E]

/-- Only the call of resuming comes to that operation. A stopped interpreter shows it: as it refuses what might write, no call
but that one comes to resuming there. -/
theorem eq_resume_of_decision {c : Call C E ε} (hd : ∀ j : Interpreter C E, j.decision c = .operate .resume)
    (i : Interpreter C E) : c = .resume := by
  have hstopped := hd i.stop
  cases c with
  | resume => rfl
  | _ => exact absurd hstopped (by simp [decision, sending, forcing, stop])

/-- A call that did not jump keeps a thread: if it came to resuming, it was not answered `true`, and there was no
checkpoint. -/
theorem call_threaded {i : Interpreter C E} (ht : i.history.Threaded) (hp : i.history.WellPlaced) (stamp : Stamp)
    {c : Call C E ε} (hjump : jumped (c, (i.call stamp c).answer) = false) : (i.call stamp c).state.history.Threaded := by
  rw [call_eq] at hjump ⊢
  rcases decision_cases i c with ⟨_, _, -, hd⟩ | ⟨state, context, trigger, -, hd, -⟩ | ⟨op, hwrite, hd⟩ | ⟨_, -, hd⟩
  · rw [hd]
    exact ht
  · rw [hd, carryOut, perform_history]
    exact ht.write hp rfl
  · rw [hd] at hjump ⊢
    rw [carryOut, perform_history]
    apply ht.operate hwrite
    rintro rfl
    obtain rfl := eq_resume_of_decision hd i
    by_contra hpaused
    obtain ⟨k, hk⟩ := Option.ne_none_iff_exists'.mp hpaused
    have hmoved : (i.perform .resume : Turn (Interpreter C E) (Answer ε)).answer = .flag true := by
      simp only [perform, Turn.map, Backend.perform_answer]
      rw [← history, History.perform, History.resume?, hk]
      rfl
    rw [carryOut, hmoved] at hjump
    cases hjump
  · rw [hd]
    exact ht

/-- A run in which no call jumped keeps a thread. -/
theorem run_threaded (clock : Nat → Stamp) {start : Interpreter C E} (ht : start.history.Threaded)
    (hp : start.history.WellPlaced) (calls : List (Call C E ε))
    (hjump : ∀ entry ∈ (start.run clock calls).answer, jumped entry = false) :
    (start.run clock calls).state.history.Threaded := by
  refine (Turn.run_invariant_of_answers
    (P := fun i : Interpreter C E => i.history.Threaded ∧ i.history.WellPlaced) ?_ ⟨ht, hp⟩ hjump).1
  rintro i c ⟨ht, hp⟩ hc
  exact ⟨call_threaded ht hp _ hc, call_wellPlaced hp _ c⟩

/-- Without jumps to a checkpoint the trail and the stacks agree. Let no call of a run of a machine have moved the head to the
checkpoint. In four parts:
1. The timeline (the past, the head, what was undone) ascends strictly from the first node, and the parent of the node at every
   further entry is the entry before it.
2. The walk from the head passes the head and the past from its top, and nothing else; the lineage is the nodes there.
3. If undoing succeeds, the head moves to its parent; if redoing succeeds, to a node whose parent it is.
4. Undoing to the root leads to the first node. -/
theorem trail_is_past (m : Machine C) (clock : Nat → Stamp) (calls : List (Call C E ε))
    (hjump : ∀ entry ∈ ((interpret m (clock 0)).run clock calls).answer, jumped entry = false) :
    let now := ((interpret m (clock 0)).run clock calls).state
    let h := now.history
    let entries := h.past.reverse ++ h.head :: h.redone
    (entries.Pairwise (· < ·) ∧ entries.head? = some 0 ∧
      entries.IsChain fun k next => (h.node? next).bind Node.parent = some k) ∧
    (h.walk h.head = h.head :: h.past ∧ h.lineage.map some = (h.head :: h.past).map h.node?) ∧
    ((now.undo.answer = true → now.head.parent = some now.undo.state.history.head) ∧
      (now.redo.answer = true → now.redo.state.head.parent = some h.head)) ∧
    now.undoToRoot.state.history.head = 0 := by
  intro now h entries
  have hnew : (interpret m (clock 0) : Interpreter C E).history.WellPlaced := History.wellPlaced_new _
  have hplaced : h.WellPlaced := run_wellPlaced clock hnew calls
  have hstart : (interpret m (clock 0) : Interpreter C E).history.Threaded := History.threaded_new _
  have ht : h.Threaded := run_threaded clock hstart hnew calls hjump
  have hascends : entries.IsChain (· < ·) := ht.leads.imp fun _ _ hl => hl.1
  refine ⟨⟨hascends.pairwise, ht.begins, ht.leads.imp fun _ _ hl => hl.2⟩, ⟨ht.walk, ?_⟩, ⟨?_, ?_⟩, ?_⟩
  · rw [History.lineage, ← History.map_node?_walk, ht.walk]
  · intro hundo
    rw [undo, act_answer] at hundo
    obtain ⟨h', hu, hstate⟩ := History.exists_of_moveTo hundo
    have hparent := (ht.undo hu).2
    rw [hplaced.node?_head] at hparent
    rw [undo, act_history, History.perform, hstate]
    exact hparent
  · intro hredo
    rw [redo, act_answer] at hredo
    obtain ⟨h', hr, hstate⟩ := History.exists_of_moveTo hredo
    have hmoved : (h.perform .redo).1 = h' := hstate
    have hkept : ∀ k n, h.node? k = some n → h'.node? k = some n := by
      rw [← hmoved]
      exact fun k n hn => History.perform_node? hn .redo
    have hparent := ((ht.redo hr).mono hkept).2
    rw [(hplaced.redo hr).node?_head] at hparent
    rw [head, redo, act_history]
    exact hmoved ▸ hparent
  · rw [undoToRoot, act_history]
    exact ht.undoToRoot

/-- In a kitchen where a checkpoint is set and cleared, so that resuming does nothing, and where a state is forced after steps
back, the walk skips what was cut off. -/
theorem trail_is_past_kitchen :
    let kitchen : Machine Nat :=
      ⟨Definition.withState { initial := "idle", context := 0 } "idle" (StateEntry.on {} "START" (.bare "cooking")), by decide⟩
    let calls : List (Call Nat String Empty) := [.send "START", .setState "burning", .pause, .undo, .undo, .redo, .clearPaused,
      .resume, .setStateWithContext "served" 7, .stop, .send "START", .start]
    let ended := (interpret kitchen (.ofNat 0)).run .ofNat calls
    (∀ entry ∈ ended.answer, jumped entry = false) ∧ ended.state.history.size = 4 ∧
      ended.state.history.walk 3 = [3, 1, 0] ∧ ended.state.undoToRoot.state.history.head = 0 := by
  intro kitchen calls ended
  have hjump : ∀ entry ∈ ended.answer, jumped entry = false := by decide
  have hhead : ended.state.history.head = 3 := by decide
  have hpast : ended.state.history.past = [1, 0] := by decide
  obtain ⟨-, ⟨hwalk, -⟩, -, hroot⟩ := trail_is_past kitchen .ofNat calls hjump
  rw [hhead, hpast] at hwalk
  exact ⟨hjump, by decide, hwalk, hroot⟩

end Interpreter

end Chronicle
