import Chronicle.Proofs.Overrides
import Chronicle.Proofs.Timeline

/-!
# Leaves: when being at the root means that the head is the first node

The leaves of the branches tell from the past whether one is at the root: one is if nothing is left to undo. Resuming moves the
head and leaves the past as it is, so with nothing to undo the head may be another node than the first, and with something to
undo it may be the first.

Two invariants are carried along a run. That undoing to the root leads to the first node is kept just if resuming does not drift
away from there (`base_resume`), and that the past tells whether the head is the first node is kept just if resuming is level
with the past (`rootTold_resume`). All other leaves keep both. So a run is as its leaves say just if its resuming was level.
-/

namespace Chronicle

namespace History

variable {C E : Type}

/-- Where undoing to the root leads: the oldest place of the past, or the head if there is none. -/
def base (h : History C E) : Nat := h.past.getLast?.getD h.head

/-- Resuming from where nothing is left to undo would lead to no other node than the first. -/
def NoDrift (h : History C E) : Prop := h.canUndo = false → ∀ k, h.paused = some k → k = 0

/-- Resuming would lead to the first node just if nothing is left to undo. -/
def Level (h : History C E) : Prop := ∀ k, h.paused = some k → (h.canUndo = false ↔ k = 0)

/-- Nothing is left to undo just if the head is the first node. -/
def RootTold (h : History C E) : Prop := h.canUndo = false ↔ h.head = 0

theorem Level.noDrift {h : History C E} (hl : h.Level) : h.NoDrift := fun hroot k hk => (hl k hk).mp hroot

theorem canUndo_eq_false {h : History C E} : h.canUndo = false ↔ h.past = [] := by
  simp [canUndo]

/-! ## Where undoing to the root leads -/

theorem base_of_root {h : History C E} (hroot : h.canUndo = false) : h.base = h.head := by
  rw [base, canUndo_eq_false.mp hroot]
  rfl

/-- Writing does not change where undoing to the root leads. -/
theorem base_write (h : History C E) (n : Node C E) : (h.write n).base = h.base := by
  simp [base, write, List.getLast?_cons]

/-- Neither does undoing to the root: the base is the first entry of the timeline, and only the cursor moves. -/
theorem base_undoToRoot (h : History C E) : (h.perform .undoToRoot).1.base = h.base := by
  have hfirst : ∀ h : History C E, h.timeline.entries.head? = some h.base := by
    intro h
    rw [timeline, List.head?_append, List.head?_reverse, base]
    cases h.past.getLast? <;> rfl
  have hentries : (h.perform .undoToRoot).1.timeline.entries = h.timeline.entries :=
    congrArg (fun t => t.1.entries) (perform_timeline h .undoToRoot)
  exact Option.some.inj ((hfirst _).symm.trans (hentries ▸ hfirst h))

/-- Undoing to the root succeeds if there is something to undo. -/
theorem undoToRoot_success (h : History C E) : (h.perform .undoToRoot).2.success = h.canUndo := by
  cases hc : h.canUndo with
  | false => simp [perform, undoToRoot?, hc, moveTo, Answer.success]
  | true => simp [perform, undoToRoot?, hc, moveTo, Answer.success]

/-- After undoing to the root nothing is left to undo. -/
theorem canUndo_undoToRoot (h : History C E) : (h.perform .undoToRoot).1.canUndo = false := by
  have hcursor := congrArg (fun t => t.1.cursor) (perform_timeline h .undoToRoot)
  exact canUndo_eq_false.mpr (List.length_eq_zero_iff.mp hcursor)

/-- Undoing to the root leads to the base. -/
theorem head_undoToRoot (h : History C E) : (h.perform .undoToRoot).1.head = h.base := by
  rw [← base_undoToRoot, base_of_root (canUndo_undoToRoot h)]

/-- Where undoing to the root led to the first node, it still does so after resuming just if the resuming did not drift. With a
past the base is its oldest place, whatever the head is. -/
theorem base_resume {h : History C E} (hbase : h.base = 0) : (h.perform .resume).1.base = 0 ↔ h.NoDrift := by
  cases hk : h.paused with
  | none => simp [perform_resume_of_none hk, hbase, NoDrift, hk]
  | some k =>
    rw [perform_resume hk]
    cases hpast : h.past with
    | nil => simp [base, NoDrift, canUndo, hpast, hk]
    | cons previous past =>
      rw [base, hpast, List.getLast?_cons] at hbase
      simpa [base, NoDrift, canUndo, hpast, List.getLast?_cons] using hbase

/-! ## Whether the past tells that the head is the first node -/

/-- A node that was just written is not the first, and can be undone. -/
theorem rootTold_write (h : History C E) (n : Node C E) : (h.write n).RootTold := by
  simp [RootTold, canUndo, write, size, nodes]

/-- After undoing to the root the past tells that the head is the first node, if it is. -/
theorem rootTold_undoToRoot {h : History C E} (hbase : h.base = 0) : (h.perform .undoToRoot).1.RootTold := by
  simp [RootTold, canUndo_undoToRoot, head_undoToRoot, hbase]

/-- Where the past told whether the head is the first node, it still does so after resuming just if the resuming was level. -/
theorem rootTold_resume {h : History C E} (htold : h.RootTold) : (h.perform .resume).1.RootTold ↔ h.Level := by
  cases hk : h.paused with
  | none => simp [perform_resume_of_none hk, htold, Level, hk]
  | some k => simp [perform_resume hk, RootTold, Level, hk, canUndo]

end History

namespace Interpreter

/-- What can be done with the leaves of an interpreter. -/
inductive LeafUse (C E : Type) where
  | forward (e : E)
  | forwardOverride (state : String) (context : Option C)
  | pause
  | resume
  | backward

variable {C E ε : Type}

/-- The call that the use of a leaf comes to. -/
def LeafUse.call : LeafUse C E → Call C E Empty
  | .forward e => .send e
  | .forwardOverride state (some context) => .setStateWithContext state context
  | .forwardOverride state none => .setState state
  | .pause => .pause
  | .resume => .resume
  | .backward => .backward

variable [EventKey E]

/-- Uses a leaf; what that writes gets the given stamp. -/
def useLeaf (i : Interpreter C E) (stamp : Stamp) : LeafUse C E → Turn (Interpreter C E) (Answer Empty)
  | .forward e => (i.forward stamp e).map id .flag
  | .forwardOverride state context => (i.forwardOverride stamp state context).map id .flag
  | .pause => i.pause.map id fun _ => .done
  | .resume => i.resume.map id .flag
  | .backward => i.backward.map id .flag

/-- Uses leaves one after another; the node written at a place of the arena gets the stamp the clock has for that place. -/
def roam (clock : Nat → Stamp) (i : Interpreter C E) (uses : List (LeafUse C E)) :
    Turn (Interpreter C E) (List (LeafUse C E × Answer Empty)) :=
  Turn.run (fun i u => i.useLeaf (clock i.history.size) u) i uses

/-! ## Leaves as calls -/

/-- Using a leaf is a call. -/
theorem useLeaf_eq (i : Interpreter C E) (stamp : Stamp) (u : LeafUse C E) : i.useLeaf stamp u = i.call stamp u.call := by
  cases u with
  | forwardOverride state context =>
    cases context with
    | none => rfl
    | some context => rfl
  | _ => rfl

/-- Using leaves leads where the calls lead that this comes to. -/
theorem roam_state (clock : Nat → Stamp) (i : Interpreter C E) (uses : List (LeafUse C E)) :
    (i.roam clock uses).state = (i.run clock (uses.map LeafUse.call)).state := by
  induction uses generalizing i with
  | nil => rfl
  | cons u uses ih =>
    have hfirst := useLeaf_eq i (clock i.history.size) u
    calc (i.roam clock (u :: uses)).state
        = ((i.useLeaf (clock i.history.size) u).state.roam clock uses).state := rfl
      _ = ((i.call (clock i.history.size) u.call).state.run clock (uses.map LeafUse.call)).state := by rw [ih, hfirst]

/-- What holds of a history, and after whatever a leaf may do to it, holds after the use of the leaf: going forward writes a
node or does nothing, and the other leaves are one operation each. -/
theorem useLeaf_history {P : History C E → Prop} {i : Interpreter C E} (hP : P i.history) (stamp : Stamp) (u : LeafUse C E)
    (hwrite : ∀ n, P (i.history.write n)) (hpause : P i.history.pause) (hback : P (i.history.perform .undoToRoot).1)
    (hresume : u = .resume → P (i.history.perform .resume).1) : P (i.useLeaf stamp u).state.history := by
  have hop : ∀ op, P (i.history.perform op).1 → P (i.perform op : Turn (Interpreter C E) (Answer Empty)).state.history := by
    intro op h
    rw [perform_history]
    exact h
  rw [useLeaf_eq, call_eq]
  cases u with
  | forward e =>
    have hd : i.decision (LeafUse.forward e).call = i.sending e (.ok i.context : Except Empty C) := rfl
    rw [hd]
    rcases sending_cases i e (.ok i.context : Except Empty C) with ⟨_, _, -, hs⟩ | ⟨_, _, -, -, -, hs⟩
    · rw [hs]
      exact hP
    · rw [hs]
      exact hop _ (hwrite _)
  | forwardOverride state context =>
    have hd : i.decision (LeafUse.forwardOverride state context).call = i.forcing state (context.getD i.context) := by
      cases context with
      | none => rfl
      | some context => rfl
    rw [hd]
    rcases forcing_cases (ε := Empty) i state (context.getD i.context) with ⟨_, _, -, hf⟩ | ⟨-, hf⟩
    · rw [hf]
      exact hP
    · rw [hf]
      exact hop _ (hwrite _)
  | pause => exact hop _ hpause
  | resume => exact hop _ (hresume rfl)
  | backward => exact hop _ hback

/-! ## Runs of leaves -/

/-- Going backward is undoing to the root. -/
theorem backward_history (i : Interpreter C E) : i.backward.state.history = (i.history.perform .undoToRoot).1 :=
  act_history i .undoToRoot

/-- Going backward is answered by whether one can. -/
theorem backward_answer (i : Interpreter C E) : i.backward.answer = i.canBackward :=
  (act_answer i .undoToRoot).trans (History.undoToRoot_success i.history)

/-- After resuming, a run has the history that its resuming left. -/
theorem roam_resume (clock : Nat → Stamp) (start : Interpreter C E) (before : List (LeafUse C E)) :
    (start.roam clock (before ++ [.resume])).state.history =
      ((start.roam clock before).state.history.perform .resume).1 := by
  rw [roam, Turn.run_state_snoc]
  exact Backend.perform_history _ .resume

/-- In a run whose resuming never drifts, undoing to the root leads to the first node at every moment. -/
theorem roam_base (clock : Nat → Stamp) {start : Interpreter C E} (hstart : start.history.base = 0)
    {uses : List (LeafUse C E)}
    (hdrift : ∀ before, before ++ [.resume] <+: uses → (start.roam clock before).state.history.NoDrift) :
    ∀ before, before <+: uses → (start.roam clock before).state.history.base = 0 := by
  apply Turn.run_invariant_of_guard (P := fun i : Interpreter C E => i.history.base = 0)
    (G := fun i u => u = LeafUse.resume → i.history.NoDrift) _ hstart
  · rintro before u hprefix rfl
    exact hdrift before hprefix
  · intro i u hbase hguard
    apply useLeaf_history (P := fun h => h.base = 0) hbase
    · intro n
      rw [History.base_write, hbase]
    · exact hbase
    · rw [History.base_undoToRoot, hbase]
    · exact fun hu => (History.base_resume hbase).mpr (hguard hu)

/-- In a run whose resuming is level, the past tells at every moment whether the head is the first node. Going backward keeps
this only where it leads to the first node, which it does as level resuming does not drift. -/
theorem roam_rootTold (clock : Nat → Stamp) {start : Interpreter C E} (hstart : start.history.base = 0)
    (htold : start.history.RootTold) {uses : List (LeafUse C E)}
    (hlevel : ∀ before, before ++ [.resume] <+: uses → (start.roam clock before).state.history.Level) :
    ∀ before, before <+: uses → (start.roam clock before).state.history.RootTold := by
  have hbase := roam_base clock hstart fun before hprefix => (hlevel before hprefix).noDrift
  apply Turn.run_invariant_of_guard (P := fun i : Interpreter C E => i.history.RootTold)
    (G := fun i u => i.history.base = 0 ∧ (u = LeafUse.resume → i.history.Level)) _ htold
  · intro before u hprefix
    refine ⟨hbase before ((List.prefix_append before [u]).trans hprefix), ?_⟩
    rintro rfl
    exact hlevel before hprefix
  · rintro i u htold ⟨hbase, hguard⟩
    apply useLeaf_history (P := History.RootTold) htold
    · exact History.rootTold_write i.history
    · exact htold
    · exact History.rootTold_undoToRoot hbase
    · exact fun hu => (History.rootTold_resume htold).mpr (hguard hu)

/-! ## The root of a machine -/

/-- In a run of a machine the node at the head is the first, with the initial state and context, if the head is at its place. -/
theorem run_head_first (m : Machine C) (clock : Nat → Stamp) (calls : List (Call C E ε))
    (hhead : ((interpret m (clock 0)).run clock calls).state.history.head = 0) :
    ((interpret m (clock 0)).run clock calls).state.head = rootOf m (clock 0) := by
  rw [head, History.headNode, hhead, run_root]
  rfl

/-- In a run of a machine the head is the first node just if nothing caused it. -/
theorem run_head_iff (m : Machine C) (clock : Nat → Stamp) (calls : List (Call C E ε)) :
    ((interpret m (clock 0)).run clock calls).state.history.head = 0 ↔
      ((interpret m (clock 0)).run clock calls).state.head.trigger = .none := by
  constructor
  · intro hhead
    rw [run_head_first m clock calls hhead]
    rfl
  · intro htrigger
    have hnew : (interpret m (clock 0) : Interpreter C E).history.WellPlaced := History.wellPlaced_new _
    have hplaced := run_wellPlaced clock hnew calls
    by_contra hhead
    obtain ⟨before, call, after, horigin⟩ :=
      exists_origin_of_interpret m clock calls (Nat.pos_of_ne_zero hhead) hplaced.node?_head
    rcases horigin.derives.kind with ⟨-, -, hforced⟩ | ⟨e, -, -, hevent, -⟩
    · exact nomatch htrigger.symm.trans hforced
    · exact nomatch htrigger.symm.trans hevent

/-- When being at the root means that the head is the first node. For every machine and every use of leaves:
1. The overview, and whether one can go backward, tell whether one is at the root, that is, whether nothing is left to undo.
   Going backward is answered by whether one could, and leads to the root. The head is the first node just if nothing caused it.
2. At every moment being at the root means that the head is the first node just if all resuming was level: the checkpoint was
   the first node just if one was at the root.
3. At every moment going backward would lead to the first node, with the initial state and context, just if no resuming
   drifted: from the root to another node. -/
theorem at_root_iff_level (m : Machine C) (clock : Nat → Stamp) (uses : List (LeafUse C E)) :
    let now (before : List (LeafUse C E)) := ((interpret m (clock 0)).roam clock before).state
    ((now uses).overview.atRoot = (now uses).isAtRoot ∧ (now uses).canBackward = !(now uses).isAtRoot ∧
      (now uses).backward.answer = (now uses).canBackward ∧ (now uses).backward.state.isAtRoot = true ∧
      ((now uses).history.head = 0 ↔ (now uses).head.trigger = .none)) ∧
    ((∀ before, before <+: uses → ((now before).isAtRoot = true ↔ (now before).history.head = 0)) ↔
      ∀ before, before ++ [.resume] <+: uses →
        ∀ k, (now before).history.paused = some k → ((now before).isAtRoot = true ↔ k = 0)) ∧
    ((∀ before, before <+: uses →
        (now before).backward.state.history.head = 0 ∧ (now before).backward.state.head = rootOf m (clock 0)) ↔
      ∀ before, before ++ [.resume] <+: uses →
        (now before).isAtRoot = true → ∀ k, (now before).history.paused = some k → k = 0) := by
  intro now
  have hstart : (interpret m (clock 0) : Interpreter C E).history.base = 0 := rfl
  have hroot : ∀ i : Interpreter C E, i.isAtRoot = true ↔ i.history.canUndo = false := fun i => by simp [isAtRoot]
  have hbackward : ∀ i : Interpreter C E, i.backward.state.history.head = i.history.base := fun i => by
    rw [backward_history, History.head_undoToRoot]
  have hearlier : ∀ {before : List (LeafUse C E)} {u : LeafUse C E}, before ++ [u] <+: uses → before <+: uses :=
    fun hprefix => (List.prefix_append _ _).trans hprefix
  refine ⟨⟨rfl, ?_, ?_, ?_, ?_⟩, ?_, ?_⟩
  · simp [canBackward, isAtRoot]
  · exact backward_answer _
  · rw [hroot, backward_history]
    exact History.canUndo_undoToRoot _
  · simp only [now, roam_state]
    exact run_head_iff m clock _
  · simp only [hroot]
    constructor
    · intro htold before hprefix
      have hnow : (now before).history.RootTold := htold before (hearlier hprefix)
      have hthen : (now (before ++ [.resume])).history.RootTold := htold _ hprefix
      simp only [now, roam_resume] at hthen
      exact (History.rootTold_resume hnow).mp hthen
    · exact roam_rootTold clock hstart ⟨fun _ => rfl, fun _ => rfl⟩
  · simp only [hroot, hbackward]
    constructor
    · intro hback before hprefix
      have hnow : (now before).history.base = 0 := (hback before (hearlier hprefix)).1
      have hthen : (now (before ++ [.resume])).history.base = 0 := (hback _ hprefix).1
      simp only [now, roam_resume] at hthen
      exact (History.base_resume hnow).mp hthen
    · intro hdrift before hprefix
      have hbase : (now before).history.base = 0 := roam_base clock hstart hdrift before hprefix
      have hcalls : (now before).backward.state =
          ((interpret m (clock 0)).run clock ((before ++ [LeafUse.backward]).map LeafUse.call)).state := by
        rw [← roam_state, roam, Turn.run_state_snoc]
        rfl
      have hhead := hbackward (now before)
      rw [hbase, hcalls] at hhead
      refine ⟨hbase, ?_⟩
      rw [hcalls]
      exact run_head_first m clock _ hhead

/-- A kitchen where the two part ways. Resuming from the root to the cooking that was undone leaves one at the root, unable to
go backward, with the cooking at the head; resuming over the cooking to the first node leaves one away from the root. -/
theorem at_root_apart :
    let kitchen : Machine Nat :=
      ⟨Definition.withState { initial := "idle", context := 0 } "idle" (StateEntry.on {} "START" (.bare "cooking")), by decide⟩
    let now (uses : List (LeafUse Nat String)) := ((interpret kitchen (.ofNat 0)).roam .ofNat uses).state
    let drifted := now [.forward "START", .pause, .backward, .resume]
    let lifted := now [.pause, .forward "START", .resume]
    (drifted.isAtRoot = true ∧ drifted.canBackward = false ∧ drifted.history.head = 1 ∧ drifted.state = "cooking" ∧
      drifted.backward.state.history.head = 1 ∧ ¬(drifted.isAtRoot = true ↔ drifted.history.head = 0)) ∧
    (lifted.history.head = 0 ∧ lifted.isAtRoot = false ∧ ¬(lifted.isAtRoot = true ↔ lifted.history.head = 0)) := by
  decide

end Interpreter

end Chronicle
