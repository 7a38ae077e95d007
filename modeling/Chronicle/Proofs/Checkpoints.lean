import Chronicle.Proofs.Places
import Chronicle.Proofs.Timeline

/-!
# Checkpoints: where resuming leads, told from the whole run

What an operation does to the checkpoint is one of three things (`paused_cases`): pausing puts it at the head, clearing it and
resuming take it away, and all else leaves it, whatever becomes of the head, the stacks and the arena. So a run has a checkpoint
just if some pause of it outlasts what came after (`Outlasts`), and the checkpoint is where the head was at the latest pause.
-/

namespace Chronicle

namespace History

variable {C E : Type}

/-- An operation, with what it was answered, ends a pause if it clears the checkpoint or resumes from it. -/
def Ends (entry : Operation C E × Answer) : Prop :=
  entry.1.effect = .clearPaused ∨ entry.1.effect = .resume ∧ entry.2 = .moved true

/-- A pause after the run `before` outlasts the run `after` if nothing in that run ends it, whether or not there is another pause
in it. -/
def Outlasts (first : Node C E) (before after : List (Operation C E)) : Prop :=
  ∀ entry ∈ (Turn.run turn ((new first).run (before ++ [.pause])) after).answer, ¬Ends entry

/-! ## Single operations -/

/-- The three things that may become of the checkpoint. -/
theorem paused_cases (h : History C E) (op : Operation C E) :
    (op = .pause ∧ (h.perform op).1.paused = some h.head) ∨
      (Ends (op, (h.perform op).2) ∧ (h.perform op).1.paused = none) ∨
      (op ≠ .pause ∧ ¬Ends (op, (h.perform op).2) ∧ (h.perform op).1.paused = h.paused) := by
  have hstep : (h.perform op).1.paused = (h.timeline.step op.effect).1.checkpoint :=
    congrArg (fun t => t.1.checkpoint) (perform_timeline h op)
  rw [hstep]
  cases op with
  | pause => exact Or.inl ⟨rfl, timeline_cursor h⟩
  | clearPaused => exact Or.inr (Or.inl ⟨Or.inl rfl, rfl⟩)
  | resume =>
    right
    cases hp : h.paused with
    | none =>
      right
      refine ⟨by simp, ?_, by simp [Operation.effect, Timeline.step, timeline, hp]⟩
      rintro (hclear | ⟨-, hanswer⟩)
      · cases hclear
      · simp [perform, resume?, hp, moveTo] at hanswer
    | some k =>
      left
      exact ⟨Or.inr ⟨rfl, by simp [perform, resume?, hp, moveTo]⟩, by simp [Operation.effect, Timeline.step, timeline, hp]⟩
  | write n => exact Or.inr (Or.inr ⟨by simp, by simp [Ends, Operation.effect], rfl⟩)
  | undo =>
    refine Or.inr (Or.inr ⟨by simp, by simp [Ends, Operation.effect], ?_⟩)
    simp only [Operation.effect, Timeline.step]
    split <;> rfl
  | redo =>
    refine Or.inr (Or.inr ⟨by simp, by simp [Ends, Operation.effect], ?_⟩)
    simp only [Operation.effect, Timeline.step]
    split <;> rfl
  | undoToRoot => exact Or.inr (Or.inr ⟨by simp, by simp [Ends, Operation.effect], rfl⟩)

/-- Resuming is answered `true` just if there is a checkpoint. -/
theorem resume_answer_iff {h : History C E} : (h.perform .resume).2 = .moved true ↔ h.isPaused = true := by
  unfold isPaused
  cases hp : h.paused with
  | none => simp [perform, resume?, hp, moveTo]
  | some k => simp [perform, resume?, hp, moveTo]

/-! ## Runs -/

/-- A run over a pause is the run up to it, the pause, and the run from there. -/
theorem run_pause (h : History C E) (before after : List (Operation C E)) :
    h.run (before ++ .pause :: after) = (h.run (before ++ [.pause])).run after := by
  rw [← run_append, List.append_assoc, List.singleton_append]

/-- A pause outlasts one more operation if it outlasts the run up to it and the operation does not end it. -/
theorem Outlasts.snoc {first : Node C E} {before after : List (Operation C E)} (ho : Outlasts first before after)
    {op : Operation C E} (hop : ¬Ends (op, (((new first).run (before ++ .pause :: after)).perform op).2)) :
    Outlasts first before (after ++ [op]) := by
  unfold Outlasts
  rw [Turn.run_answer_snoc, run_turn_state, ← run_pause]
  intro entry hentry
  rcases List.mem_append.mp hentry with hentry | hentry
  · exact ho entry hentry
  · cases List.mem_singleton.mp hentry
    exact hop

/-- After a pause that outlasted all that came later there is a checkpoint. -/
theorem Outlasts.isPaused {first : Node C E} {before after : List (Operation C E)} (ho : Outlasts first before after) :
    ((new first).run (before ++ .pause :: after)).isPaused = true := by
  rw [run_pause, ← run_turn_state]
  refine Turn.run_invariant_of_answers (P := fun h : History C E => h.isPaused = true) (Q := fun entry => ¬Ends entry) ?_ ?_ ho
  · intro h op hh hop
    have hpaused : (turn h op).state = (h.perform op).1 := rfl
    unfold History.isPaused at hh ⊢
    rw [hpaused]
    rcases paused_cases h op with ⟨-, hset⟩ | ⟨hends, -⟩ | ⟨-, -, hkept⟩
    · rw [hset]
      rfl
    · exact absurd hends hop
    · rw [hkept]
      exact hh
  · rw [run_append]
    rfl

/-- If no pause came later, the checkpoint is where the head was at the pause. -/
theorem Outlasts.paused_eq {first : Node C E} {before after : List (Operation C E)} (ho : Outlasts first before after)
    (hlatest : .pause ∉ after) :
    ((new first).run (before ++ .pause :: after)).paused = some ((new first).run before).head := by
  rw [run_pause, ← run_turn_state]
  refine Turn.run_invariant_of_answers (P := fun h : History C E => h.paused = some ((new first).run before).head)
    (Q := fun entry => ¬Ends entry ∧ entry.1 ≠ .pause) ?_ ?_ ?_
  · rintro h op hh ⟨hop, hpause⟩
    rcases paused_cases h op with ⟨heq, -⟩ | ⟨hends, -⟩ | ⟨-, -, hkept⟩
    · exact absurd heq hpause
    · exact absurd hends hop
    · exact hkept.trans hh
  · rw [run_append]
    rfl
  · intro entry hentry
    refine ⟨ho entry hentry, fun heq => hlatest ?_⟩
    have hmem : entry.1 ∈ (Turn.run turn ((new first).run (before ++ [.pause])) after).answer.map Prod.fst :=
      List.mem_map_of_mem hentry
    rw [Turn.run_inputs, heq] at hmem
    exact hmem

/-- Where there is a checkpoint there was a pause that outlasted all that came later, and a latest one. -/
theorem exists_latest_pause (first : Node C E) (ops : List (Operation C E)) (hpaused : ((new first).run ops).isPaused = true) :
    ∃ before after, ops = before ++ .pause :: after ∧ Outlasts first before after ∧ .pause ∉ after := by
  induction ops using List.reverseRecOn with
  | nil => cases hpaused
  | append_singleton ops op ih =>
    have hlast : (new first).run (ops ++ [op]) = (((new first).run ops).perform op).1 := run_append (new first) ops [op]
    unfold isPaused at hpaused
    rw [hlast] at hpaused
    rcases paused_cases ((new first).run ops) op with ⟨rfl, -⟩ | ⟨-, hnone⟩ | ⟨hop, hends, hkept⟩
    · exact ⟨ops, [], rfl, List.forall_mem_nil _, List.not_mem_nil⟩
    · rw [hnone] at hpaused
      cases hpaused
    · rw [hkept] at hpaused
      obtain ⟨before, after, rfl, ho, hlatest⟩ := ih hpaused
      refine ⟨before, after ++ [op], by rw [List.append_assoc, List.cons_append], ho.snoc hends, fun hmem => ?_⟩
      rcases List.mem_append.mp hmem with hmem | hmem
      · exact hlatest hmem
      · exact hop (List.mem_singleton.mp hmem).symm

/-- Where resuming leads, told from the whole run. For every history that operations lead to from a new one:
1. Resuming is answered `true` just if there was a pause that outlasted all that came later: since then the checkpoint was not
   cleared, and no resuming was answered `true`.
2. If so, the head becomes what it was at the latest such pause, the same place with the same node; the checkpoint is cleared,
   and the arena and both stacks are those of just before.
3. If not, it is answered `false` and changes nothing.
4. A history is paused just if resuming would be answered `true`. -/
theorem resuming_returns_to_pause (first : Node C E) (ops : List (Operation C E)) :
    let h := (new first).run ops
    ((h.perform .resume).2 = .moved true ↔ ∃ before after, ops = before ++ .pause :: after ∧ Outlasts first before after) ∧
    ((h.perform .resume).2 = .moved true → ∃ before after,
      (ops = before ++ .pause :: after ∧ Outlasts first before after ∧ .pause ∉ after) ∧
      (h.perform .resume).1 = { h with head := ((new first).run before).head, paused := none } ∧
      (h.perform .resume).1.headNode = ((new first).run before).headNode) ∧
    ((h.perform .resume).2 ≠ .moved true → h.perform .resume = (h, .moved false)) ∧
    (h.isPaused = true ↔ (h.perform .resume).2 = .moved true) := by
  intro h
  refine ⟨?_, ?_, ?_, resume_answer_iff.symm⟩
  · rw [resume_answer_iff]
    constructor
    · intro hpaused
      obtain ⟨before, after, hops, ho, -⟩ := exists_latest_pause first ops hpaused
      exact ⟨before, after, hops, ho⟩
    · rintro ⟨before, after, hops, ho⟩
      subst hops
      exact ho.isPaused
  · intro hanswer
    obtain ⟨before, after, hops, ho, hlatest⟩ := exists_latest_pause first ops (resume_answer_iff.mp hanswer)
    have hpaused : h.paused = some ((new first).run before).head := by
      subst hops
      exact ho.paused_eq hlatest
    have hresumed := perform_resume hpaused
    refine ⟨before, after, ⟨hops, ho, hlatest⟩, hresumed, ?_⟩
    have hplaced : ((new first).run before).WellPlaced := (wellPlaced_new first).run before
    have hnode : h.node? ((new first).run before).head = ((new first).run before).node? ((new first).run before).head := by
      subst hops
      rw [← run_node? _ (.pause :: after) hplaced.head, ← run_append]
    have hfound : h.node? ((new first).run before).head = some ((new first).run before).headNode :=
      hnode.trans hplaced.node?_head
    rw [hresumed]
    show (h.node? ((new first).run before).head).getD h.first = ((new first).run before).headNode
    rw [hfound, Option.getD_some]
  · intro hanswer
    have hnone : h.paused = none := by
      have hnot := mt resume_answer_iff.mpr hanswer
      unfold isPaused at hnot
      rwa [Bool.not_eq_true, Option.isSome_eq_false_iff, Option.isNone_iff_eq_none] at hnot
    simp [perform, resume?, hnone, moveTo]

/-- A pause on the way outlasts a rewind and a node that is written off the way: resuming leads back to where it was made. -/
theorem resuming_returns_to_pause_detour :
    let place (state : String) : Node Unit String := .root state () .epoch
    let trip : List (Operation Unit String) :=
      [.write (place "bridge"), .pause, .write (place "inn"), .undoToRoot, .write (place "mill")]
    (((new (place "gate")).run trip).perform .resume).2 = .moved true ∧
      (((new (place "gate")).run trip).perform .resume).1.headNode = place "bridge" := by
  intro place trip
  have hanswer : (((new (place "gate")).run trip).perform .resume).2 = .moved true := rfl
  refine ⟨hanswer, ?_⟩
  obtain ⟨before, after, ⟨htrip, -, -⟩, -, hnode⟩ := (resuming_returns_to_pause (place "gate") trip).2.1 hanswer
  have honly : before = [.write (place "bridge")] := by
    rcases before with _ | ⟨first, _ | ⟨second, rest⟩⟩
    · nomatch (List.cons.inj htrip).1
    · rw [← (List.cons.inj htrip).1]
    · have hlater : [.write (place "inn"), .undoToRoot, .write (place "mill")] = rest ++ .pause :: after :=
        (List.cons.inj (List.cons.inj htrip).2).2
      have hpause : (.pause : Operation Unit String) ∈ rest ++ .pause :: after := by simp
      rw [← hlater] at hpause
      simp at hpause
  rw [hnode, honly]
  rfl

end History

end Chronicle
