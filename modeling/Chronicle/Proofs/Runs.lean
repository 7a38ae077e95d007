import Chronicle.History.Observed

/-!
# Runs: turn after turn

`Turn.run` takes the turns of a system one after another. Its answer is the transcript of the run: every input beside what was
answered to it. `run_simulates` is the rule behind the statements that compare two runs: a second system that is given only
the inputs worth keeping, and that keeps up with the first on those, ends where the first does and answers the same.
-/

namespace Chronicle

namespace Turn

variable {σ τ α β γ : Type}

/-- The run over a list of inputs: the last state, the transcript, and the signals of all turns in their order. -/
def run (step : σ → α → Turn σ β) (s : σ) : List α → Turn σ (List (α × β))
  | [] => ⟨s, [], []⟩
  | a :: inputs =>
    let turn := step s a
    let rest := run step turn.state inputs
    ⟨rest.state, (a, turn.answer) :: rest.answer, turn.signals ++ rest.signals⟩

/-- The inputs of a transcript that are worth keeping. -/
def kept (keep : α × β → Bool) (transcript : List (α × β)) : List α := (transcript.filter keep).map Prod.fst

/-- Striking inputs out of those that were kept is keeping fewer. -/
theorem filter_kept (keep : α × β → Bool) (p : α → Bool) (transcript : List (α × β)) :
    (kept keep transcript).filter p = kept (fun entry => keep entry && p entry.1) transcript := by
  simp only [kept, List.filter_map, List.filter_filter, Function.comp_apply, Bool.and_comm]

/-- A run over two lists of inputs is a run over the first and then one over the second. -/
theorem run_append (step : σ → α → Turn σ β) (s : σ) (xs ys : List α) :
    run step s (xs ++ ys) = ⟨(run step (run step s xs).state ys).state,
      (run step s xs).answer ++ (run step (run step s xs).state ys).answer,
      (run step s xs).signals ++ (run step (run step s xs).state ys).signals⟩ := by
  induction xs generalizing s with
  | nil => rfl
  | cons a xs ih => simp only [List.cons_append, run, ih, List.append_assoc]

/-- The state after one more input. -/
theorem run_state_snoc (step : σ → α → Turn σ β) (s : σ) (xs : List α) (a : α) :
    (run step s (xs ++ [a])).state = (step (run step s xs).state a).state := by
  rw [run_append]
  rfl

/-- The transcript lists the inputs in their order. -/
theorem run_inputs (step : σ → α → Turn σ β) (s : σ) (xs : List α) :
    (run step s xs).answer.map Prod.fst = xs := by
  induction xs generalizing s with
  | nil => rfl
  | cons a xs ih => simp only [run, List.map_cons, ih]

/-- The transcript after one more input. -/
theorem run_answer_snoc (step : σ → α → Turn σ β) (s : σ) (xs : List α) (a : α) :
    (run step s (xs ++ [a])).answer = (run step s xs).answer ++ [(a, (step (run step s xs).state a).answer)] := by
  rw [run_append]
  rfl

/-- Where a transcript is split at an entry, the part before is the transcript of its inputs, and the entry is the input there
with what it was answered after them. -/
theorem run_answer_split {step : σ → α → Turn σ β} {s : σ} {xs : List α} {before after : List (α × β)} {entry : α × β}
    (h : (run step s xs).answer = before ++ entry :: after) :
    (run step s (before.map Prod.fst)).answer = before ∧
      entry.2 = (step (run step s (before.map Prod.fst)).state entry.1).answer := by
  induction before generalizing s xs with
  | nil =>
    cases xs with
    | nil => cases h
    | cons a xs =>
      obtain ⟨rfl, -⟩ := List.cons.inj h
      exact ⟨rfl, rfl⟩
  | cons e before ih =>
    cases xs with
    | nil => cases h
    | cons a xs =>
      obtain ⟨rfl, hrest⟩ := List.cons.inj h
      obtain ⟨hbefore, hentry⟩ := ih hrest
      exact ⟨congrArg ((a, (step s a).answer) :: ·) hbefore, hentry⟩

/-- What every turn keeps, a run keeps. -/
theorem run_invariant {step : σ → α → Turn σ β} {P : σ → Prop} (hstep : ∀ s a, P s → P (step s a).state) (xs : List α)
    {s : σ} (hs : P s) : P (run step s xs).state := by
  induction xs generalizing s with
  | nil => exact hs
  | cons a xs ih => exact ih (hstep s a hs)

/-- What every turn keeps that meets a guard, a run keeps at every moment if all its turns meet the guard. -/
theorem run_invariant_of_guard {step : σ → α → Turn σ β} {P : σ → Prop} {G : σ → α → Prop}
    (hstep : ∀ s a, P s → G s a → P (step s a).state) {xs : List α} {s : σ} (hs : P s)
    (hguard : ∀ before a, before ++ [a] <+: xs → G (run step s before).state a) :
    ∀ before, before <+: xs → P (run step s before).state := by
  intro before
  induction before generalizing s xs with
  | nil => exact fun _ => hs
  | cons a before ih =>
    rintro ⟨after, rfl⟩
    have hfirst : G s a := hguard [] a (List.prefix_append [a] (before ++ after))
    refine ih (hstep s a hs hfirst) (fun before' a' hbefore => ?_) (List.prefix_append before after)
    exact hguard (a :: before') a' (List.cons_prefix_cons.mpr ⟨rfl, hbefore⟩)

/-- What holds of every answer that a turn may give holds of every answer of a run. -/
theorem run_answers {step : σ → α → Turn σ β} {P : α → β → Prop} (hstep : ∀ s a, P a (step s a).answer) (xs : List α)
    (s : σ) : ∀ entry ∈ (run step s xs).answer, P entry.1 entry.2 := by
  induction xs generalizing s with
  | nil =>
    intro entry hentry
    cases hentry
  | cons a xs ih =>
    intro entry hentry
    rcases List.mem_cons.mp hentry with rfl | hentry
    · exact hstep s a
    · exact ih _ entry hentry

/-- What every turn keeps that is answered as it should be, a run keeps if all its answers are. -/
theorem run_invariant_of_answers {step : σ → α → Turn σ β} {P : σ → Prop} {Q : α × β → Prop}
    (hstep : ∀ s a, P s → Q (a, (step s a).answer) → P (step s a).state) {xs : List α} {s : σ} (hs : P s)
    (hanswers : ∀ entry ∈ (run step s xs).answer, Q entry) : P (run step s xs).state := by
  induction xs generalizing s with
  | nil => exact hs
  | cons a xs ih =>
    have hfirst : Q (a, (step s a).answer) := hanswers _ List.mem_cons_self
    exact ih (hstep s a hs hfirst) fun entry hentry => hanswers entry (List.mem_cons_of_mem _ hentry)

/-- `step'` keeps up with `step` along `R` when the inputs that are not worth keeping are left out: a turn that is left out
leaves the two related and signals nothing that `view` shows, and a turn that is kept is answered alike, leaves the two
related and signals the same to `view`. -/
structure KeepsUp (step : σ → α → Turn σ β) (step' : τ → α → Turn τ β) (R : σ → τ → Prop) (keep : α × β → Bool)
    (view : Signal → Option γ) : Prop where
  skipped : ∀ s t a, R s t → keep (a, (step s a).answer) = false →
    R (step s a).state t ∧ (step s a).signals.filterMap view = []
  stays : ∀ s t a, R s t → keep (a, (step s a).answer) = true →
    (step' t a).answer = (step s a).answer ∧ R (step s a).state (step' t a).state ∧
      (step' t a).signals.filterMap view = (step s a).signals.filterMap view

/-- A system that keeps up turn by turn keeps up over a run: given the inputs worth keeping, it makes the transcript with the
others struck out, ends in a related state and shows `view` the same signals. -/
theorem run_simulates {step : σ → α → Turn σ β} {step' : τ → α → Turn τ β} {R : σ → τ → Prop} {keep : α × β → Bool}
    {view : Signal → Option γ} (h : KeepsUp step step' R keep view) (xs : List α) {s : σ} {t : τ} (hst : R s t) :
    (run step' t (kept keep (run step s xs).answer)).answer = (run step s xs).answer.filter keep ∧
      R (run step s xs).state (run step' t (kept keep (run step s xs).answer)).state ∧
      (run step' t (kept keep (run step s xs).answer)).signals.filterMap view = (run step s xs).signals.filterMap view := by
  induction xs generalizing s t with
  | nil => exact ⟨rfl, hst, rfl⟩
  | cons a xs ih =>
    by_cases hk : keep (a, (step s a).answer) = true
    · obtain ⟨hanswer, hR, hview⟩ := h.stays s t a hst hk
      obtain ⟨ih1, ih2, ih3⟩ := ih hR
      simp only [kept] at ih1 ih2 ih3
      simp only [run, kept, List.filter_cons, hk, if_true, List.map_cons, hanswer, List.filterMap_append, hview]
      exact ⟨by rw [ih1], ih2, by rw [ih3]⟩
    · rw [Bool.not_eq_true] at hk
      obtain ⟨hR, hview⟩ := h.skipped s t a hst hk
      obtain ⟨ih1, ih2, ih3⟩ := ih hR
      simp only [kept] at ih1 ih2 ih3
      simp only [run, kept, List.filter_cons, hk, Bool.false_eq_true, if_false, List.filterMap_append, hview,
        List.nil_append]
      exact ⟨ih1, ih2, ih3⟩

/-- A system that answers every single input as another does, and stays related to it, answers a run as the other does. It keeps
up with nothing struck out, and with no signal looked at. -/
theorem run_simulates_all {step : σ → α → Turn σ β} {step' : τ → α → Turn τ β} {R : σ → τ → Prop}
    (h : ∀ s t a, R s t → (step' t a).answer = (step s a).answer ∧ R (step s a).state (step' t a).state) (xs : List α)
    {s : σ} {t : τ} (hst : R s t) :
    (run step' t xs).answer = (run step s xs).answer ∧ R (run step s xs).state (run step' t xs).state := by
  have hnone : ∀ signals : List Signal, signals.filterMap (fun _ => (none : Option Unit)) = [] :=
    fun _ => List.filterMap_eq_nil_iff.mpr fun _ _ => rfl
  have hkeeps : KeepsUp step step' R (fun _ => true) (fun _ => (none : Option Unit)) := by
    refine ⟨fun _ _ _ _ hskip => absurd hskip (by simp), ?_⟩
    intro s t a hR _
    obtain ⟨hanswer, hstate⟩ := h s t a hR
    exact ⟨hanswer, hstate, by rw [hnone, hnone]⟩
  have hfilter : (run step s xs).answer.filter (fun _ => true) = (run step s xs).answer :=
    List.filter_eq_self.mpr fun _ _ => rfl
  have hkept : kept (fun _ => true) (run step s xs).answer = xs := by
    rw [kept, hfilter, run_inputs]
  obtain ⟨hanswer, hstate, -⟩ := run_simulates hkeeps xs hst
  rw [hkept] at hanswer hstate
  rw [hfilter] at hanswer
  exact ⟨hanswer, hstate⟩

end Turn

namespace History

variable {C E : Type}

/-- An operation as a turn; a history that no layer observes signals nothing. -/
def turn (h : History C E) (op : Operation C E) : Turn (History C E) Answer := ⟨(h.perform op).1, (h.perform op).2, []⟩

/-- The state after a run of turns is the one after the run of the operations. -/
theorem run_turn_state (h : History C E) (ops : List (Operation C E)) : (Turn.run turn h ops).state = h.run ops := by
  induction ops generalizing h with
  | nil => rfl
  | cons op ops ih => exact ih (h.perform op).1

/-- A run over two lists of operations is a run over the first and then one over the second. -/
theorem run_append (h : History C E) (xs ys : List (Operation C E)) : h.run (xs ++ ys) = (h.run xs).run ys :=
  List.foldl_append

end History

end Chronicle
