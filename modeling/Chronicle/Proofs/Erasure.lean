import Chronicle.Proofs.Calls
import Chronicle.Proofs.Counting

/-!
# Erasure: calls that did nothing may be left out

A call that is answered `false`, or whose function failed, leaves the interpreter as it was and counts nothing (`call_idle`);
starting and stopping bear only on whether later calls are refused (`call_switch`). So a run may be repeated without the calls
that did nothing, and then also without starts and stops, since what did something did it while the interpreter was started.
Both repetitions keep up with the first run call by call; what was counted is compared through `Signal.count?`, which leaves
out the log.
-/

namespace Chronicle

namespace Interpreter

variable {C E ε : Type}

/-- What an operation on the history is answered with tells whether the operation had an effect. -/
theorem reply_success (answer : History.Answer) : (reply answer : Answer ε).success = answer.success := by
  cases answer <;> rfl

/-- The calls of a transcript that did something. -/
def worked (entry : Call C E ε × Answer ε) : Bool := entry.2.success

/-- The calls of a transcript that did something other than start or stop. -/
def workedInside (entry : Call C E ε × Answer ε) : Bool := worked entry && !entry.1.isSwitch

/-- Two interpreters are abreast if they are alike and have the same layers around their histories. -/
structure Abreast (i j : Interpreter C E) : Prop extends Alike i j where
  layers : i.backend.layers = j.backend.layers

variable [EventKey E]

/-! ## Calls that change little -/

/-- An operation without effect leaves the interpreter as it was, and nothing is reported. -/
theorem perform_idle (i : Interpreter C E) (op : History.Operation C E)
    (h : (i.perform op : Turn (Interpreter C E) (Answer ε)).answer.success = false) :
    (i.perform op : Turn (Interpreter C E) (Answer ε)).state = i ∧
      (i.perform op : Turn (Interpreter C E) (Answer ε)).signals = [] := by
  simp only [perform, Turn.map, reply_success] at h ⊢
  obtain ⟨hstate, hsignals⟩ := Backend.perform_of_failure i.backend op h
  rw [hstate]
  exact ⟨rfl, hsignals⟩

/-- A call that is answered `false` or fails leaves the interpreter as it was; it may log, but it counts nothing. -/
theorem call_idle (i : Interpreter C E) (stamp : Stamp) (c : Call C E ε) (h : (i.call stamp c).answer.success = false) :
    (i.call stamp c).state = i ∧ (i.call stamp c).signals.filterMap Signal.count? = [] := by
  rw [call_eq] at h ⊢
  cases hd : i.decision c with
  | refuse answer lines =>
    refine ⟨rfl, ?_⟩
    simp [carryOut, Signal.count?, List.filterMap_map]
  | derive state context trigger =>
    rw [hd] at h
    obtain ⟨hstate, hsignals⟩ := perform_idle i _ h
    exact ⟨hstate, congrArg (List.filterMap Signal.count?) hsignals⟩
  | operate op =>
    rw [hd] at h
    obtain ⟨hstate, hsignals⟩ := perform_idle i op h
    exact ⟨hstate, congrArg (List.filterMap Signal.count?) hsignals⟩
  | switch started =>
    rw [hd] at h
    cases h

/-- Starting and stopping leave the machine and the history, and nothing is reported. -/
theorem call_switch (i : Interpreter C E) (stamp : Stamp) {c : Call C E ε} (hc : c.isSwitch = true) :
    (i.call stamp c).state.machine = i.machine ∧ (i.call stamp c).state.backend = i.backend ∧
      (i.call stamp c).signals = [] := by
  cases c with
  | start => exact ⟨rfl, rfl, rfl⟩
  | stop => exact ⟨rfl, rfl, rfl⟩
  | _ => cases hc

/-- A call that did something other than start or stop comes to the same on any started interpreter that is alike. -/
theorem decision_eq_of_worked {i j : Interpreter C E} (h : Alike i j) (hj : j.started = true) (stamp : Stamp)
    {c : Call C E ε} (hworked : (i.call stamp c).answer.success = true) (hc : c.isSwitch = false) :
    i.decision c = j.decision c := by
  rcases decision_cases i c with ⟨answer, lines, hfailed, hd⟩ | ⟨_, _, _, hi, -, -⟩ | ⟨op, -, hd⟩ | ⟨_, hswitch, -⟩
  · rw [call_eq, hd] at hworked
    rw [carryOut, hfailed] at hworked
    cases hworked
  · exact decision_alike h (hi.trans hj.symm) c
  · rw [hd i, hd j]
  · rw [hc] at hswitch
    cases hswitch

/-- A call that comes to the same on interpreters that are abreast is answered and reported alike, and leaves them abreast. -/
theorem call_abreast {i j : Interpreter C E} (h : Abreast i j) (stamp stamp' : Stamp) {c : Call C E ε}
    (hd : i.decision c = j.decision c) :
    (j.call stamp' c).answer = (i.call stamp c).answer ∧ Abreast (i.call stamp c).state (j.call stamp' c).state ∧
      (j.call stamp' c).signals = (i.call stamp c).signals := by
  obtain ⟨hanswer, halike, hsignals⟩ := call_alike h.toAlike stamp stamp' hd
  have hlayers : (i.call stamp c).state.backend.layers = (j.call stamp' c).state.backend.layers := by
    rw [call_layers, call_layers, h.layers]
  exact ⟨hanswer.symm, ⟨halike, hlayers⟩, (hsignals h.layers).symm⟩

/-! ## Leaving calls out of a run -/

/-- An interpreter that is spared the calls that did nothing stays abreast, and is started and stopped with the first. -/
theorem keepsUp_worked (clock clock' : Nat → Stamp) :
    Turn.KeepsUp (fun i (c : Call C E ε) => i.call (clock i.history.size) c)
      (fun j (c : Call C E ε) => j.call (clock' j.history.size) c)
      (fun i j : Interpreter C E => Abreast i j ∧ i.started = j.started) worked Signal.count? where
  skipped := by
    intro i j c hR hskip
    obtain ⟨hstate, hcounts⟩ := call_idle i _ c hskip
    rw [hstate]
    exact ⟨hR, hcounts⟩
  stays := by
    rintro i j c ⟨h, hs⟩ -
    have hd := decision_alike h.toAlike hs c
    obtain ⟨hanswer, habreast, hsignals⟩ := call_abreast h (clock i.history.size) (clock' j.history.size) hd
    exact ⟨hanswer, ⟨habreast, call_started_alike hs _ _ hd⟩, by rw [hsignals]⟩

/-- An interpreter that is also spared the starts and stops stays abreast, and started. -/
theorem keepsUp_workedInside (clock clock' : Nat → Stamp) :
    Turn.KeepsUp (fun i (c : Call C E ε) => i.call (clock i.history.size) c)
      (fun j (c : Call C E ε) => j.call (clock' j.history.size) c)
      (fun i j : Interpreter C E => Abreast i j ∧ j.started = true) workedInside Signal.count? where
  skipped := by
    rintro i j c ⟨h, hj⟩ hskip
    cases hworked : (i.call (clock i.history.size) c).answer.success with
    | false =>
      obtain ⟨hstate, hcounts⟩ := call_idle i _ c hworked
      rw [hstate]
      exact ⟨⟨h, hj⟩, hcounts⟩
    | true =>
      have hc : c.isSwitch = true := by simpa [workedInside, worked, hworked] using hskip
      obtain ⟨hmachine, hbackend, hsignals⟩ := call_switch i (clock i.history.size) hc
      refine ⟨⟨⟨⟨hmachine.trans h.machine, ?_⟩, ?_⟩, hj⟩, by rw [hsignals, List.filterMap_nil]⟩
      · rw [history, hbackend]
        exact h.history
      · rw [hbackend]
        exact h.layers
  stays := by
    rintro i j c ⟨h, hj⟩ hkeep
    obtain ⟨hworked, hc⟩ : (i.call (clock i.history.size) c).answer.success = true ∧ c.isSwitch = false := by
      simpa [workedInside, worked] using hkeep
    have hd := decision_eq_of_worked h.toAlike hj _ hworked hc
    obtain ⟨hanswer, habreast, hsignals⟩ := call_abreast h (clock i.history.size) (clock' j.history.size) hd
    exact ⟨hanswer, ⟨habreast, (call_started j _ hc).trans hj⟩, by rw [hsignals]⟩

/-- Calls that did nothing can be erased from a run, in any layers. Let the run be repeated, over a history that is the same up
to stamps and in the same layers, with what is left of its calls.
1. Without the calls that were answered `false` or failed: every other call is answered as before, and the interpreter ends
   with the same history up to stamps, as started as before, and with every cell at the same counters.
2. Without the starts and stops among those that are left, too: every other call is still answered as before, and history and
   counters are still the same. -/
theorem idle_calls_erasable {h h' : History C E} (hh : h.unstamped = h'.unstamped) (layers : List Layer) (m : Machine C)
    (clock clock' clock'' : Nat → Stamp) (calls : List (Call C E ε)) :
    let all := (Interpreter.over m (Backend.wrap h layers)).run clock calls
    let effective := Turn.kept worked all.answer
    let once := (Interpreter.over m (Backend.wrap h' layers)).run clock' effective
    let twice := (Interpreter.over m (Backend.wrap h' layers)).run clock'' (effective.filter fun c => !c.isSwitch)
    (once.answer = all.answer.filter worked ∧ once.state.history.unstamped = all.state.history.unstamped ∧
      once.state.started = all.state.started ∧
      ∀ cell c, Counters.afterAll cell c once.signals = Counters.afterAll cell c all.signals) ∧
    (twice.answer = once.answer.filter (fun entry => !entry.1.isSwitch) ∧
      twice.state.history.unstamped = all.state.history.unstamped ∧
      ∀ cell c, Counters.afterAll cell c twice.signals = Counters.afterAll cell c all.signals) := by
  intro all effective once twice
  have habreast : Abreast (Interpreter.over m (Backend.wrap h layers)) (Interpreter.over m (Backend.wrap h' layers)) := by
    refine ⟨⟨rfl, ?_⟩, ?_⟩
    · simpa only [history, Interpreter.over, Backend.history_wrap] using hh
    · simp only [Interpreter.over, Backend.layers_wrap]
  obtain ⟨hanswer, ⟨hend, hstarted⟩, hcounts⟩ :=
    Turn.run_simulates (keepsUp_worked clock clock') calls ⟨habreast, rfl⟩
  obtain ⟨hanswer', ⟨hend', -⟩, hcounts'⟩ :=
    Turn.run_simulates (keepsUp_workedInside clock clock'') calls ⟨habreast, rfl⟩
  have hinputs : effective.filter (fun c => !c.isSwitch) = Turn.kept workedInside all.answer := Turn.filter_kept _ _ _
  have hentries : (all.answer.filter worked).filter (fun entry => !entry.1.isSwitch) = all.answer.filter workedInside := by
    rw [List.filter_filter]
    exact congrArg (List.filter · all.answer) (funext fun entry => Bool.and_comm _ _)
  have honce : once.answer = all.answer.filter worked := hanswer
  have htwice : twice = (Interpreter.over m (Backend.wrap h' layers)).run clock'' (Turn.kept workedInside all.answer) :=
    congrArg (run clock'' _) hinputs
  rw [htwice, honce, hentries]
  exact ⟨⟨rfl, hend.history.symm, hstarted.symm, Counters.afterAll_congr hcounts⟩,
    hanswer', hend'.history.symm, Counters.afterAll_congr hcounts'⟩

/-- Two layers around a door: a push that does nothing while it is stopped, and steps with nowhere to go, are erased. -/
theorem idle_calls_erasable_door :
    let door : Machine Unit := ⟨Definition.withFallback { initial := "closed", context := () } "PUSH" (.bare "open"), by decide⟩
    let hung (n : Nat) : History Unit String := .new (rootOf door (.ofNat n))
    let layers : List Layer := [⟨0, true⟩, ⟨1, false⟩]
    let all := (Interpreter.over door (Backend.wrap (hung 0) layers)).run .ofNat
      ([.undo, .send "PUSH", .stop, .send "PUSH", .start, .redo, .undo] : List (Call Unit String Empty))
    (hung 0).unstamped = (hung 9).unstamped ∧
      ((Interpreter.over door (Backend.wrap (hung 9) layers)).run .ofNat (Turn.kept worked all.answer)).answer.map Prod.snd =
        [.flag true, .done, .done, .flag true] := by
  intro door hung layers all
  have hsame : (hung 0).unstamped = (hung 9).unstamped := rfl
  refine ⟨hsame, ?_⟩
  have h := idle_calls_erasable hsame layers door .ofNat .ofNat .ofNat
    ([.undo, .send "PUSH", .stop, .send "PUSH", .start, .redo, .undo] : List (Call Unit String Empty))
  rw [h.1.1]
  decide

end Interpreter

end Chronicle
