import Chronicle.Branches
import Chronicle.Proofs.Arena
import Chronicle.Proofs.Stamps

/-!
# Calls: what is done to an interpreter

The calls on an interpreter as values, so that a run is a list of them. Every node of the arena is written once, so the stamps
of a run are a clock from places of the arena to stamps: what is written at a place gets the stamp of that place.

A call is decided by the machine, by whether the interpreter is started and by the head (`Interpreter.decision`), and is then
carried out on the history, or refused (`call_eq`). What holds of every call is read off the four decisions and not off the
fourteen calls.
-/

namespace Chronicle

namespace Interpreter

/-- A call on an interpreter. What a function that derives a context may fail with is of type `ε`; functions that fail with
values of different types are given their sum. -/
inductive Call (C E ε : Type) where
  | send (e : E)
  | sendAssign (e : E) (assign : C → E → C)
  | sendWith (e : E) (assign : C → E → Except ε C)
  | setState (state : String)
  | setStateWithContext (state : String) (context : C)
  | undo
  | redo
  | undoToRoot
  | backward
  | pause
  | resume
  | clearPaused
  | start
  | stop

/-- Whether a call starts or stops the interpreter. -/
def Call.isSwitch {C E ε : Type} : Call C E ε → Bool
  | .start | .stop => true
  | _ => false

/-- What a call answers. -/
inductive Answer (ε : Type) where
  /-- Whether anything was done. -/
  | flag (b : Bool)
  /-- The function that derives the context failed. -/
  | failed (e : AssignError ε)
  | done
deriving DecidableEq

/-- Whether a call was neither answered `false` nor failed. -/
def Answer.success {ε : Type} : Answer ε → Bool
  | .flag b => b
  | .failed _ => false
  | .done => true

/-- The answer to sending an event with a function that may fail. -/
def Answer.ofSent {ε : Type} : Except (AssignError ε) Bool → Answer ε
  | .ok written => .flag written
  | .error e => .failed e

/-- What a call comes to, once the machine and the head have been looked at. -/
inductive Decision (C E ε : Type) where
  /-- Nothing is done, and the lines are logged. -/
  | refuse (answer : Answer ε) (lines : List LogLine)
  /-- A node derived from the head is written. -/
  | derive (state : String) (context : C) (trigger : Trigger E)
  /-- The history is moved about in, or its checkpoint is set or cleared. -/
  | operate (op : History.Operation C E)
  /-- The interpreter is started or stopped. -/
  | switch (started : Bool)

variable {C E ε : Type}

/-- What forcing a state comes to. -/
def forcing (i : Interpreter C E) (state : String) (context : C) : Decision C E ε :=
  if i.started then .derive state context .override else .refuse (.flag false) []

/-- The node that is derived from the head. -/
def derived (i : Interpreter C E) (stamp : Stamp) (state : String) (context : C) (trigger : Trigger E) : Node C E :=
  { state, context, trigger, timestamp := stamp.time, parent := some i.history.head, id := some stamp.id }

/-- What an operation on the history is answered with. -/
def reply : History.Answer → Answer ε
  | .index _ => .flag true
  | .moved b => .flag b
  | .done => .done

/-- Two interpreters are alike if they have the same machine and, up to stamps, the same history. -/
structure Alike (i j : Interpreter C E) : Prop where
  machine : i.machine = j.machine
  history : i.history.unstamped = j.history.unstamped

variable [EventKey E]

/-- Which node a call may derive from a parent. An event leads to its state by the machine, and its context is the parent's or
what the function of the call made of that; a forced state is the one of the call. Other calls derive none. -/
def Call.Derives (m : Machine C) (parent child : Node C E) : Call C E ε → Prop
  | .send e =>
    child.trigger = .event e ∧ m.next parent.state e = some child.state ∧ child.context = parent.context
  | .sendAssign e assign =>
    child.trigger = .event e ∧ m.next parent.state e = some child.state ∧ child.context = assign parent.context e
  | .sendWith e assign =>
    child.trigger = .event e ∧ m.next parent.state e = some child.state ∧ assign parent.context e = .ok child.context
  | .setState state => child.trigger = .override ∧ child.state = state ∧ child.context = parent.context
  | .setStateWithContext state context => child.trigger = .override ∧ child.state = state ∧ child.context = context
  | _ => False

/-- Takes a call; what it writes gets the given stamp. -/
def call (i : Interpreter C E) (stamp : Stamp) : Call C E ε → Turn (Interpreter C E) (Answer ε)
  | .send e => (i.send stamp e).map id .flag
  | .sendAssign e assign => (i.sendAssign stamp e assign).map id .flag
  | .sendWith e assign => (i.sendWith stamp e assign).map id .ofSent
  | .setState state => (i.setState stamp state).map id .flag
  | .setStateWithContext state context => (i.setStateWithContext stamp state context).map id .flag
  | .undo => i.undo.map id .flag
  | .redo => i.redo.map id .flag
  | .undoToRoot => i.undoToRoot.map id .flag
  | .backward => i.backward.map id .flag
  | .pause => i.pause.map id fun _ => .done
  | .resume => i.resume.map id .flag
  | .clearPaused => i.clearPaused.map id fun _ => .done
  | .start => ⟨i.start, .done, []⟩
  | .stop => ⟨i.stop, .done, []⟩

/-- Takes calls one after another; the node written at a place of the arena gets the stamp the clock has for that place. -/
def run (clock : Nat → Stamp) (i : Interpreter C E) (calls : List (Call C E ε)) :
    Turn (Interpreter C E) (List (Call C E ε × Answer ε)) :=
  Turn.run (fun i c => i.call (clock i.history.size) c) i calls

/-- The interpreter after one more call. -/
theorem run_snoc (clock : Nat → Stamp) (i : Interpreter C E) (calls : List (Call C E ε)) (c : Call C E ε) :
    (i.run clock (calls ++ [c])).state =
      ((i.run clock calls).state.call (clock (i.run clock calls).state.history.size) c).state :=
  Turn.run_state_snoc _ i calls c

/-! ## Deciding and carrying out -/

/-- What sending an event comes to, given what its function makes of the context of the head. -/
def sending (i : Interpreter C E) (e : E) (context : Except ε C) : Decision C E ε :=
  if i.started then
    match i.machine.next i.state e, context with
    | none, _ => .refuse (.flag false) [.dropped i.state (key e)]
    | some _, .error source => .refuse (.failed ⟨i.state, key e, source⟩) []
    | some target, .ok context => .derive target context (.event e)
  else .refuse (.flag false) [.ignored (key e)]

/-- What a call comes to. -/
def decision (i : Interpreter C E) : Call C E ε → Decision C E ε
  | .send e => i.sending e (.ok i.context)
  | .sendAssign e assign => i.sending e (.ok (assign i.context e))
  | .sendWith e assign => i.sending e (assign i.context e)
  | .setState state => i.forcing state i.context
  | .setStateWithContext state context => i.forcing state context
  | .undo => .operate .undo
  | .redo => .operate .redo
  | .undoToRoot | .backward => .operate .undoToRoot
  | .pause => .operate .pause
  | .resume => .operate .resume
  | .clearPaused => .operate .clearPaused
  | .start => .switch true
  | .stop => .switch false

/-- Carries out an operation on the history. -/
def perform (i : Interpreter C E) (op : History.Operation C E) : Turn (Interpreter C E) (Answer ε) :=
  (i.backend.perform op).map ({ i with backend := · }) reply

/-- Carries out a decision. -/
def carryOut (i : Interpreter C E) (stamp : Stamp) : Decision C E ε → Turn (Interpreter C E) (Answer ε)
  | .refuse answer lines => ⟨i, answer, lines.map .logged⟩
  | .derive state context trigger => i.perform (.write (i.derived stamp state context trigger))
  | .operate op => i.perform op
  | .switch started => ⟨{ i with started }, .done, []⟩

/-- An operation on an interpreter is the operation on its history. -/
theorem perform_history (i : Interpreter C E) (op : History.Operation C E) :
    (i.perform op : Turn (Interpreter C E) (Answer ε)).state.history = (i.history.perform op).1 :=
  Backend.perform_history i.backend op

/-- Acting on an interpreter is performing the operation on its history. -/
theorem act_history (i : Interpreter C E) (op : History.Operation C E) :
    (i.act op).state.history = (i.history.perform op).1 :=
  Backend.perform_history i.backend op

/-- Acting on an interpreter is answered by whether the operation had an effect. -/
theorem act_answer (i : Interpreter C E) (op : History.Operation C E) :
    (i.act op).answer = (i.history.perform op).2.success :=
  congrArg History.Answer.success (Backend.perform_answer i.backend op)

/-- An operation that is answered by more than `done` is a call that is answered by a flag. -/
theorem act_flag (i : Interpreter C E) (op : History.Operation C E) (h : (i.history.perform op).2 ≠ .done) :
    (i.act op).map id .flag = (i.perform op : Turn (Interpreter C E) (Answer ε)) := by
  have hreply : (reply (i.history.perform op).2 : Answer ε) = .flag (i.history.perform op).2.success := by
    cases ha : (i.history.perform op).2 with
    | index k => rfl
    | moved b => rfl
    | done => exact absurd ha h
  simp only [history] at hreply
  simp only [act, perform, Turn.map, Backend.perform_answer, id_eq, hreply]

/-- An operation that is answered by `done` is a call that is answered by `done`. -/
theorem act_done (i : Interpreter C E) (op : History.Operation C E) (h : (i.history.perform op).2 = .done) :
    ((i.act op).map id fun _ => ()).map id (fun _ => .done) = (i.perform op : Turn (Interpreter C E) (Answer ε)) := by
  simp only [history] at h
  simp only [act, perform, Turn.map, Backend.perform_answer, id_eq, h, reply]

/-- Writing a node derived from the head is the operation that writes it. -/
theorem writeNext_flag (i : Interpreter C E) (stamp : Stamp) (state : String) (context : C) (trigger : Trigger E) :
    (i.writeNext stamp state context trigger).map id .flag =
      (i.perform (.write (i.derived stamp state context trigger)) : Turn (Interpreter C E) (Answer ε)) :=
  act_flag i _ (by simp [History.perform])

/-- Sending an event is deciding what it comes to, with what its function makes of the context, and carrying that out. -/
theorem sendWith_eq (i : Interpreter C E) (stamp : Stamp) (e : E) (assign : C → E → Except ε C) :
    (i.sendWith stamp e assign).map id .ofSent = i.carryOut stamp (i.sending e (assign i.context e)) := by
  unfold sendWith sendWithM sending
  cases hs : i.started with
  | false => rfl
  | true =>
    cases hn : i.machine.next i.state e with
    | none => rfl
    | some target =>
      have hbind : ∀ r : Except ε C, (pure r : Id (Except ε C)) = r := fun _ => rfl
      simp only [hbind]
      cases ha : assign i.context e with
      | error source => rfl
      | ok context =>
        simp only [carryOut, if_true]
        rw [← writeNext_flag]
        rfl

/-- Sending an event with a function that cannot fail is sending it with one that does not. -/
theorem sendAssign_eq (i : Interpreter C E) (stamp : Stamp) (e : E) (assign : C → E → C) :
    (i.sendAssign stamp e assign).map id .flag =
      (i.carryOut stamp (i.sending e (.ok (assign i.context e))) : Turn (Interpreter C E) (Answer ε)) := by
  unfold sendAssign sendAssignM sendWithM sending
  cases hs : i.started with
  | false => rfl
  | true =>
    cases hn : i.machine.next i.state e with
    | none => rfl
    | some target =>
      simp only [carryOut, if_true]
      rw [← writeNext_flag]
      rfl

/-- Forcing a state is deciding whether that can be done and doing so. -/
theorem setStateWithContext_eq (i : Interpreter C E) (stamp : Stamp) (state : String) (context : C) :
    (i.setStateWithContext stamp state context).map id .flag =
      (i.carryOut stamp (i.forcing state context) : Turn (Interpreter C E) (Answer ε)) := by
  unfold setStateWithContext forcing
  cases hs : i.started with
  | false => rfl
  | true => exact writeNext_flag i stamp state context .override

/-- A call is decided by the machine and the head, and then carried out. -/
theorem call_eq (i : Interpreter C E) (stamp : Stamp) (c : Call C E ε) :
    i.call stamp c = i.carryOut stamp (i.decision c) := by
  cases c with
  | send e => exact sendAssign_eq i stamp e _
  | sendAssign e assign => exact sendAssign_eq i stamp e assign
  | sendWith e assign => exact sendWith_eq i stamp e assign
  | setState state => exact setStateWithContext_eq i stamp state i.context
  | setStateWithContext state context => exact setStateWithContext_eq i stamp state context
  | undo => exact act_flag i .undo (History.moveTo_ne_done _ _)
  | redo => exact act_flag i .redo (History.moveTo_ne_done _ _)
  | undoToRoot => exact act_flag i .undoToRoot (History.moveTo_ne_done _ _)
  | backward => exact act_flag i .undoToRoot (History.moveTo_ne_done _ _)
  | pause => exact act_done i .pause rfl
  | resume => exact act_flag i .resume (History.moveTo_ne_done _ _)
  | clearPaused => exact act_done i .clearPaused rfl
  | start => rfl
  | stop => rfl

/-! ## What a call depends on -/

/-- What a call comes to depends on the machine, on being started, and on state and context of the head. -/
theorem decision_alike {i j : Interpreter C E} (h : Alike i j) (hs : i.started = j.started) (c : Call C E ε) :
    i.decision c = j.decision c := by
  obtain ⟨hstate, hcontext⟩ := History.headNode_alike h.history
  have hst : i.state = j.state := hstate
  have hco : i.context = j.context := hcontext
  cases c <;> simp only [decision, sending, forcing, hs, h.machine, hst, hco]

/-- Sending an event is refused, or the interpreter is started, the event leads on and its function gave a context. -/
theorem sending_cases (i : Interpreter C E) (e : E) (made : Except ε C) :
    (∃ answer lines, answer.success = false ∧ i.sending e made = .refuse answer lines) ∨
      ∃ target context, i.started = true ∧ i.machine.next i.state e = some target ∧ made = .ok context ∧
        i.sending e made = .derive target context (.event e) := by
  unfold sending
  cases i.started with
  | false => exact Or.inl ⟨_, _, rfl, rfl⟩
  | true =>
    cases i.machine.next i.state e with
    | none => exact Or.inl ⟨_, _, rfl, rfl⟩
    | some target =>
      cases made with
      | error source => exact Or.inl ⟨_, _, rfl, rfl⟩
      | ok context => exact Or.inr ⟨target, context, rfl, rfl, rfl, rfl⟩

omit [EventKey E] in
/-- Forcing a state is refused, or the interpreter is started. -/
theorem forcing_cases (i : Interpreter C E) (state : String) (context : C) :
    (∃ answer lines, answer.success = false ∧ (i.forcing state context : Decision C E ε) = .refuse answer lines) ∨
      (i.started = true ∧ (i.forcing state context : Decision C E ε) = .derive state context .override) := by
  unfold forcing
  cases i.started with
  | false => exact Or.inl ⟨_, _, rfl, rfl⟩
  | true => exact Or.inr ⟨rfl, rfl⟩

/-- The four things a call can come to: it is refused; or the interpreter is started, and it derives from the head a node that
it may derive; or it moves about in the history without writing, or starts or stops, and would come to that in every state. -/
theorem decision_cases (i : Interpreter C E) (c : Call C E ε) :
    (∃ answer lines, answer.success = false ∧ i.decision c = .refuse answer lines) ∨
      (∃ state context trigger, i.started = true ∧ i.decision c = .derive state context trigger ∧
        ∀ stamp, c.Derives i.machine i.head (i.derived stamp state context trigger)) ∨
      (∃ op, op.added = [] ∧ ∀ j : Interpreter C E, j.decision c = .operate op) ∨
      (∃ started, c.isSwitch = true ∧ ∀ j : Interpreter C E, j.decision c = .switch started) := by
  cases c with
  | send e =>
    rcases sending_cases i e (.ok i.context : Except ε C) with h | ⟨target, context, hs, hnext, hmade, h⟩
    · exact Or.inl h
    · exact Or.inr (Or.inl ⟨_, _, _, hs, h, fun _ => ⟨rfl, hnext, (Except.ok.inj hmade).symm⟩⟩)
  | sendAssign e assign =>
    rcases sending_cases i e (.ok (assign i.context e) : Except ε C) with h | ⟨target, context, hs, hnext, hmade, h⟩
    · exact Or.inl h
    · exact Or.inr (Or.inl ⟨_, _, _, hs, h, fun _ => ⟨rfl, hnext, (Except.ok.inj hmade).symm⟩⟩)
  | sendWith e assign =>
    rcases sending_cases i e (assign i.context e) with h | ⟨target, context, hs, hnext, hmade, h⟩
    · exact Or.inl h
    · exact Or.inr (Or.inl ⟨_, _, _, hs, h, fun _ => ⟨rfl, hnext, hmade⟩⟩)
  | setState state =>
    refine (forcing_cases i state i.context).imp id ?_
    rintro ⟨hs, h⟩
    exact Or.inl ⟨_, _, _, hs, h, fun _ => ⟨rfl, rfl, rfl⟩⟩
  | setStateWithContext state context =>
    refine (forcing_cases i state context).imp id ?_
    rintro ⟨hs, h⟩
    exact Or.inl ⟨_, _, _, hs, h, fun _ => ⟨rfl, rfl, rfl⟩⟩
  | start => exact Or.inr (Or.inr (Or.inr ⟨_, rfl, fun _ => rfl⟩))
  | stop => exact Or.inr (Or.inr (Or.inr ⟨_, rfl, fun _ => rfl⟩))
  | _ => exact Or.inr (Or.inr (Or.inl ⟨_, rfl, fun _ => rfl⟩))

/-- A call that does not start or stop leaves the interpreter as started, or as stopped, as it was. -/
theorem call_started (i : Interpreter C E) (stamp : Stamp) {c : Call C E ε} (hc : c.isSwitch = false) :
    (i.call stamp c).state.started = i.started := by
  rw [call_eq]
  rcases decision_cases i c with ⟨_, _, -, hd⟩ | ⟨_, _, _, -, hd, -⟩ | ⟨_, -, hd⟩ | ⟨_, hswitch, -⟩
  · rw [hd]
    rfl
  · rw [hd]
    rfl
  · rw [hd]
    rfl
  · rw [hc] at hswitch
    cases hswitch

/-- Operations on the histories of alike interpreters that are the same up to stamps are answered alike, leave the two alike,
and through the same layers are reported alike. -/
theorem perform_alike {i j : Interpreter C E} (h : Alike i j) {op op' : History.Operation C E}
    (hop : op.unstamped = op'.unstamped) :
    (i.perform op : Turn (Interpreter C E) (Answer ε)).answer = (j.perform op' : Turn (Interpreter C E) (Answer ε)).answer ∧
      Alike (i.perform op : Turn (Interpreter C E) (Answer ε)).state (j.perform op' : Turn (Interpreter C E) (Answer ε)).state ∧
      (i.backend.layers = j.backend.layers →
        (i.perform op : Turn (Interpreter C E) (Answer ε)).signals =
          (j.perform op' : Turn (Interpreter C E) (Answer ε)).signals) := by
  obtain ⟨hhistory, hanswer⟩ := History.perform_alike h.history hop
  refine ⟨?_, ⟨h.machine, ?_⟩, fun hl => Backend.perform_signals_alike h.history hl hop⟩
  · simp only [perform, Turn.map, Backend.perform_answer]
    exact congrArg reply hanswer
  · simp only [Interpreter.history, perform, Turn.map, Backend.perform_history]
    exact hhistory

/-- A decision carried out by alike interpreters is answered alike, leaves the two alike, and through the same layers has the
same reported, whatever the stamps. -/
theorem carryOut_alike {i j : Interpreter C E} (h : Alike i j) (stamp stamp' : Stamp) (d : Decision C E ε) :
    (i.carryOut stamp d).answer = (j.carryOut stamp' d).answer ∧
      Alike (i.carryOut stamp d).state (j.carryOut stamp' d).state ∧
      (i.backend.layers = j.backend.layers → (i.carryOut stamp d).signals = (j.carryOut stamp' d).signals) := by
  cases d with
  | refuse answer lines => exact ⟨rfl, h, fun _ => rfl⟩
  | derive state context trigger =>
    have hhead : i.history.head = j.history.head := by
      simpa [History.unstamped] using congrArg History.head h.history
    apply perform_alike h
    simp [History.Operation.unstamped, Node.unstamped, derived, hhead]
  | operate op => exact perform_alike h rfl
  | switch started => exact ⟨rfl, ⟨h.machine, h.history⟩, fun _ => rfl⟩

/-- A call that comes to the same on alike interpreters is answered alike, leaves the two alike, and through the same layers
has the same reported. -/
theorem call_alike {i j : Interpreter C E} (h : Alike i j) (stamp stamp' : Stamp) {c : Call C E ε}
    (hd : i.decision c = j.decision c) :
    (i.call stamp c).answer = (j.call stamp' c).answer ∧ Alike (i.call stamp c).state (j.call stamp' c).state ∧
      (i.backend.layers = j.backend.layers → (i.call stamp c).signals = (j.call stamp' c).signals) := by
  rw [call_eq, call_eq, hd]
  exact carryOut_alike h stamp stamp' (j.decision c)

/-- A call that comes to the same on interpreters that are both started, or both stopped, leaves them both started or both
stopped. -/
theorem call_started_alike {i j : Interpreter C E} (hs : i.started = j.started) (stamp stamp' : Stamp) {c : Call C E ε}
    (hd : i.decision c = j.decision c) : (i.call stamp c).state.started = (j.call stamp' c).state.started := by
  rw [call_eq, call_eq, hd]
  cases j.decision c with
  | refuse answer lines => exact hs
  | derive state context trigger => exact hs
  | operate op => exact hs
  | switch started => rfl

/-- What every operation keeps of a history, every call keeps. -/
theorem call_invariant {P : History C E → Prop} (hperform : ∀ h op, P h → P (h.perform op).1) {i : Interpreter C E}
    (hP : P i.history) (stamp : Stamp) (c : Call C E ε) : P (i.call stamp c).state.history := by
  have hop : ∀ op, P (i.perform op : Turn (Interpreter C E) (Answer ε)).state.history := by
    intro op
    rw [perform_history]
    exact hperform i.history op hP
  rw [call_eq]
  cases i.decision c with
  | refuse answer lines => exact hP
  | derive state context trigger => exact hop _
  | operate op => exact hop op
  | switch started => exact hP

/-- An operation that is not answered `true` leaves the head where it is. -/
theorem perform_head {i : Interpreter C E} {op : History.Operation C E}
    (h : (i.perform op : Turn (Interpreter C E) (Answer ε)).answer ≠ .flag true) :
    (i.perform op : Turn (Interpreter C E) (Answer ε)).state.history.head = i.history.head := by
  rw [perform_history]
  have hreply : (reply (i.history.perform op).2 : Answer ε) ≠ .flag true := by
    simpa only [perform, Turn.map, Backend.perform_answer, history] using h
  cases ha : (i.history.perform op).2 with
  | index k => simp [ha, reply] at hreply
  | done => exact History.perform_head_of_done ha
  | moved b =>
    cases b with
    | true => simp [ha, reply] at hreply
    | false => rw [History.perform_of_failure i.history op (by rw [ha]; rfl)]

/-- A call that is not answered `true` leaves the head where it is. -/
theorem call_head {i : Interpreter C E} {stamp : Stamp} {c : Call C E ε} (h : (i.call stamp c).answer ≠ .flag true) :
    (i.call stamp c).state.history.head = i.history.head := by
  rw [call_eq] at h ⊢
  cases hd : i.decision c with
  | refuse answer lines => rfl
  | derive state context trigger =>
    rw [hd] at h
    exact perform_head h
  | operate op =>
    rw [hd] at h
    exact perform_head h
  | switch started => rfl

/-- No call changes the layers around the history. -/
theorem call_layers (i : Interpreter C E) (stamp : Stamp) (c : Call C E ε) :
    (i.call stamp c).state.backend.layers = i.backend.layers := by
  rw [call_eq]
  cases i.decision c with
  | refuse answer lines => rfl
  | derive state context trigger => exact Backend.perform_layers _ _
  | operate op => exact Backend.perform_layers _ _
  | switch started => rfl

end Interpreter

end Chronicle
