import Chronicle.Proofs.Calls
import Chronicle.Proofs.Counting

/-!
# Sending: all or nothing

Sending an event ends in one of four ways: the interpreter is stopped, the event leads nowhere, the function that derives the
context fails, or a node is written. `sendWithM_refused` speaks of the first two and `sendWithM_taken` of the others, in any
monad that the function may run in; in the one the function does not occur, and in the other it occurs once. What was not
written left no trace but in the log (`Untouched`), and what was written is one node on top of the head (`Wrote`).
-/

namespace Chronicle

namespace Interpreter

variable {C E ε : Type}

/-- A turn left everything as it was: the interpreter, and the counters of all cells. -/
structure Untouched {α : Type} (i : Interpreter C E) (turn : Turn (Interpreter C E) α) : Prop where
  state : turn.state = i
  counters : ∀ cell c, Counters.afterAll cell c turn.signals = c

/-- A turn wrote one node. It is the head, the old head is on top of the past and nothing is left to redo; all else is as it
was. -/
structure Wrote {α : Type} (i : Interpreter C E) (n : Node C E) (turn : Turn (Interpreter C E) α) : Prop where
  nodes : turn.state.history.nodes = i.history.nodes ++ [n]
  head : turn.state.history.head = i.history.size
  past : turn.state.history.past = i.history.head :: i.history.past
  redone : turn.state.history.redone = []
  paused : turn.state.history.paused = i.history.paused
  machine : turn.state.machine = i.machine
  started : turn.state.started = i.started
  layers : turn.state.backend.layers = i.backend.layers

/-- A function that may keep a state of its own, with a record of what it was called with. -/
def recorded {σ α : Type} (assign : C → E → StateM σ α) (context : C) (e : E) : StateM (σ × List (C × E)) α := fun s =>
  let made := (assign context e).run s.1
  (made.1, made.2, s.2 ++ [(context, e)])

variable [EventKey E]

/-! ## Writing -/

/-- A node derived from the head is written, whatever the layers. -/
theorem wrote_writeNext (i : Interpreter C E) (stamp : Stamp) (state : String) (context : C) (trigger : Trigger E) :
    Wrote i (i.derived stamp state context trigger) (i.writeNext stamp state context trigger) := by
  have hhistory : (i.writeNext stamp state context trigger).state.history =
      i.history.write (i.derived stamp state context trigger) := act_history i _
  exact {
    nodes := by rw [hhistory, History.nodes_write]
    head := by rw [hhistory]; rfl
    past := by rw [hhistory]; rfl
    redone := by rw [hhistory]; rfl
    paused := by rw [hhistory]; rfl
    machine := rfl
    started := rfl
    layers := Backend.perform_layers _ _ }

omit [EventKey E] in
/-- What was written is told by the state, whatever the answer. -/
theorem Wrote.map {α β : Type} {i : Interpreter C E} {n : Node C E} {turn : Turn (Interpreter C E) α} (h : Wrote i n turn)
    (answer : α → β) : Wrote i n (turn.map id answer) :=
  ⟨h.nodes, h.head, h.past, h.redone, h.paused, h.machine, h.started, h.layers⟩

omit [EventKey E] in
/-- The state of the head is that of the node that was written. -/
theorem Wrote.state {α : Type} {i : Interpreter C E} {n : Node C E} {turn : Turn (Interpreter C E) α} (h : Wrote i n turn) :
    turn.state.state = n.state := by
  have hlast : turn.state.history.node? turn.state.history.head = some n := by
    rw [History.node?, h.nodes, h.head]
    exact List.getElem?_concat_length
  show turn.state.history.headNode.state = n.state
  rw [History.headNode, hlast]
  rfl

/-! ## The ways in which sending ends -/

/-- An event leads to the state of the entry that is found for it. -/
theorem next_eq (i : Interpreter C E) (e : E) : i.machine.next i.state e = (i.transitionFor e).map Target.state := rfl

/-- An event is refused because the interpreter is stopped or the event leads nowhere. -/
def Refuses (i : Interpreter C E) (e : E) : Prop := i.started = false ∨ i.machine.next i.state e = none

/-- An event that is not refused leads on. -/
theorem refuses_or_leads (i : Interpreter C E) (e : E) :
    i.Refuses e ∨ ∃ target, i.started = true ∧ i.machine.next i.state e = some target := by
  cases hs : i.started with
  | false => exact Or.inl (Or.inl hs)
  | true =>
    cases hn : i.machine.next i.state e with
    | none => exact Or.inl (Or.inr hn)
    | some target => exact Or.inr ⟨target, rfl, rfl⟩

/-- What is logged of an event that is refused. -/
def refusal (i : Interpreter C E) (e : E) : LogLine := if i.started then .dropped i.state (key e) else .ignored (key e)

/-- What sending comes to once the function has derived a context or failed. -/
def concluded (i : Interpreter C E) (stamp : Stamp) (e : E) (target : String) :
    Except ε C → Turn (Interpreter C E) (Except (AssignError ε) Bool)
  | .error source => ⟨i, .error ⟨i.state, key e, source⟩, []⟩
  | .ok context => (i.writeNext stamp target context (.event e)).map id .ok

section

variable {m : Type → Type} [Monad m] {i : Interpreter C E} {stamp : Stamp} {e : E} {assign : C → E → m (Except ε C)}

/-- For an event that is refused the function is not called. -/
theorem sendWithM_refused (h : i.Refuses e) : i.sendWithM stamp e assign = pure ⟨i, .ok false, [.logged (i.refusal e)]⟩ := by
  unfold sendWithM refusal
  cases hs : i.started with
  | false => rfl
  | true =>
    have hn : i.machine.next i.state e = none := h.resolve_left (by rw [hs]; exact nofun)
    rw [hn]
    rfl

/-- For an event that leads on the function is called, with the context of the head. -/
theorem sendWithM_taken {target : String} (hs : i.started = true) (hn : i.machine.next i.state e = some target) :
    i.sendWithM stamp e assign = (do return i.concluded stamp e target (← assign i.context e)) := by
  unfold sendWithM
  rw [hs, hn]
  simp only [Bool.not_true, Bool.false_eq_true, if_false]
  congr
  funext made
  cases made <;> rfl

/-- Sending with a function that always gives a context is sending with one that cannot fail. -/
theorem sendWithM_ok [LawfulMonad m] (assign : C → E → m C) :
    (i.sendWithM stamp e fun c e => do return (.ok (← assign c e) : Except ε C)) =
      (do return (← i.sendAssignM stamp e assign).map id .ok) := by
  unfold sendAssignM
  rcases i.refuses_or_leads e with h | ⟨target, hs, hn⟩
  · simp only [sendWithM_refused h, pure_bind]
    rfl
  · simp only [sendWithM_taken hs hn, bind_assoc, pure_bind]
    rfl

/-- Sending with a function that has no effect is sending with a plain one. -/
theorem sendWithM_pure [LawfulMonad m] (f : C → E → Except ε C) :
    (i.sendWithM stamp e fun c e => (pure (f c e) : m (Except ε C))) = pure (i.sendWith stamp e f) := by
  unfold sendWith
  rcases i.refuses_or_leads e with h | ⟨target, hs, hn⟩
  · simp only [sendWithM_refused h, Id.run_pure]
  · simp only [sendWithM_taken hs hn, pure_bind, Id.run_pure]

end

section

variable {i : Interpreter C E} {e : E}

/-- An event that is refused is not sent. -/
theorem send_refused (h : i.Refuses e) (stamp : Stamp) : i.send stamp e = ⟨i, false, [.logged (i.refusal e)]⟩ := by
  unfold send sendAssign sendAssignM
  rw [sendWithM_refused h]
  rfl

/-- An event that leads on is sent with the context of the head. -/
theorem send_taken {target : String} (hs : i.started = true) (hn : i.machine.next i.state e = some target) (stamp : Stamp) :
    i.send stamp e = i.writeNext stamp target i.context (.event e) := by
  unfold send sendAssign sendAssignM
  rw [sendWithM_taken hs hn]
  rfl

end

/-! ## All or nothing -/

/-- Keeping a record does not change what sending comes to, nor what the function keeps for itself. -/
theorem run_sendWithM_eq {σ : Type} (i : Interpreter C E) (stamp : Stamp) (e : E) (assign : C → E → StateM σ (Except ε C))
    (own : σ) (calls : List (C × E)) :
    (i.sendWithM stamp e assign).run own =
      (((i.sendWithM stamp e (recorded assign)).run (own, calls)).1,
        ((i.sendWithM stamp e (recorded assign)).run (own, calls)).2.1) := by
  rcases i.refuses_or_leads e with h | ⟨target, hs, hn⟩
  · rw [sendWithM_refused h, sendWithM_refused h]
    rfl
  · rw [sendWithM_taken hs hn, sendWithM_taken hs hn]
    rfl

/-- With a record, a function that is called is recorded with the context of the head and the event, and nothing else is. -/
theorem sendWithM_recorded {σ : Type} {i : Interpreter C E} {stamp : Stamp} {e : E} {target : String}
    (hs : i.started = true) (hn : i.machine.next i.state e = some target) (assign : C → E → StateM σ (Except ε C)) (own : σ)
    (calls : List (C × E)) :
    (i.sendWithM stamp e (recorded assign)).run (own, calls) =
      (i.concluded stamp e target ((assign i.context e).run own).1, ((assign i.context e).run own).2,
        calls ++ [(i.context, e)]) := by
  rw [sendWithM_taken hs hn]
  rfl

/-- Sending an event is all or nothing, over any layers, whatever the function that derives the context keeps for itself.
1. If the interpreter is stopped or the event leads nowhere, the answer is `false`, the function is not called, and nothing is
   touched.
2. Else the function is called once, with the context of the head and the event. If it fails, so does the sending, with the
   state of the head, the key of the event and the very thing the function failed with, and nothing is touched. If it gives a
   context, the answer is `true`, and one node is written, with the state the event leads to, that context, the event, and the
   old head as its parent.
3. All this does not depend on the record, and sending with a function that keeps nothing is sending with a plain one.
4. To send with a function that cannot fail is to send with one that always gives its context, and to send with none is to send
   with one that gives the context of the head. -/
theorem sendWith_all_or_nothing {σ : Type} (i : Interpreter C E) (stamp : Stamp) (e : E)
    (assign : C → E → StateM σ (Except ε C)) (own : σ) :
    let sent := (i.sendWithM stamp e (recorded assign)).run (own, [])
    let made := (assign i.context e).run own
    (i.started = false ∨ i.transitionFor e = none →
      sent.1.answer = .ok false ∧ sent.2 = (own, []) ∧ Untouched i sent.1) ∧
    (∀ target, i.started = true → i.transitionFor e = some target →
      sent.2 = (made.2, [(i.context, e)]) ∧
      (∀ source, made.1 = .error source → sent.1.answer = .error ⟨i.state, key e, source⟩ ∧ Untouched i sent.1) ∧
      ∀ context, made.1 = .ok context → sent.1.answer = .ok true ∧
        Wrote i { state := target.state, context, trigger := .event e, timestamp := stamp.time,
                  parent := some i.history.head, id := some stamp.id } sent.1) ∧
    ((i.sendWithM stamp e assign).run own = (sent.1, sent.2.1) ∧
      ∀ f : C → E → Except ε C, (i.sendWithM stamp e fun c e => (pure (f c e) : StateM σ (Except ε C))) =
        pure (i.sendWith stamp e f)) ∧
    (∀ f : C → E → StateM σ C, (i.sendWithM stamp e fun c e => do return (.ok (← f c e) : Except ε C)) =
      (do return (← i.sendAssignM stamp e f).map id .ok)) ∧
    (∀ f : C → E → C, i.sendWith stamp e (fun c e => (.ok (f c e) : Except ε C)) = (i.sendAssign stamp e f).map id .ok) ∧
    i.sendWith stamp e (fun c _ => (.ok c : Except ε C)) = (i.send stamp e).map id .ok := by
  intro sent made
  refine ⟨?_, ?_, ⟨run_sendWithM_eq i stamp e assign own [], fun f => sendWithM_pure f⟩, fun f => sendWithM_ok f, fun f => ?_, ?_⟩
  · intro h
    have hrefuses : i.Refuses e := h.imp_right fun ht => by rw [next_eq, ht]; rfl
    have hsent : sent = (⟨i, .ok false, [.logged (i.refusal e)]⟩, own, []) := by
      simp only [sent, sendWithM_refused hrefuses]
      rfl
    rw [hsent]
    exact ⟨rfl, rfl, rfl, fun _ _ => rfl⟩
  · intro target hs ht
    have hn : i.machine.next i.state e = some target.state := by rw [next_eq, ht]; rfl
    have hsent : sent = (i.concluded stamp e target.state made.1, made.2, [(i.context, e)]) :=
      sendWithM_recorded hs hn assign own []
    rw [hsent]
    refine ⟨rfl, ?_, ?_⟩
    · intro source hfailed
      rw [hfailed]
      exact ⟨rfl, rfl, fun _ _ => rfl⟩
    · intro context hmade
      rw [hmade]
      have hanswer : (i.writeNext stamp target.state context (.event e)).answer = true := act_answer i _
      exact ⟨congrArg Except.ok hanswer, (wrote_writeNext i stamp target.state context (.event e)).map _⟩
  · exact sendWithM_ok (m := Id) fun c e => pure (f c e)
  · exact sendWithM_ok (m := Id) fun c _ => pure c

/-- A till that takes one coin, with a function that counts how often it is called: stopped, with room for the coin, and full. -/
theorem sendWith_all_or_nothing_till :
    let till : Machine Nat := ⟨Definition.withFallback { initial := "open", context := 0 } "COIN" (.bare "paid"), by decide⟩
    let take (coins : Nat) (_ : String) : StateM Nat (Except String Nat) := do
      modify (· + 1)
      return if coins = 0 then .ok 1 else .error "full"
    let sent (i : Interpreter Nat String) := (i.sendWithM (.ofNat 1) "COIN" (recorded take)).run (7, [])
    let empty : Interpreter Nat String := interpret till (.ofNat 0)
    let full := (sent empty).1.state
    (empty.stop.started = false ∧ (sent empty.stop).1.answer = .ok false ∧ (sent empty.stop).2 = (7, []) ∧
      Untouched empty.stop (sent empty.stop).1) ∧
    (empty.started = true ∧ empty.transitionFor "COIN" = some (.bare "paid") ∧ (sent empty).1.answer = .ok true ∧
      (sent empty).2 = (8, [(0, "COIN")]) ∧ full.history.past = [0] ∧ full.head.context = 1) ∧
    (full.started = true ∧ full.transitionFor "COIN" = some (.bare "paid") ∧
      (sent full).1.answer = .error ⟨"paid", "COIN", "full"⟩ ∧ (sent full).2 = (8, [(1, "COIN")]) ∧
      Untouched full (sent full).1) := by
  intro till take sent empty full
  have hstopped := (sendWith_all_or_nothing empty.stop (.ofNat 1) "COIN" take 7).1 (Or.inl rfl)
  have htaken := (sendWith_all_or_nothing empty (.ofNat 1) "COIN" take 7).2.1 (.bare "paid") rfl (by decide)
  have hfull : full.transitionFor "COIN" = some (.bare "paid") := by decide
  have hfailed := (sendWith_all_or_nothing full (.ofNat 1) "COIN" take 7).2.1 (.bare "paid") rfl hfull
  obtain ⟨hpaid, hwrote⟩ := htaken.2.2 1 rfl
  obtain ⟨herror, huntouched⟩ := hfailed.2.1 "full" rfl
  exact ⟨⟨rfl, hstopped⟩, ⟨rfl, by decide, hpaid, htaken.1, hwrote.past, by decide⟩,
    ⟨rfl, hfull, herror, hfailed.1, huntouched⟩⟩

end Interpreter

end Chronicle
