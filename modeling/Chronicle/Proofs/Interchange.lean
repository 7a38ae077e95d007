import Chronicle.Proofs.Calls
import Chronicle.Proofs.Keys

/-!
# Interchange: of an event only its key counts

`Interpreter.keyed` forgets of all events of a history what their keys do not say. Carrying out a decision and forgetting may be
done in either order (`carryOut_keyed`), and what sending an event comes to depends on its key (`sending_keyed`). So interpreters
that differ at most in the events of their nodes stay so under calls that send events with the same keys, with the same answers
and the same signals (`call_matches`, `run_matches`), whatever types the events are of.
-/

namespace Chronicle

variable {C E E' : Type} [EventKey E] [EventKey E']

/-! ## Histories without their events -/

/-- The trigger with the key of its event in the place of the event. -/
def Trigger.keyed : Trigger E → Trigger String
  | .none => .none
  | .override => .override
  | .event e => .event (key e)

@[simp] theorem Trigger.key_keyed (t : Trigger E) : key t.keyed = key t := by cases t <;> rfl

/-- The node with the key of its event in the place of the event. -/
def Node.keyed (n : Node C E) : Node C String := { n with trigger := n.trigger.keyed }

namespace Backend

/-- The history in its layers, with the keys of events in the place of the events. -/
def keyed (b : Backend C E) : Backend C String := wrap (b.history.mapNodes Node.keyed) b.layers

/-- What layers report of an operation does not depend on more of an event than its key. -/
theorem reports_keyed (layers : List Layer) (op : History.Operation C E) (answer : History.Answer) (head : String) :
    reports layers (op.mapNodes Node.keyed) answer head = reports layers op answer head := by
  cases op with
  | write n =>
    have hkey : key n.keyed.trigger = key n.trigger := n.trigger.key_keyed
    have hline : Layer.line (.write n.keyed) head = Layer.line (.write n) head := by
      simp only [Layer.line, hkey]
      rfl
    simp only [History.Operation.mapNodes, reports, Layer.report, hline]
    rfl
  | _ => rfl

/-- Performing an operation and forgetting the events may be done in either order. -/
theorem perform_keyed (b : Backend C E) (op : History.Operation C E) :
    (b.perform op).map keyed id = b.keyed.perform (op.mapNodes Node.keyed) := by
  have hhead : ∀ h : History C E, (h.mapNodes Node.keyed).headNode.state = h.headNode.state := by
    intro h
    rw [History.headNode_mapNodes]
    rfl
  rw [perform_eq, perform_eq]
  simp only [Turn.map, keyed, history_wrap, layers_wrap, History.perform_mapNodes, reports_keyed, hhead, id_eq]

end Backend

namespace Interpreter

variable {ε : Type}

/-- The interpreter with the keys of events in the place of the events of its history. -/
def keyed (i : Interpreter C E) : Interpreter C String := { i with backend := i.backend.keyed }

@[simp] theorem history_keyed (i : Interpreter C E) : i.keyed.history = i.history.mapNodes Node.keyed :=
  Backend.history_wrap _ _

@[simp] theorem state_keyed (i : Interpreter C E) : i.keyed.state = i.state := by
  simp only [state, head, history_keyed, History.headNode_mapNodes]
  rfl

@[simp] theorem context_keyed (i : Interpreter C E) : i.keyed.context = i.context := by
  simp only [context, head, history_keyed, History.headNode_mapNodes]
  rfl

@[simp] theorem size_keyed (i : Interpreter C E) : i.keyed.history.size = i.history.size := by
  rw [history_keyed, History.size_mapNodes]

/-- Interpreters that are set up over one machine, with one stamp and in the same layers, differ at most in their events. -/
theorem keyed_over (m : Machine C) (stamp : Stamp) (layers : List Layer) :
    (Interpreter.over m (Backend.wrap (.new (rootOf m stamp)) layers) : Interpreter C E).keyed =
      Interpreter.over m (Backend.wrap (.new (rootOf m stamp)) layers) := by
  simp only [keyed, Interpreter.over, Backend.keyed, Backend.history_wrap, Backend.layers_wrap]
  rfl

/-! ## Decisions -/

/-- The decision with the keys of events in the place of the events. -/
def Decision.keyed : Decision C E ε → Decision C String ε
  | .refuse answer lines => .refuse answer lines
  | .derive state context trigger => .derive state context trigger.keyed
  | .operate op => .operate (op.mapNodes Node.keyed)
  | .switch started => .switch started

/-- What sending an event comes to is told by its key. -/
theorem sending_keyed (i : Interpreter C E) (e : E) (made : Except ε C) :
    (i.sending e made).keyed = i.keyed.sending (key e) made := by
  have hnext : i.keyed.machine.next i.keyed.state (key e) = i.machine.next i.state e := by
    rw [state_keyed]
    rfl
  have hstarted : i.keyed.started = i.started := rfl
  unfold sending
  rw [hstarted, hnext, state_keyed]
  cases i.started with
  | false => rfl
  | true =>
    cases i.machine.next i.state e with
    | none => rfl
    | some target => cases made <;> rfl

/-- What forcing a state comes to has nothing to do with events. -/
theorem forcing_keyed (i : Interpreter C E) (state : String) (context : C) :
    (i.forcing state context : Decision C E ε).keyed = i.keyed.forcing state context := by
  have hstarted : i.keyed.started = i.started := rfl
  unfold forcing
  rw [hstarted]
  cases i.started <;> rfl

/-- Performing an operation and forgetting the events may be done in either order. -/
theorem perform_keyed (i : Interpreter C E) (op : History.Operation C E) :
    (i.perform op : Turn (Interpreter C E) (Answer ε)).map keyed id = i.keyed.perform (op.mapNodes Node.keyed) := by
  have hbackend : i.keyed.backend = i.backend.keyed := rfl
  rw [perform, perform, hbackend, ← Backend.perform_keyed]
  rfl

/-- Carrying out a decision and forgetting the events may be done in either order. -/
theorem carryOut_keyed (i : Interpreter C E) (stamp : Stamp) (d : Decision C E ε) :
    (i.carryOut stamp d).map keyed id = i.keyed.carryOut stamp d.keyed := by
  cases d with
  | refuse answer lines => rfl
  | derive state context trigger =>
    have hderived : i.keyed.derived stamp state context trigger.keyed = (i.derived stamp state context trigger).keyed := by
      simp only [derived, history_keyed]
      rfl
    show (i.perform (.write (i.derived stamp state context trigger))).map keyed id =
      i.keyed.perform (.write (i.keyed.derived stamp state context trigger.keyed))
    rw [perform_keyed, hderived]
    rfl
  | operate op => exact perform_keyed i op
  | switch started => rfl

/-! ## Calls and runs -/

/-- Two calls match if they differ at most in the event they send: the two events have one key, and what a function makes of
a context is the same for both. -/
inductive Call.Matches : Call C E ε → Call C E' ε → Prop where
  | send {e : E} {e' : E'} (h : key e = key e') : Matches (.send e) (.send e')
  | sendAssign {e : E} {e' : E'} {assign : C → E → C} {assign' : C → E' → C} (h : key e = key e')
      (hassign : ∀ c, assign c e = assign' c e') : Matches (.sendAssign e assign) (.sendAssign e' assign')
  | sendWith {e : E} {e' : E'} {assign : C → E → Except ε C} {assign' : C → E' → Except ε C} (h : key e = key e')
      (hassign : ∀ c, assign c e = assign' c e') : Matches (.sendWith e assign) (.sendWith e' assign')
  | setState (state : String) : Matches (.setState state) (.setState state)
  | setStateWithContext (state : String) (context : C) :
      Matches (.setStateWithContext state context) (.setStateWithContext state context)
  | undo : Matches .undo .undo
  | redo : Matches .redo .redo
  | undoToRoot : Matches .undoToRoot .undoToRoot
  | backward : Matches .backward .backward
  | pause : Matches .pause .pause
  | resume : Matches .resume .resume
  | clearPaused : Matches .clearPaused .clearPaused
  | start : Matches .start .start
  | stop : Matches .stop .stop

variable {i : Interpreter C E} {j : Interpreter C E'}

/-- Matching calls come to the same decision, but for the events. -/
theorem decision_matches (hij : i.keyed = j.keyed) {c : Call C E ε} {c' : Call C E' ε} (hc : c.Matches c') :
    (i.decision c).keyed = (j.decision c').keyed := by
  have hcontext : i.context = j.context := by rw [← context_keyed i, hij, context_keyed]
  cases hc with
  | send h => simp only [decision, sending_keyed, hij, h, hcontext]
  | sendAssign h hassign => simp only [decision, sending_keyed, hij, h, hcontext, hassign]
  | sendWith h hassign => simp only [decision, sending_keyed, hij, h, hcontext, hassign]
  | setState state => simp only [decision, forcing_keyed, hij, hcontext]
  | setStateWithContext state context => simp only [decision, forcing_keyed, hij]
  | _ => rfl

/-- Matching calls are answered alike, report the same, and leave interpreters that differ at most in their events. -/
theorem call_matches (hij : i.keyed = j.keyed) (stamp : Stamp) {c : Call C E ε} {c' : Call C E' ε} (hc : c.Matches c') :
    (i.call stamp c).map keyed id = (j.call stamp c').map keyed id := by
  rw [call_eq, call_eq, carryOut_keyed, carryOut_keyed, hij, decision_matches hij hc]

/-- Events with one key are sent alike. -/
theorem send_matches (hij : i.keyed = j.keyed) (stamp : Stamp) {e : E} {e' : E'} (h : key e = key e') :
    (i.send stamp e).map keyed id = (j.send stamp e').map keyed id := by
  have hcall := call_matches hij stamp (Call.Matches.send (ε := Empty) h)
  obtain ⟨hstate, hanswer, hsignals⟩ := Turn.mk.inj hcall
  have hflag : (i.send stamp e).answer = (j.send stamp e').answer := Answer.flag.inj hanswer
  simp only [call, Turn.map, id_eq] at hstate hsignals
  simp only [Turn.map, hstate, hflag, hsignals]

/-- Runs of matching calls are answered alike, report the same, and lead to interpreters that differ at most in their events. -/
theorem run_matches (hij : i.keyed = j.keyed) (clock : Nat → Stamp) {pairs : List (Call C E ε × Call C E' ε)}
    (hpairs : ∀ p ∈ pairs, p.1.Matches p.2) :
    (i.run clock (pairs.map Prod.fst)).map keyed (List.map Prod.snd) =
      (j.run clock (pairs.map Prod.snd)).map keyed (List.map Prod.snd) := by
  induction pairs generalizing i j with
  | nil => simp only [run, Turn.run, Turn.map, List.map_nil, hij]
  | cons p pairs ih =>
    obtain ⟨hp, hrest⟩ := List.forall_mem_cons.mp hpairs
    have hsize : i.history.size = j.history.size := by
      rw [← size_keyed i, hij, size_keyed]
    obtain ⟨hstate, hanswer, hsignals⟩ := Turn.mk.inj (call_matches hij (clock i.history.size) hp)
    obtain ⟨hlast, hanswers, hlater⟩ := Turn.mk.inj (ih hstate hrest)
    simp only [id_eq, hsize] at hlast hanswer hanswers hsignals hlater
    simp only [run] at hlast hanswers hlater ⊢
    simp only [Turn.run, Turn.map, List.map_cons, hsize, hlast, hanswer, hanswers, hsignals, hlater]

/-! ## What a key identifies -/

/-- The key of an event says which event it is, or which name it bears.
1. The key of a JSON event without a name reads back as the event with the names of all objects in order, which is the event
   itself if they are in order: provided that no double stands in it, its whole numbers fit 64 bits, and it nests no deeper than
   a text may.
2. Two such events, however deep they nest, have one key only if they are the same.
3. The key of an object whose type is neither a text nor `null` reads back as the type, under the conditions of 1.
4. A name is the key of every event that bears it: the text, the JSON text, every object of that type, and each of these
   borrowed or as an option.
5. For events with one key, of whatever types, among them all that bear one name, the same entry is found in every state of
   every machine. Sent from interpreters that differ at most in the events of their histories, they are answered alike and
   report the same, and the interpreters still differ at most in events.
6. Interpreters set up over one machine differ at most in events, and do so after every run of calls that match. The calls are
   answered alike and report the same. -/
theorem keys_identify_events :
    (∀ e : Json, e.Nameless → e.Printable → e.nesting ≤ maxNesting →
      Codec.ofText (key e) = .ok e.arranged ∧ e.arranged.Sorted ∧ (e.Sorted → e.arranged = e)) ∧
    (∀ e e' : Json, e.Nameless → e'.Nameless → e.Printable → e'.Printable → (key e = key e' ↔ e = e')) ∧
    (∀ members type, members.lookup "type" = some type → type ≠ .null → (∀ s, type ≠ .str s) →
      (Json.obj members).Printable → (Json.obj members).nesting ≤ maxNesting →
      Codec.ofText (key (Json.obj members)) = .ok type.arranged ∧ ((Json.obj members).Sorted → type.arranged = type)) ∧
    (∀ (name : String) (e : E), Bears name e → key e = name) ∧
    (∀ (e : E) (e' : E'), key e = key e' →
      (∀ (m : Machine C) (state : String), m.resolve state e = m.resolve state e') ∧
      ∀ (i : Interpreter C E) (j : Interpreter C E') (stamp : Stamp), i.keyed = j.keyed →
        i.transitionFor e = j.transitionFor e' ∧ (i.send stamp e).map keyed id = (j.send stamp e').map keyed id) ∧
    (∀ (m : Machine C) (clock : Nat → Stamp) (layers : List Layer),
      let here : Interpreter C E := Interpreter.over m (Backend.wrap (.new (rootOf m (clock 0))) layers)
      let there : Interpreter C E' := Interpreter.over m (Backend.wrap (.new (rootOf m (clock 0))) layers)
      here.keyed = there.keyed ∧
      ∀ pairs : List (Call C E ε × Call C E' ε), (∀ p ∈ pairs, p.1.Matches p.2) →
        (here.run clock (pairs.map Prod.fst)).map keyed (List.map Prod.snd) =
          (there.run clock (pairs.map Prod.snd)).map keyed (List.map Prod.snd)) := by
  refine ⟨fun e hname hprint hroom => ?_, fun e e' => Json.key_inj, fun members type htype hnull htext hprint hroom => ?_,
    fun name e => Bears.key_eq, fun e e' hkey => ⟨fun m state => ?_, fun i j stamp hij => ⟨?_, send_matches hij stamp hkey⟩⟩,
    fun m clock layers => ?_⟩
  · have hread := Codec.ofText_render hprint hroom
    rw [← Json.key_of_nameless hname] at hread
    exact ⟨hread, e.sorted_arranged, Json.arranged_of_sorted⟩
  · have hmember := KeyMap.mem_of_lookup htype
    have hinner := Nat.le_of_lt (Nat.lt_of_lt_of_le (Json.nesting_lt_obj hmember) hroom)
    have hread := Codec.ofText_render ((Json.printable_obj members).mp hprint _ hmember) hinner
    rw [← Json.key_of_type htype hnull htext] at hread
    refine ⟨hread, fun hsorted => Json.arranged_of_sorted ?_⟩
    exact ((Json.sorted_obj members).mp hsorted).2 _ hmember
  · simp only [Machine.resolve, Definition.resolve, hkey]
  · have hmachine : i.machine = j.machine := congrArg machine hij
    have hstate : i.state = j.state := by rw [← state_keyed i, hij, state_keyed]
    simp only [transitionFor, Machine.resolve, Definition.resolve, hmachine, hstate, hkey]
  · intro here there
    have hstart : here.keyed = there.keyed := (keyed_over m (clock 0) layers).trans (keyed_over m (clock 0) layers).symm
    exact ⟨hstart, fun pairs => run_matches hstart clock⟩

/-- A till that takes coins: a coin may be thrown in as a text or as an object, with the same effect. What is given back has no
name, and neither has the event with a number as its type. -/
theorem keys_identify_events_coin :
    let till : Machine Nat := ⟨Definition.withFallback { initial := "open", context := 0 } "COIN" (.bare "paid"), by decide⟩
    let coin : Json := .obj [("cents", .int 50), ("type", .str "COIN")]
    let change : Json := .obj [("rest", .arr [.int (-5), .str "\"x\""]), ("by", .null)]
    let numbered : Json := .obj [("of", .bool true), ("type", .int 7)]
    let thrown : Interpreter Nat (Option Json) := interpret till (.ofNat 0)
    let named : Interpreter Nat String := interpret till (.ofNat 0)
    let pairs : List (Call Nat (Option Json) Unit × Call Nat String Unit) :=
      [(.send (some coin), .send "COIN"), (.undo, .undo)]
    (change.Nameless ∧ change.Printable ∧ change.nesting ≤ maxNesting ∧
      Codec.ofText (key change) = .ok (Json.obj [("by", .null), ("rest", .arr [.int (-5), .str "\"x\""])])) ∧
    (numbered.Printable ∧ numbered.nesting ≤ maxNesting ∧ Codec.ofText (key numbered) = .ok (Json.int 7)) ∧
    (Bears "COIN" (some coin) ∧ key (some coin) = "COIN") ∧
    (thrown.keyed = named.keyed ∧ (thrown.send (.ofNat 1) (some coin)).answer = true) ∧
    (∀ p ∈ pairs, p.1.Matches p.2) ∧
      (thrown.run .ofNat (pairs.map Prod.fst)).answer.map Prod.snd = [.flag true, .flag true] := by
  intro till coin change numbered thrown named pairs
  obtain ⟨hnameless, -, htyped, hbears, hsend, hrun⟩ := @keys_identify_events Nat (Option Json) String _ _ Unit
  have hchange : change.Printable := ⟨by decide, by decide⟩
  have hnumbered : numbered.Printable := ⟨by decide, by decide⟩
  have hcoin : Bears "COIN" (some coin) := .option (.typed rfl)
  have hkey : key (some coin) = key "COIN" := hbears "COIN" (some coin) hcoin
  have hmatches : ∀ p ∈ pairs, p.1.Matches p.2 := by
    simp only [pairs, List.forall_mem_cons, List.not_mem_nil, false_implies, implies_true, and_true]
    exact ⟨.send hkey, .undo⟩
  obtain ⟨hstart, hruns⟩ := hrun till .ofNat []
  have hsent := congrArg Turn.answer ((hsend (some coin) "COIN" hkey).2 thrown named (.ofNat 1) hstart).2
  have hanswers := congrArg Turn.answer (hruns pairs hmatches)
  refine ⟨⟨Or.inl rfl, hchange, by decide, ?_⟩, ⟨hnumbered, by decide, ?_⟩, ⟨hcoin, hkey⟩, ⟨hstart, ?_⟩, hmatches, ?_⟩
  · exact (hnameless change (Or.inl rfl) hchange (by decide)).1
  · exact (htyped _ (.int 7) rfl nofun (fun _ => nofun) hnumbered (by decide)).1
  · exact hsent.trans (by decide)
  · exact hanswers.trans (by decide)

end Interpreter

end Chronicle
