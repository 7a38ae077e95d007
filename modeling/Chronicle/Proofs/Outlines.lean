import Mathlib.Data.List.Induction
import Chronicle.Proofs.Calls

/-!
# Outlines: what dispatch looks at

The outline of a definition is its initial state and the states that its entries lead to, under the names of the states and the
keys of the events: id, context, actions and the form of an entry are not in it. The outline of a history is its places and its
nodes without contexts and stamps. Contexts may be of any type, and two histories of different types have outlines of one.

A call is decided by the outlines of the machine and of the history, by whether the interpreter is started, and by whether the
function that derives a context fails (`decision_parallel`). So two interpreters with the same outlines that are given parallel
calls, whose functions fail together, answer alike and keep the same outlines (`call_parallel`, `run_parallel`).
-/

namespace Chronicle

variable {C C' E : Type}

/-! ## Definitions -/

/-- What of a definition bears on where events lead. -/
structure Definition.Outline where
  initial : String
  /-- The state every entry of every state leads to. -/
  states : KeyMap (KeyMap String)
  /-- The state every entry of the whole machine leads to. -/
  fallback : KeyMap String

namespace Definition

/-- The states that the entries of a table lead to. -/
def targets (table : KeyMap Target) : KeyMap String := table.map Target.state

/-- The outline of a definition. -/
def outline (d : Definition C) : Outline where
  initial := d.initial
  states := d.states.map fun entry => targets entry.transitions
  fallback := targets (d.fallback.getD ∅)

/-- The entries of a state lead where its table in the outline says, and nowhere if there is none. -/
theorem targets_own (d : Definition C) (state : String) :
    targets (d.own state) = (d.outline.states.get? state).getD ∅ := by
  simp only [own, outline, KeyMap.get?_map]
  cases d.states.get? state with
  | none => rfl
  | some entry => rfl

/-- The state a key leads to is read off the outline. -/
theorem map_lookup (d : Definition C) (state k : String) :
    (d.lookup state k).map Target.state =
      (((d.outline.states.get? state).getD ∅).get? k <|> d.outline.fallback.get? k) := by
  have hfallback : d.outline.fallback = targets (d.fallback.getD ∅) := rfl
  rw [← targets_own, hfallback]
  simp only [lookup, targets, KeyMap.get?_map]
  cases (d.own state).get? k with
  | none => rfl
  | some t => rfl

/-- The keys that lead on from a state are read off the outline. -/
theorem enabledEvents_eq (d : Definition C) (state : String) :
    d.enabledEvents state = (d.outline.fallback.union ((d.outline.states.get? state).getD ∅)).keys := by
  rw [← targets_own]
  simp only [enabledEvents, outline, targets, ← KeyMap.map_union, KeyMap.keys_map]

variable {d : Definition C} {d' : Definition C'}

/-- Definitions with the same outline lead from every state to the same states. -/
theorem next_congr [EventKey E] (h : d.outline = d'.outline) (state : String) (e : E) : d.next state e = d'.next state e := by
  simp only [next, resolve, map_lookup, h]

/-- Definitions with the same outline have the same keys that lead on from a state. -/
theorem enabledEvents_congr (h : d.outline = d'.outline) (state : String) : d.enabledEvents state = d'.enabledEvents state := by
  rw [enabledEvents_eq, enabledEvents_eq, h]

end Definition

/-! ## Histories -/

/-- The node without its context and its stamp. -/
def Node.outline (n : Node C E) : Node Unit E :=
  { state := n.state, context := (), trigger := n.trigger, timestamp := .epoch, parent := n.parent, id := none }

/-- The history without the contexts and stamps of its nodes. -/
def History.outline (h : History C E) : History Unit E := h.mapNodes Node.outline

/-- Histories with the same outline have the same head, and head nodes with the same state. -/
theorem History.head_congr {h : History C E} {h' : History C' E} (hh : h.outline = h'.outline) :
    h.head = h'.head ∧ h.headNode.state = h'.headNode.state := by
  have hhead : h.outline.head = h'.outline.head := congrArg History.head hh
  have hstate : h.headNode.outline.state = h'.headNode.outline.state := congrArg Node.state (headNode_mapNodes_congr hh)
  exact ⟨hhead, hstate⟩

namespace Interpreter

variable {ε ε' : Type}

/-! ## Calls -/

/-- Two calls are parallel if they differ at most in the contexts they give and the functions that derive them. -/
inductive Call.Parallel : Call C E ε → Call C' E ε' → Prop where
  | send (e : E) : Parallel (.send e) (.send e)
  | sendAssign (e : E) (assign : C → E → C) (assign' : C' → E → C') : Parallel (.sendAssign e assign) (.sendAssign e assign')
  | sendWith (e : E) (assign : C → E → Except ε C) (assign' : C' → E → Except ε' C') :
      Parallel (.sendWith e assign) (.sendWith e assign')
  | setState (state : String) : Parallel (.setState state) (.setState state)
  | setStateWithContext (state : String) (context : C) (context' : C') :
      Parallel (.setStateWithContext state context) (.setStateWithContext state context')
  | undo : Parallel .undo .undo
  | redo : Parallel .redo .redo
  | undoToRoot : Parallel .undoToRoot .undoToRoot
  | backward : Parallel .backward .backward
  | pause : Parallel .pause .pause
  | resume : Parallel .resume .resume
  | clearPaused : Parallel .clearPaused .clearPaused
  | start : Parallel .start .start
  | stop : Parallel .stop .stop

/-- The answer without what a function failed with. -/
def Answer.outline : Answer ε → Answer Unit
  | .flag b => .flag b
  | .failed e => .failed ⟨e.state, e.event, ()⟩
  | .done => .done

/-- Two decisions are parallel if they differ at most in the context of the node to write and in what a function failed with. -/
inductive Decision.Parallel : Decision C E ε → Decision C' E ε' → Prop where
  | refuse {answer : Answer ε} {answer' : Answer ε'} (h : answer.outline = answer'.outline) (lines : List LogLine) :
      Parallel (.refuse answer lines) (.refuse answer' lines)
  | derive (state : String) (context : C) (context' : C') (trigger : Trigger E) :
      Parallel (.derive state context trigger) (.derive state context' trigger)
  | operate {op : History.Operation C E} {op' : History.Operation C' E}
      (h : op.mapNodes Node.outline = op'.mapNodes Node.outline) : Parallel (.operate op) (.operate op')
  | switch (started : Bool) : Parallel (.switch started) (.switch started)

/-- Two interpreters have the same outline if their machines and their histories have and both are started, or both stopped. -/
structure SameOutline (i : Interpreter C E) (j : Interpreter C' E) : Prop where
  machine : i.machine.definition.outline = j.machine.definition.outline
  history : i.history.outline = j.history.outline
  started : i.started = j.started

variable [EventKey E]

/-- Where the first of two interpreters would call the function of a call, that function and the one of the other call both
give a context, or both fail. -/
def FailTogether (i : Interpreter C E) (j : Interpreter C' E) : Call C E ε → Call C' E ε' → Prop
  | .sendWith e assign, .sendWith e' assign' =>
    i.started = true → (i.machine.next i.state e).isSome = true →
      (assign i.context e).isOk = (assign' j.context e').isOk
  | _, _ => True

variable {i : Interpreter C E} {j : Interpreter C' E}

omit [EventKey E] in
theorem SameOutline.state (h : SameOutline i j) : i.state = j.state := (History.head_congr h.history).2

theorem SameOutline.next (h : SameOutline i j) (e : E) : i.machine.next i.state e = j.machine.next j.state e := by
  rw [h.state]
  exact Definition.next_congr h.machine j.state e

/-- Sending one event comes to parallel decisions if the functions, where they are called, fail together. -/
theorem sending_parallel (h : SameOutline i j) (e : E) {made : Except ε C} {made' : Except ε' C'}
    (hmade : i.started = true → (i.machine.next i.state e).isSome = true → made.isOk = made'.isOk) :
    (i.sending e made).Parallel (j.sending e made') := by
  unfold sending
  rw [← h.started, ← h.next, ← h.state]
  cases hs : i.started with
  | false => exact .refuse (by rfl) _
  | true =>
    cases hn : i.machine.next i.state e with
    | none => exact .refuse (by rfl) _
    | some target =>
      have hok : made.isOk = made'.isOk := hmade hs (by rw [hn]; rfl)
      cases made with
      | error source =>
        cases made' with
        | error source' => exact .refuse (by rfl) _
        | ok context' => cases hok
      | ok context =>
        cases made' with
        | error source' => cases hok
        | ok context' => exact .derive target context context' (.event e)

omit [EventKey E] in
/-- Forcing one state comes to parallel decisions. -/
theorem forcing_parallel (h : SameOutline i j) (state : String) (context : C) (context' : C') :
    (i.forcing state context : Decision C E ε).Parallel (j.forcing state context' : Decision C' E ε') := by
  unfold forcing
  rw [← h.started]
  cases i.started with
  | false => exact .refuse (by rfl) _
  | true => exact .derive state context context' .override

/-- Parallel calls whose functions fail together come to parallel decisions. -/
theorem decision_parallel (h : SameOutline i j) {c : Call C E ε} {c' : Call C' E ε'} (hc : c.Parallel c')
    (hfail : FailTogether i j c c') : (i.decision c).Parallel (j.decision c') := by
  cases hc with
  | send e => exact sending_parallel h e fun _ _ => rfl
  | sendAssign e assign assign' => exact sending_parallel h e fun _ _ => rfl
  | sendWith e assign assign' => exact sending_parallel h e hfail
  | setState state => exact forcing_parallel h state i.context j.context
  | setStateWithContext state context context' => exact forcing_parallel h state context context'
  | start => exact .switch true
  | stop => exact .switch false
  | _ => exact .operate rfl

/-- Operations on interpreters with the same outline that write nodes with the same outline are answered alike, and leave the
two with the same outline. -/
theorem perform_parallel (h : SameOutline i j) {op : History.Operation C E} {op' : History.Operation C' E}
    (hop : op.mapNodes Node.outline = op'.mapNodes Node.outline) :
    (i.perform op : Turn (Interpreter C E) (Answer ε)).answer.outline =
        (j.perform op' : Turn (Interpreter C' E) (Answer ε')).answer.outline ∧
      SameOutline (i.perform op : Turn (Interpreter C E) (Answer ε)).state
        (j.perform op' : Turn (Interpreter C' E) (Answer ε')).state := by
  obtain ⟨hhistory, hanswer⟩ := History.perform_mapNodes_congr h.history hop
  refine ⟨?_, h.machine, ?_, h.started⟩
  · simp only [perform, Turn.map, Backend.perform_answer]
    simp only [history] at hanswer
    rw [hanswer]
    cases (j.backend.history.perform op').2 <;> rfl
  · simp only [perform_history]
    exact hhistory

/-- Parallel decisions are answered alike and leave interpreters with the same outline, whatever the stamps. -/
theorem carryOut_parallel (h : SameOutline i j) (stamp stamp' : Stamp) {d : Decision C E ε} {d' : Decision C' E ε'}
    (hd : d.Parallel d') :
    (i.carryOut stamp d).answer.outline = (j.carryOut stamp' d').answer.outline ∧
      SameOutline (i.carryOut stamp d).state (j.carryOut stamp' d').state := by
  cases hd with
  | refuse hanswer lines => exact ⟨hanswer, h⟩
  | derive state context context' trigger =>
    have hhead := (History.head_congr h.history).1
    apply perform_parallel h
    simp [History.Operation.mapNodes, Node.outline, derived, hhead]
  | operate hop => exact perform_parallel h hop
  | switch started => exact ⟨rfl, h.machine, h.history, rfl⟩

/-- Parallel calls whose functions fail together are answered alike and leave interpreters with the same outline. -/
theorem call_parallel (h : SameOutline i j) (stamp stamp' : Stamp) {c : Call C E ε} {c' : Call C' E ε'} (hc : c.Parallel c')
    (hfail : FailTogether i j c c') :
    (i.call stamp c).answer.outline = (j.call stamp' c').answer.outline ∧
      SameOutline (i.call stamp c).state (j.call stamp' c').state := by
  rw [call_eq, call_eq]
  exact carryOut_parallel h stamp stamp' (decision_parallel h hc hfail)

/-! ## Runs -/

/-- Two interpreters with the same outline that are given parallel calls, the functions of which fail together, have answered
alike and have the same outline at every moment. -/
theorem run_parallel (h : SameOutline i j) (clock clock' : Nat → Stamp) {pairs : List (Call C E ε × Call C' E ε')}
    (hpairs : ∀ p ∈ pairs, p.1.Parallel p.2)
    (hfail : ∀ before p, before ++ [p] <+: pairs →
      FailTogether (i.run clock (before.map Prod.fst)).state (j.run clock' (before.map Prod.snd)).state p.1 p.2) :
    ∀ before, before <+: pairs →
      (i.run clock (before.map Prod.fst)).answer.map (fun entry => entry.2.outline) =
          (j.run clock' (before.map Prod.snd)).answer.map (fun entry => entry.2.outline) ∧
        SameOutline (i.run clock (before.map Prod.fst)).state (j.run clock' (before.map Prod.snd)).state := by
  intro before
  induction before using List.reverseRecOn with
  | nil => exact fun _ => ⟨rfl, h⟩
  | append_singleton before p ih =>
    intro hbefore
    obtain ⟨hanswers, hsame⟩ := ih ((List.prefix_append before [p]).trans hbefore)
    have hp : p.1.Parallel p.2 := hpairs p (hbefore.subset (by simp))
    obtain ⟨hanswer, hafter⟩ := call_parallel hsame (clock (i.run clock (before.map Prod.fst)).state.history.size)
      (clock' (j.run clock' (before.map Prod.snd)).state.history.size) hp (hfail before p hbefore)
    simp only [run] at hanswers hanswer hafter ⊢
    simp only [List.map_append, List.map_cons, List.map_nil, Turn.run_answer_snoc, Turn.run_state_snoc, hanswers, hanswer]
    exact ⟨trivial, hafter⟩

/-- Contexts, ids and actions never steer dispatch. Let two machines have the same outline, and let an interpreter over each,
in layers of its own, be given parallel calls, the functions of which fail together where the first interpreter calls its. Then
at every moment:
1. All calls were answered alike, also in what failed: up to what a function failed with.
2. The same keys lead on.
3. The histories have the same outline: nodes with the same states, triggers and parents, and the same head, stacks and
   checkpoint. Both interpreters are started, or both are stopped. -/
theorem contexts_never_steer {m : Machine C} {m' : Machine C'} (hm : m.definition.outline = m'.definition.outline)
    (clock clock' : Nat → Stamp) (layers layers' : List Layer) {pairs : List (Call C E ε × Call C' E ε')}
    (hpairs : ∀ p ∈ pairs, p.1.Parallel p.2) :
    let first (calls : List (Call C E ε × Call C' E ε')) :=
      (Interpreter.over m (Backend.wrap (.new (rootOf m (clock 0))) layers)).run clock (calls.map Prod.fst)
    let second (calls : List (Call C E ε × Call C' E ε')) :=
      (Interpreter.over m' (Backend.wrap (.new (rootOf m' (clock' 0))) layers')).run clock' (calls.map Prod.snd)
    (∀ before p, before ++ [p] <+: pairs → FailTogether (first before).state (second before).state p.1 p.2) →
    ∀ before, before <+: pairs →
      (first before).answer.map (fun entry => entry.2.outline) = (second before).answer.map (fun entry => entry.2.outline) ∧
      (first before).state.enabledEvents = (second before).state.enabledEvents ∧
      (first before).state.history.outline = (second before).state.history.outline ∧
      (first before).state.started = (second before).state.started := by
  intro first second hfail before hbefore
  have hstart : SameOutline (Interpreter.over m (Backend.wrap (.new (rootOf m (clock 0))) layers) : Interpreter C E)
      (Interpreter.over m' (Backend.wrap (.new (rootOf m' (clock' 0))) layers')) := by
    refine ⟨hm, ?_, rfl⟩
    have hinitial : m.initial = m'.initial := congrArg Definition.Outline.initial hm
    simp [history, Interpreter.over, History.outline, History.mapNodes, History.new, rootOf, Node.root, Node.withId,
      Node.outline, hinitial]
  obtain ⟨hanswers, hsame⟩ := run_parallel hstart clock clock' hpairs hfail before hbefore
  refine ⟨hanswers, ?_, hsame.history, hsame.started⟩
  rw [enabledEvents, enabledEvents, hsame.state]
  exact Definition.enabledEvents_congr hsame.machine _

/-- A kitchen that counts and one that keeps a text, has an id and names an action: the second does what the first does. -/
theorem contexts_never_steer_kitchen :
    let counting : Machine Nat :=
      ⟨Definition.withState { initial := "idle", context := 0 } "idle" (StateEntry.on {} "START" (.bare "cooking")), by decide⟩
    let telling : Machine String :=
      ⟨Definition.withState { id := some "kitchen", initial := "idle", context := "cold" } "idle"
        (StateEntry.on {} "START" (.withActions "cooking" ["light"])), by decide⟩
    let pairs : List (Call Nat String String × Call String String Unit) :=
      [(.sendWith "START" fun n _ => .ok (n + 1), .sendWith "START" fun text e => .ok (text ++ e)), (.undo, .undo),
        (.sendWith "START" fun _ _ => .error "no gas", .sendWith "START" fun _ _ => .error ())]
    let later (n : Nat) : Stamp := .ofNat (n + 7)
    (counting.definition.outline = telling.definition.outline ∧ ∀ p ∈ pairs, p.1.Parallel p.2) ∧
      ((interpret telling (later 0)).run later (pairs.map Prod.snd)).answer.map (fun entry => entry.2.outline) =
        [.flag true, .flag true, .failed ⟨"idle", "START", ()⟩] := by
  intro counting telling pairs later
  have houtline : counting.definition.outline = telling.definition.outline := rfl
  have hpairs : ∀ p ∈ pairs, p.1.Parallel p.2 := by
    simp only [pairs, List.forall_mem_cons, List.not_mem_nil, false_implies, implies_true, and_true]
    exact ⟨.sendWith _ _ _, .undo, .sendWith _ _ _⟩
  have htogether : ∀ p ∈ pairs, ∀ i j, FailTogether i j p.1 p.2 := by
    simp only [pairs, List.forall_mem_cons, List.not_mem_nil, false_implies, implies_true, and_true]
    exact ⟨fun _ _ _ _ => rfl, fun _ _ => trivial, fun _ _ _ _ => rfl⟩
  refine ⟨⟨houtline, hpairs⟩, ?_⟩
  have h := contexts_never_steer houtline .ofNat later [] [] hpairs
    (fun before p hbefore => htogether p (hbefore.subset (by simp)) _ _) pairs (List.prefix_refl pairs)
  exact h.1.symm.trans (by decide)

end Interpreter

end Chronicle
