import Chronicle.Proofs.Audit

/-!
# Replay: a lineage can be run again

The lineage of the head, read from the oldest node on, is a script: an event is sent again, with the context its node carries,
and a forced state is forced again. Whether an event leads on depends on nothing but the state of the head, and in a lineage
that is the state of the parent. So a new interpreter that follows the script accepts every call (`call_repeating`), and what it
writes is one straight line of nodes that say the same (`run_repeating`): the branches that were left, and the jumps to a
checkpoint, play no part.
-/

namespace Chronicle

variable {C E ε : Type}

/-- What a node says, apart from when and from where it was written. -/
def Node.content (n : Node C E) : String × C × Trigger E := (n.state, n.context, n.trigger)

namespace Interpreter

/-- The call that repeats a node. Nothing repeats a node that nothing caused. -/
def Call.repeating? (n : Node C E) : Option (Call C E ε) :=
  match n.trigger with
  | .none => none
  | .override => some (.setStateWithContext n.state n.context)
  | .event e => some (.sendWith e fun _ _ => .ok n.context)

variable [EventKey E]

/-! ## One call -/

/-- A started interpreter whose machine accounts for a node by the head derives what the node says from the head. -/
theorem decision_repeating {i : Interpreter C E} (hs : i.started = true) {n : Node C E} (hn : i.machine.Allows i.head n) :
    ∃ c : Call C E ε, Call.repeating? n = some c ∧ i.decision c = .derive n.state n.context n.trigger := by
  rcases hn with hforced | ⟨e, hevent, hnext⟩
  · refine ⟨.setStateWithContext n.state n.context, ?_, ?_⟩
    · rw [Call.repeating?, hforced]
    · simp only [decision, forcing, hs, if_true, hforced]
  · have hleads : i.machine.next i.state e = some n.state := hnext
    refine ⟨.sendWith e fun _ _ => .ok n.context, ?_, ?_⟩
    · rw [Call.repeating?, hevent]
    · simp only [decision, sending, hs, if_true, hleads, hevent]

/-- Repeating a node on a started interpreter whose machine accounts for it by the head succeeds, and writes a node that is
derived from the head and says the same. -/
theorem call_repeating {i : Interpreter C E} (hs : i.started = true) {n : Node C E} (hn : i.machine.Allows i.head n)
    (stamp : Stamp) :
    ∃ c : Call C E ε, Call.repeating? n = some c ∧ (i.call stamp c).answer = .flag true ∧
      (i.call stamp c).state.history = i.history.write (i.derived stamp n.state n.context n.trigger) ∧
      (i.call stamp c).state.started = true := by
  obtain ⟨c, hc, hd⟩ := decision_repeating (ε := ε) hs hn
  refine ⟨c, hc, ?_, ?_, ?_⟩
  · rw [call_eq, hd]
    simp [carryOut, perform, Turn.map, History.perform, reply]
  · rw [call_eq, hd]
    exact perform_history i _
  · rw [call_eq, hd]
    exact hs

/-! ## The script of a line of nodes -/

/-- A started interpreter with a straight history that repeats nodes, each of which its machine accounts for by the one before,
accepts every call; it ends with a straight history that goes on with what the nodes say. Of the node before the first only its
state plays a part, which is the state of the head. -/
theorem run_repeating (clock : Nat → Stamp) {m : Machine C} (nodes : List (Node C E)) {i : Interpreter C E}
    (hm : i.machine = m) (hs : i.started = true) (hstraight : i.history.Straight) {parent : Node C E}
    (hparent : parent.state = i.state) (hchain : (parent :: nodes).IsChain m.Allows) :
    ∃ script : List (Call C E ε), script.map some = nodes.map Call.repeating? ∧
      (i.run clock script).answer = script.map (·, .flag true) ∧ (i.run clock script).state.history.Straight ∧
      (i.run clock script).state.history.nodes.map Node.content =
        i.history.nodes.map Node.content ++ nodes.map Node.content := by
  induction nodes generalizing i parent with
  | nil => exact ⟨[], rfl, rfl, hstraight, by simp [run, Turn.run]⟩
  | cons n nodes ih =>
    obtain ⟨hallows, hrest⟩ := List.isChain_cons_cons.mp hchain
    have hhead : i.machine.Allows i.head n := by
      rw [hm]
      refine hallows.imp id ?_
      rintro ⟨e, hevent, hnext⟩
      rw [hparent] at hnext
      exact ⟨e, hevent, hnext⟩
    obtain ⟨c, hc, hanswer, hwrite, hstarted⟩ := call_repeating (ε := ε) hs hhead (clock i.history.size)
    obtain ⟨j, hj⟩ : ∃ j, j = (i.call (clock i.history.size) c).state := ⟨_, rfl⟩
    rw [← hj] at hwrite hstarted
    have hmachine : j.machine = m := by
      rw [hj, call_machine, hm]
    have hline : j.history.Straight := by
      rw [hwrite]
      exact hstraight.write rfl
    have hstate : n.state = j.state := by
      simp only [Interpreter.state, head, hwrite, History.headNode_write, derived]
    obtain ⟨script, hscript, hanswers, hend, hcontent⟩ := ih hmachine hstarted hline hstate hrest
    have hrun : i.run clock (c :: script) =
        ⟨(j.run clock script).state, (c, .flag true) :: (j.run clock script).answer,
          (i.call (clock i.history.size) c).signals ++ (j.run clock script).signals⟩ := by
      rw [hj, ← hanswer]
      rfl
    refine ⟨c :: script, ?_, ?_, ?_, ?_⟩
    · rw [List.map_cons, List.map_cons, hc, hscript]
    · rw [hrun, List.map_cons, hanswers]
    · rw [hrun]
      exact hend
    · rw [hrun, hcontent, hwrite, History.nodes_write]
      simp [Node.content, derived]

/-- The lineage of a run of a machine, oldest first, begins with the node of the initial state and context, and the machine
accounts for every further node by the one before it. -/
theorem run_trail (m : Machine C) (clock : Nat → Stamp) (calls : List (Call C E ε)) :
    ∃ nodes, ((interpret m (clock 0)).run clock calls).state.history.lineage.reverse = rootOf m (clock 0) :: nodes ∧
      (rootOf m (clock 0) :: nodes).IsChain m.Allows := by
  obtain ⟨h, hh⟩ : ∃ h, h = ((interpret m (clock 0)).run clock calls).state.history := ⟨_, rfl⟩
  have hnew : (interpret m (clock 0) : Interpreter C E).history.WellPlaced := History.wellPlaced_new _
  have hplaced : h.WellPlaced := hh ▸ run_wellPlaced clock hnew calls
  have hlast : h.lineage.getLast? = some (rootOf m (clock 0)) := by
    have hplaces : (h.walk h.head).getLast? = some 0 := by
      rw [hh] at hplaced ⊢
      exact (run_grounded m clock calls).walk_getLast? hplaced.head
    have hroot : h.node? 0 = some (rootOf m (clock 0)) := hh ▸ run_root m clock calls
    have hnodes : (h.lineage.map some).getLast? = ((h.walk h.head).map h.node?).getLast? := by
      rw [History.map_node?_walk]
      rfl
    rw [List.getLast?_map, List.getLast?_map, hplaces, Option.map_some, hroot] at hnodes
    obtain ⟨n, hn, hsame⟩ := Option.map_eq_some_iff.mp hnodes
    rw [hn, hsame]
  have hchain : h.lineage.reverse.IsChain m.Allows := by
    rw [List.isChain_reverse]
    apply History.walk_isChain
    intro k child p parent hchild hlink _ hparent
    rw [hh] at hchild hparent
    exact run_allows m clock calls hchild hlink hparent
  rw [← hh]
  obtain ⟨nodes, hnodes⟩ : ∃ nodes, h.lineage.reverse = rootOf m (clock 0) :: nodes := by
    rw [← List.head?_reverse] at hlast
    cases htrail : h.lineage.reverse with
    | nil =>
      rw [htrail] at hlast
      cases hlast
    | cons n nodes =>
      rw [htrail] at hlast
      cases hlast
      exact ⟨nodes, rfl⟩
  rw [hnodes] at hchain
  exact ⟨nodes, hnodes, hchain⟩

/-- A lineage explains the head: it can be run again. After any calls on a machine, let the lineage of the head be read from the
oldest node on, and let a new interpreter of the machine repeat every node but the first.
1. Every such node can be repeated, and every call is answered `true`.
2. The lineage of the new interpreter carries the same states, contexts and triggers, node by node.
3. Its parents are none and then 0, 1, 2 and so on, and it is all that the new interpreter holds. -/
theorem lineage_replays {ε' : Type} (m : Machine C) (clock clock' : Nat → Stamp) (calls : List (Call C E ε)) :
    let trail := ((interpret m (clock 0)).run clock calls).state.history.lineage.reverse
    let script : List (Call C E ε') := trail.tail.filterMap Call.repeating?
    let again := ((interpret m (clock' 0)).run clock' script).state.history
    (script.map some = trail.tail.map Call.repeating? ∧
      ((interpret m (clock' 0)).run clock' script).answer = script.map (·, .flag true)) ∧
    again.lineage.reverse.map Node.content = trail.map Node.content ∧
    (again.lineage.reverse.map Node.parent = none :: (List.range script.length).map some ∧
      again.lineage.reverse = again.nodes) := by
  intro trail script again
  obtain ⟨nodes, htrail, hchain⟩ := run_trail m clock calls
  have hstraight : (interpret m (clock' 0) : Interpreter C E).history.Straight := History.straight_new rfl
  have hparent : (rootOf m (clock 0) : Node C E).state = (interpret m (clock' 0) : Interpreter C E).state := rfl
  obtain ⟨calls', hcalls, hanswer, hend, hcontent⟩ :=
    run_repeating (ε := ε') clock' nodes rfl rfl hstraight hparent hchain
  have htail : trail.tail = nodes := congrArg List.tail htrail
  have hscript : script = calls' := by
    have hkept : (nodes.map Call.repeating?).filterMap id = calls' := by
      rw [← hcalls]
      simp
    rw [List.filterMap_map] at hkept
    simpa [script, htail] using hkept
  have hagain : again = ((interpret m (clock' 0)).run clock' calls').state.history :=
    congrArg (fun s => ((interpret m (clock' 0)).run clock' s).state.history) hscript
  rw [← hagain] at hend hcontent
  have hlineage : again.lineage.reverse = again.nodes := by
    rw [hend.lineage, List.reverse_reverse]
  have hsame : again.nodes.map Node.content = trail.map Node.content := by
    have hfirst : (interpret m (clock' 0) : Interpreter C E).history.nodes.map Node.content =
      [(rootOf m (clock 0) : Node C E).content] := rfl
    rw [hcontent, hfirst]
    exact (congrArg (List.map Node.content) htrail).symm
  have hlength : again.written.length = script.length := by
    have hnodes := congrArg List.length hsame
    have hcount := congrArg List.length hcalls
    have hrest : trail.length = nodes.length + 1 := congrArg List.length htrail
    simp only [List.length_map, History.nodes, List.length_cons] at hnodes hcount
    rw [hscript]
    omega
  refine ⟨⟨?_, ?_⟩, ?_, ?_, hlineage⟩
  · rw [hscript, htail, hcalls]
  · rw [hscript, hanswer]
  · rw [hlineage, hsame]
  · rw [hlineage, hend.parents, hlength]

end Interpreter

end Chronicle
