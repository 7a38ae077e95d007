import Mathlib.Data.List.Induction
import Chronicle.Proofs.Calls
import Chronicle.Proofs.Lineage

/-!
# The audit trail: every node is accounted for

A call that is carried out writes at most one node, over the head of the moment, and `Call.Derives` says which node that may be
(`call_cases`). Since the arena keeps what it holds, every node of a run can be traced to the call that wrote it, to the head
it was written over, and to what the machine said then (`Origin`), wherever the head was moved in between. `exists_origin` is
that; `run_grounded` and `run_allows` are what follows for the lineage of the head.
-/

namespace Chronicle

variable {C E ε : Type} [EventKey E]

/-- Whether a machine accounts for a node by its parent: the state was forced, or an event leads to it from the parent's state.
-/
def Machine.Allows (m : Machine C) (parent child : Node C E) : Prop :=
  child.trigger = .override ∨ ∃ e, child.trigger = .event e ∧ m.next parent.state e = some child.state

namespace Interpreter

/-- Where the node `n` at place `k` of the arena after `calls` comes from: `call` wrote it, after the calls `before` it, over
the head of that moment. -/
structure Origin (m : Machine C) (clock : Nat → Stamp) (start : Interpreter C E) (calls : List (Call C E ε)) (k : Nat)
    (n : Node C E) (before : List (Call C E ε)) (call : Call C E ε) (after : List (Call C E ε)) : Prop where
  split : calls = before ++ call :: after
  place : (start.run clock before).state.history.size = k
  written : ((start.run clock before).state.call (clock k) call).state.history =
    (start.run clock before).state.history.write n
  id : n.id = some (clock k).id
  parent : n.parent = some (start.run clock before).state.history.head
  earlier : (start.run clock before).state.history.head < k
  kept : (start.run clock calls).state.history.node? (start.run clock before).state.history.head =
    some (start.run clock before).state.head
  derives : call.Derives m (start.run clock before).state.head n

/-! ## One call -/

/-- What a call derives from a parent, the machine accounts for. -/
theorem Call.Derives.allows {m : Machine C} {parent child : Node C E} {c : Call C E ε} (h : c.Derives m parent child) :
    m.Allows parent child := by
  cases c with
  | send e => exact Or.inr ⟨e, h.1, h.2.1⟩
  | sendAssign e assign => exact Or.inr ⟨e, h.1, h.2.1⟩
  | sendWith e assign => exact Or.inr ⟨e, h.1, h.2.1⟩
  | setState state => exact Or.inl h.1
  | setStateWithContext state context => exact Or.inl h.1
  | _ => exact absurd h id

/-- A call leaves the arena as it is, or it writes one node, which gets the stamp of the call, has the head as its parent, and
is one that the call may derive. -/
theorem call_cases (i : Interpreter C E) (stamp : Stamp) (c : Call C E ε) :
    (i.call stamp c).state.history.nodes = i.history.nodes ∨
      ∃ n, (i.call stamp c).state.history = i.history.write n ∧ n.id = some stamp.id ∧ n.parent = some i.history.head ∧
        c.Derives i.machine i.head n := by
  rw [call_eq]
  rcases decision_cases i c with ⟨_, _, -, hd⟩ | ⟨state, context, trigger, -, hd, hderives⟩ | ⟨op, hadded, hd⟩ | ⟨_, -, hd⟩
  · left
    rw [hd]
    rfl
  · right
    refine ⟨i.derived stamp state context trigger, ?_, rfl, rfl, hderives stamp⟩
    rw [hd]
    exact perform_history i _
  · left
    have hnodes := History.perform_nodes i.history op
    rw [hadded, List.append_nil] at hnodes
    rw [hd]
    rw [carryOut, perform_history]
    exact hnodes
  · left
    rw [hd]
    rfl

/-- No call changes the machine. -/
theorem call_machine (i : Interpreter C E) (stamp : Stamp) (c : Call C E ε) : (i.call stamp c).state.machine = i.machine := by
  rw [call_eq]
  cases i.decision c <;> rfl

/-- After every call, head, stacks and checkpoint are places of the arena if they were before. -/
theorem call_wellPlaced {i : Interpreter C E} (hp : i.history.WellPlaced) (stamp : Stamp) (c : Call C E ε) :
    (i.call stamp c).state.history.WellPlaced :=
  call_invariant (fun _ op hp => hp.perform op) hp stamp c

/-- A node stays at its place. -/
theorem call_node? {i : Interpreter C E} {k : Nat} {n : Node C E} (hn : i.history.node? k = some n) (stamp : Stamp)
    (c : Call C E ε) : (i.call stamp c).state.history.node? k = some n :=
  call_invariant (P := fun h => h.node? k = some n) (fun _ op hn => History.perform_node? hn op) hn stamp c

/-! ## Runs -/

/-- A run does not change the machine. -/
theorem run_machine (clock : Nat → Stamp) (start : Interpreter C E) (calls : List (Call C E ε)) :
    (start.run clock calls).state.machine = start.machine :=
  Turn.run_invariant (P := fun i : Interpreter C E => i.machine = start.machine)
    (fun i c hi => (call_machine i _ c).trans hi) calls rfl

/-- After a run, head, stacks and checkpoint are places of the arena if they were before. -/
theorem run_wellPlaced (clock : Nat → Stamp) {start : Interpreter C E} (hp : start.history.WellPlaced)
    (calls : List (Call C E ε)) : (start.run clock calls).state.history.WellPlaced :=
  Turn.run_invariant (P := fun i : Interpreter C E => i.history.WellPlaced) (fun _ c hi => call_wellPlaced hi _ c) calls hp

/-- A run leaves every node at its place. -/
theorem run_node? (clock : Nat → Stamp) {start : Interpreter C E} {k : Nat} {n : Node C E}
    (hn : start.history.node? k = some n) (calls : List (Call C E ε)) :
    (start.run clock calls).state.history.node? k = some n :=
  Turn.run_invariant (P := fun i : Interpreter C E => i.history.node? k = some n) (fun _ c hi => call_node? hi _ c) calls hn

/-- A node comes from where it comes from, however many calls follow. -/
theorem Origin.snoc {m : Machine C} {clock : Nat → Stamp} {start : Interpreter C E} {calls : List (Call C E ε)} {k : Nat}
    {n : Node C E} {before : List (Call C E ε)} {call : Call C E ε} {after : List (Call C E ε)}
    (h : Origin m clock start calls k n before call after) (c : Call C E ε) :
    Origin m clock start (calls ++ [c]) k n before call (after ++ [c]) where
  split := by
    rw [h.split]
    simp
  place := h.place
  written := h.written
  id := h.id
  parent := h.parent
  earlier := h.earlier
  kept := by
    rw [run_snoc]
    exact call_node? h.kept _ c
  derives := h.derives

/-- Every node that a run added comes from a call of the run. A node that was there before the last call comes from an earlier
one; any other stands at the place that the arena grew to with the last call, which wrote it. -/
theorem exists_origin (clock : Nat → Stamp) {start : Interpreter C E} (hp : start.history.WellPlaced)
    (calls : List (Call C E ε)) {k : Nat} {n : Node C E} (hk : start.history.size ≤ k)
    (hn : (start.run clock calls).state.history.node? k = some n) :
    ∃ before call after, Origin start.machine clock start calls k n before call after := by
  induction calls using List.reverseRecOn with
  | nil =>
    have hlt : k < start.history.size := History.lt_size_of_node? hn
    omega
  | append_singleton calls c ih =>
    obtain ⟨i, hi⟩ : ∃ i, i = (start.run clock calls).state := ⟨_, rfl⟩
    have hplaced : i.history.WellPlaced := hi ▸ run_wellPlaced clock hp calls
    rw [run_snoc, ← hi] at hn
    by_cases hold : k < i.history.size
    · obtain ⟨n', hn'⟩ := History.exists_node? hold
      have hsame : n' = n := by
        have := call_node? hn' (clock i.history.size) c
        rw [hn] at this
        exact (Option.some.inj this).symm
      obtain ⟨before, call, after, horigin⟩ := ih (by rw [← hi, hn', hsame])
      exact ⟨before, call, after ++ [c], horigin.snoc c⟩
    · rcases call_cases i (clock i.history.size) c with hnodes | ⟨n', hwrite, hid, hparent, hderives⟩
      · have hlt := History.lt_size_of_node? hn
        rw [History.size, hnodes] at hlt
        exact absurd hlt hold
      · have hplace : i.history.size = k := by
          have hlt := History.lt_size_of_node? hn
          rw [hwrite, History.size_write] at hlt
          omega
        have hsame : n' = n := by
          rw [hwrite, ← hplace] at hn
          simpa [History.node?, History.nodes_write, History.size] using hn
        subst hsame
        rw [hplace] at hwrite hid
        refine ⟨calls, c, [], rfl, ?_, ?_, hid, ?_, ?_, ?_, ?_⟩
        · rw [← hi]
          exact hplace
        · rw [← hi]
          exact hwrite
        · rw [← hi]
          exact hparent
        · rw [← hi, ← hplace]
          exact hplaced.head
        · rw [run_snoc, ← hi]
          exact call_node? hplaced.node?_head _ c
        · rw [← hi]
          have hm : i.machine = start.machine := by
            rw [hi]
            exact run_machine clock start calls
          rw [← hm]
          exact hderives

/-! ## The whole trail -/

/-- The first node of a run of a machine is the initial state and context, caused by nothing and derived from nothing. -/
theorem run_root (m : Machine C) (clock : Nat → Stamp) (calls : List (Call C E ε)) :
    ((interpret m (clock 0)).run clock calls).state.history.node? 0 = some (rootOf m (clock 0)) :=
  run_node? clock (rfl : (interpret m (clock 0) : Interpreter C E).history.node? 0 = some (rootOf m (clock 0))) calls

/-- Every node that a run of a machine adds after the first comes from a call of the run. -/
theorem exists_origin_of_interpret (m : Machine C) (clock : Nat → Stamp) (calls : List (Call C E ε)) {k : Nat} {n : Node C E}
    (hk : 1 ≤ k) (hn : ((interpret m (clock 0)).run clock calls).state.history.node? k = some n) :
    ∃ before call after, Origin m clock (interpret m (clock 0)) calls k n before call after := by
  have hplaced : (interpret m (clock 0) : Interpreter C E).history.WellPlaced := History.wellPlaced_new _
  exact exists_origin clock hplaced calls hk hn

/-- In a run of a machine every node but the first has an earlier parent. -/
theorem run_grounded (m : Machine C) (clock : Nat → Stamp) (calls : List (Call C E ε)) :
    ((interpret m (clock 0)).run clock calls).state.history.Grounded where
  first := by
    have hfirst := Option.some.inj (run_root m clock calls)
    exact congrArg Node.parent hfirst
  earlier := by
    intro k n hn
    obtain ⟨before, call, after, horigin⟩ := exists_origin_of_interpret m clock calls (Nat.succ_pos k) hn
    exact ⟨_, horigin.parent, horigin.earlier⟩

/-- In a run of a machine, the machine accounts for every node by its parent. -/
theorem run_allows (m : Machine C) (clock : Nat → Stamp) (calls : List (Call C E ε)) {k p : Nat} {child parent : Node C E}
    (hchild : ((interpret m (clock 0)).run clock calls).state.history.node? k = some child) (hlink : child.parent = some p)
    (hparent : ((interpret m (clock 0)).run clock calls).state.history.node? p = some parent) : m.Allows parent child := by
  cases k with
  | zero =>
    rw [run_root] at hchild
    cases hchild
    cases hlink
  | succ k =>
    obtain ⟨before, call, after, horigin⟩ := exists_origin_of_interpret m clock calls (Nat.succ_pos k) hchild
    have hp := horigin.parent
    rw [hlink] at hp
    cases hp
    have hkept := horigin.kept
    rw [hparent] at hkept
    cases hkept
    exact horigin.derives.allows

/-- The audit trail of a machine is sound, after any calls in any order. In three parts:
1. The first node is the initial state and context, caused by nothing and derived from nothing.
2. Every other node was written by one call of the run, over the head of that moment, which is its parent and stands before it
   in the arena; it has an id, and its state, context and cause are the ones the call may derive from that head
   (`Call.Derives`).
3. The lineage of the head is all of the walk along the parents. It begins with the head and ends with the first node, and of
   any two neighbours the machine accounts for the one by the other: it was forced, or an event leads to it. -/
theorem audit_trail (m : Machine C) (clock : Nat → Stamp) (calls : List (Call C E ε)) :
    let start : Interpreter C E := interpret m (clock 0)
    let h := (start.run clock calls).state.history
    (∃ root, h.node? 0 = some root ∧ root.state = m.initial ∧ root.context = m.context ∧ root.trigger = .none ∧
      root.parent = none) ∧
    (∀ k n, 1 ≤ k → h.node? k = some n → ∃ before call after, Origin m clock start calls k n before call after) ∧
    (h.lineage.map some = (h.walk h.head).map h.node? ∧ (h.walk h.head).head? = some h.head ∧
      (h.walk h.head).getLast? = some 0 ∧ h.lineage.IsChain fun child parent => m.Allows parent child) := by
  intro start h
  have hnew : start.history.WellPlaced := History.wellPlaced_new _
  have hplaced : h.WellPlaced := run_wellPlaced clock hnew calls
  refine ⟨⟨rootOf m (clock 0), run_root m clock calls, rfl, rfl, rfl, rfl⟩, ?_, ?_, ?_, ?_, ?_⟩
  · intro k n hk hn
    exact exists_origin_of_interpret m clock calls hk hn
  · exact (History.map_node?_walk h h.head).symm
  · exact History.walk_head? h hplaced.head
  · exact (run_grounded m clock calls).walk_getLast? hplaced.head
  · exact History.walk_isChain h (fun _ _ _ _ hchild hlink _ hparent => run_allows m clock calls hchild hlink hparent) h.head

end Interpreter

end Chronicle
