import Chronicle.Proofs.Places

/-!
# Walks: lineage along any parents at all

The parent of a node is whatever was written with it: none, the node itself, a later one, or one that never comes to be. The
walk back along the parents is asked for node by node (`Visits`), and it comes to an end whatever the parents are, since it goes
on to an earlier place only (`visits_iff`). It leaves out no ancestor: the place that follows another is that of its parent, and
nothing follows just where there is no parent or no earlier one (`Visits.getElem?`).
-/

namespace Chronicle

namespace History

variable {C E : Type}

/-- Asking for node after node: from a place to go on from, if there is one, the places that are visited. A node is visited, and
then its parent is where to go on from, if that is an earlier place. -/
inductive Visits (h : History C E) : Option Nat → List Nat → Prop where
  | ended : Visits h none []
  | missing {k : Nat} : h.node? k = none → Visits h (some k) []
  | node {k : Nat} {n : Node C E} {later : List Nat} : h.node? k = some n → Visits h (n.parent.filter (· < k)) later →
    Visits h (some k) (k :: later)

/-! ## The places of a walk -/

/-- Asking for node after node comes to an end with the places of the walk. -/
theorem visits_walk (h : History C E) (k : Nat) : h.Visits (some k) (h.walk k) := by
  fun_induction h.walk k with
  | case1 k hn => exact Visits.missing hn
  | case2 k n hn hp =>
    refine Visits.node hn ?_
    rw [hp]
    exact Visits.ended
  | case3 k n hn p hp hlt ih =>
    refine Visits.node hn ?_
    rw [hp, Option.filter_some, if_pos (decide_eq_true hlt)]
    exact ih
  | case4 k n hn p hp hlt =>
    refine Visits.node hn ?_
    rw [hp, Option.filter_some, if_neg (by simpa using hlt)]
    exact Visits.ended

/-- From one place asking for node after node visits one list of places only. -/
theorem Visits.unique {h : History C E} {next : Option Nat} {places places' : List Nat} (hv : h.Visits next places)
    (hv' : h.Visits next places') : places = places' := by
  induction hv generalizing places' with
  | ended =>
    cases hv'
    rfl
  | missing hnone =>
    cases hv' with
    | missing => rfl
    | node hn _ =>
      rw [hnone] at hn
      cases hn
  | node hn _ ih =>
    cases hv' with
    | missing hnone =>
      rw [hnone] at hn
      cases hn
    | node hn' hlater =>
      rw [hn] at hn'
      cases hn'
      rw [ih hlater]

/-- Asking for node after node visits the places of the walk and no others. -/
theorem visits_iff (h : History C E) (k : Nat) (places : List Nat) : h.Visits (some k) places ↔ places = h.walk k := by
  constructor
  · intro hv
    exact hv.unique (visits_walk h k)
  · rintro rfl
    exact visits_walk h k

/-- What is visited begins with the place to go on from, if there is a node. -/
theorem Visits.head? {h : History C E} {next : Option Nat} {places : List Nat} (hv : h.Visits next places)
    (hnext : ∀ k, next = some k → k < h.size) : places.head? = next := by
  cases hv with
  | ended => rfl
  | missing hnone =>
    obtain ⟨n, hn⟩ := exists_node? (hnext _ rfl)
    rw [hnone] at hn
    cases hn
  | node hn hlater => rfl

/-- After a place that is visited comes its parent, if that is an earlier place, and else nothing: an earlier place than that of
a node has a node itself. -/
theorem Visits.getElem? {h : History C E} {next : Option Nat} {places : List Nat} (hv : h.Visits next places) {t i : Nat}
    (hi : places[t]? = some i) : ∃ n, h.node? i = some n ∧ places[t + 1]? = n.parent.filter (· < i) := by
  induction hv generalizing t with
  | ended => cases hi
  | missing _ => cases hi
  | node hn hlater ih =>
    rename_i k n later
    cases t with
    | zero =>
      cases hi
      refine ⟨n, hn, ?_⟩
      rw [List.getElem?_cons_succ, ← List.head?_eq_getElem?]
      refine hlater.head? fun p hp => ?_
      have hlt : p < i := by simpa using (Option.filter_eq_some_iff.mp hp).2
      exact Nat.lt_trans hlt (lt_size_of_node? hn)
    | succ t => exact ih hi

/-- No place of a walk comes after the one it begins with. -/
theorem le_of_mem_walk (h : History C E) (k : Nat) : ∀ i ∈ h.walk k, i ≤ k := by
  fun_induction h.walk k with
  | case1 k _ => exact List.forall_mem_nil _
  | case2 k n _ _ => exact List.forall_mem_singleton.mpr (Nat.le_refl k)
  | case3 k n _ p _ hlt ih =>
    refine List.forall_mem_cons.mpr ⟨Nat.le_refl k, fun i hi => ?_⟩
    exact Nat.le_trans (ih i hi) (Nat.le_of_lt hlt)
  | case4 k n _ p _ _ => exact List.forall_mem_singleton.mpr (Nat.le_refl k)

/-- The places of a walk descend strictly. -/
theorem walk_descends (h : History C E) (k : Nat) : (h.walk k).Pairwise (· > ·) := by
  fun_induction h.walk k with
  | case1 k _ => exact List.Pairwise.nil
  | case2 k n _ _ => exact List.pairwise_singleton _ k
  | case3 k n _ p _ hlt ih =>
    refine List.pairwise_cons.mpr ⟨fun i hi => ?_, ih⟩
    exact Nat.lt_of_le_of_lt (le_of_mem_walk h p i hi) hlt
  | case4 k n _ p _ _ => exact List.pairwise_singleton _ k

/-- A walk passes one place more at most than there are before the one it begins with. -/
theorem length_walk_le (h : History C E) (k : Nat) : (h.walk k).length ≤ k + 1 := by
  fun_induction h.walk k with
  | case1 k _ => exact Nat.zero_le _
  | case2 k n _ _ => exact Nat.succ_le_succ (Nat.zero_le k)
  | case3 k n _ p _ hlt ih =>
    rw [List.length_cons]
    omega
  | case4 k n _ p _ _ => exact Nat.succ_le_succ (Nat.zero_le k)

/-! ## Parents that were the head -/

/-- Writing a node derived from a place of the arena keeps the arena grounded. -/
theorem Grounded.write {h : History C E} (hg : h.Grounded) {n : Node C E} {p : Nat} (hn : n.parent = some p)
    (hp : p < h.size) : (h.write n).Grounded where
  first := hg.first
  earlier := by
    intro k n' hn'
    have hlt := lt_size_of_node? hn'
    rw [size_write] at hlt
    unfold node? at hn'
    rw [nodes_write] at hn'
    by_cases hold : k + 1 < h.size
    · rw [List.getElem?_append_left hold] at hn'
      exact hg.earlier k n' hn'
    · have hk : k + 1 = h.size := by omega
      rw [hk, size, List.getElem?_concat_length] at hn'
      cases hn'
      exact ⟨p, hn, by omega⟩

/-- An operation that writes no node leaves the arena grounded. -/
theorem Grounded.perform {h : History C E} (hg : h.Grounded) {op : Operation C E} (hop : op.added = []) :
    (h.perform op).1.Grounded := by
  have hnodes : (h.perform op).1.nodes = h.nodes := by rw [perform_nodes, hop, List.append_nil]
  refine ⟨?_, ?_⟩
  · have hfirst : (h.perform op).1.first = h.first := (List.cons.inj hnodes).1
    rw [hfirst]
    exact hg.first
  · intro k n hn
    unfold node? at hn
    rw [hnodes] at hn
    exact hg.earlier k n hn

/-- If every node was derived from what was the head when it was written, the arena is grounded. -/
theorem grounded_run {first : Node C E} (hfirst : first.parent = none) {ops : List (Operation C E)}
    (hparents : ∀ before n after, ops = before ++ .write n :: after → n.parent = some ((new first).run before).head) :
    ((new first).run ops).Grounded := by
  induction ops using List.reverseRecOn with
  | nil => exact ⟨hfirst, fun k n hn => by cases hn⟩
  | append_singleton ops op ih =>
    have hearlier : ((new first).run ops).Grounded := by
      refine ih fun before n after hops => hparents before n (after ++ [op]) ?_
      rw [hops, List.append_assoc, List.cons_append]
    have hlast : (new first).run (ops ++ [op]) = (((new first).run ops).perform op).1 := run_append (new first) ops [op]
    rw [hlast]
    by_cases hop : op.added = []
    · exact hearlier.perform hop
    · cases op with
      | write n => exact hearlier.write (hparents ops n [] rfl) ((wellPlaced_new first).run ops).head
      | _ => exact absurd rfl hop

/-- Lineage is total and exact, whatever the parents of the nodes are. For every history that operations lead to from a new one:
1. Asking for node after node, from the head on, comes to an end and visits the places of the walk; the lineage is the nodes at
   these places, and there is one more of them at most than there are places before the head.
2. The walk begins with the head; its places descend strictly and are all places of the arena.
3. After each of its places comes the parent of the node there, if that is an earlier place; if there is no parent, or none that
   is earlier, nothing comes, and only then.
4. If the first node has no parent, and every other node was derived from what was the head when it was written, the walk ends at
   the first node. -/
theorem lineage_total_and_exact (first : Node C E) (ops : List (Operation C E)) :
    let h := (new first).run ops
    let places := h.walk h.head
    ((∀ visited, h.Visits (some h.head) visited ↔ visited = places) ∧ h.lineage.map some = places.map h.node? ∧
      h.lineage.length ≤ h.head + 1) ∧
    (places.head? = some h.head ∧ places.Pairwise (· > ·) ∧ ∀ i ∈ places, i < h.size) ∧
    (∀ t i, places[t]? = some i → ∃ n, h.node? i = some n ∧ places[t + 1]? = n.parent.filter (· < i)) ∧
    (first.parent = none →
      (∀ before n after, ops = before ++ .write n :: after → n.parent = some ((new first).run before).head) →
      places.getLast? = some 0) := by
  intro h places
  have hplaced : h.WellPlaced := (wellPlaced_new first).run ops
  have hnodes : h.lineage.map some = places.map h.node? := (map_node?_walk h h.head).symm
  have hlength : h.lineage.length = places.length := by
    have hlengths := congrArg List.length hnodes
    rwa [List.length_map, List.length_map] at hlengths
  refine ⟨⟨visits_iff h h.head, hnodes, ?_⟩, ⟨walk_head? h hplaced.head, walk_descends h h.head, ?_⟩, ?_, ?_⟩
  · rw [hlength]
    exact length_walk_le h h.head
  · intro i hi
    obtain ⟨n, hn⟩ := Option.isSome_iff_exists.mp (node?_of_mem_walk h h.head i hi)
    exact lt_size_of_node? hn
  · exact fun t i hi => (visits_walk h h.head).getElem? hi
  · exact fun hfirst hparents => (grounded_run hfirst hparents).walk_getLast? hplaced.head

/-- Two branches from one root, each derived from what was the head: from the end of the second the walk ends at the root. -/
theorem lineage_total_and_exact_fork :
    let leaf (state : String) : Node Unit String := { Node.root state () .epoch with parent := some 0 }
    let fork := (new (Node.root "trunk" () .epoch)).run [.write (leaf "left"), .undo, .write (leaf "right")]
    fork.head = 2 ∧ (fork.walk fork.head).getLast? = some 0 := by
  intro leaf fork
  refine ⟨rfl, ?_⟩
  refine (lineage_total_and_exact (Node.root "trunk" () .epoch) _).2.2.2 rfl ?_
  intro before n after hops
  rcases before with _ | ⟨_, _ | ⟨_, _ | ⟨_, rest⟩⟩⟩
  · cases (List.cons.inj hops).1
    rfl
  · nomatch (List.cons.inj (List.cons.inj hops).2).1
  · cases (List.cons.inj (List.cons.inj (List.cons.inj hops).2).2).1
    cases (List.cons.inj hops).1
    cases (List.cons.inj (List.cons.inj hops).2).1
    rfl
  · simp at hops

end History

end Chronicle
