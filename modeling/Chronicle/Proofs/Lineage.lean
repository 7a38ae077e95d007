import Mathlib.Data.List.Chain
import Chronicle.Proofs.Arena

/-!
# Lineage: walking back along the parents

`walk_cases` says how a walk begins: not at all where there is no node, with the place alone where the parent is no earlier
place, and else with the place and the walk of the parent. What holds of a whole walk follows by induction on the place, which
every step makes smaller. In an arena where every node but the first has an earlier parent (`Grounded`), each walk ends at the
first; in one where every node is derived from the one just before it (`Straight`), the walk from the end passes all of them.
-/

namespace Chronicle

namespace History

variable {C E : Type}

/-- The three ways a walk begins. -/
theorem walk_cases (h : History C E) (k : Nat) :
    (h.node? k = none ∧ h.walk k = []) ∨
      (∃ n, h.node? k = some n ∧ (∀ p, n.parent = some p → k ≤ p) ∧ h.walk k = [k]) ∨
      (∃ n p, h.node? k = some n ∧ n.parent = some p ∧ p < k ∧ h.walk k = k :: h.walk p) := by
  cases hn : h.node? k with
  | none => exact Or.inl ⟨rfl, by rw [walk, hn]⟩
  | some n =>
    right
    cases hp : n.parent with
    | none => exact Or.inl ⟨n, rfl, fun p hp' => (by rw [hp] at hp'; cases hp'), by rw [walk, hn]; simp [hp]⟩
    | some p =>
      by_cases hlt : p < k
      · exact Or.inr ⟨n, p, rfl, hp, hlt, by rw [walk, hn]; simp [hp, hlt]⟩
      · refine Or.inl ⟨n, rfl, fun p' hp' => ?_, by rw [walk, hn]; simp [hp, hlt]⟩
        rw [hp] at hp'
        cases hp'
        exact Nat.le_of_not_lt hlt

/-- A walk from a place with a node begins at that place. -/
theorem walk_head? (h : History C E) {k : Nat} (hk : k < h.size) : (h.walk k).head? = some k := by
  obtain ⟨n, hn⟩ := exists_node? hk
  rcases walk_cases h k with ⟨hnone, -⟩ | ⟨n, -, -, hwalk⟩ | ⟨n, p, -, -, -, hwalk⟩
  · rw [hn] at hnone
    cases hnone
  · rw [hwalk]
    rfl
  · rw [hwalk]
    rfl

/-- The walk from the first place passes no other. -/
theorem walk_zero (h : History C E) : h.walk 0 = [0] := by
  have hfirst : h.node? 0 = some h.first := rfl
  rcases walk_cases h 0 with ⟨hnone, -⟩ | ⟨n, -, -, hwalk⟩ | ⟨n, p, -, -, hlt, -⟩
  · rw [hfirst] at hnone
    cases hnone
  · exact hwalk
  · omega

/-- There is a node at every place of a walk. -/
theorem node?_of_mem_walk (h : History C E) (k : Nat) : ∀ i ∈ h.walk k, (h.node? i).isSome := by
  induction k using Nat.strong_induction_on with
  | _ k ih =>
    intro i hi
    rcases walk_cases h k with ⟨-, hwalk⟩ | ⟨n, hn, -, hwalk⟩ | ⟨n, p, hn, -, hlt, hwalk⟩
    · rw [hwalk] at hi
      cases hi
    · rw [hwalk, List.mem_singleton] at hi
      rw [hi, hn]
      rfl
    · rw [hwalk] at hi
      rcases List.mem_cons.mp hi with rfl | hi
      · rw [hn]
        rfl
      · exact ih p hlt i hi

/-- The nodes of a walk are the nodes at its places, none left out. -/
theorem map_node?_walk (h : History C E) (k : Nat) :
    (h.walk k).map h.node? = ((h.walk k).filterMap h.node?).map some := by
  have hall := node?_of_mem_walk h k
  generalize h.walk k = places at hall
  induction places with
  | nil => rfl
  | cons i places ih =>
    obtain ⟨n, hn⟩ := Option.isSome_iff_exists.mp (hall i List.mem_cons_self)
    rw [List.map_cons, List.filterMap_cons_some hn, List.map_cons, hn,
      ih fun j hj => hall j (List.mem_cons_of_mem _ hj)]

/-- What relates every node to its parent relates all neighbours of a walk, as the walk of the parent opens with the parent
itself, if there is such a node. -/
theorem walk_isChain (h : History C E) {R : Node C E → Node C E → Prop}
    (hR : ∀ k n p m, h.node? k = some n → n.parent = some p → p < k → h.node? p = some m → R n m) (k : Nat) :
    ((h.walk k).filterMap h.node?).IsChain R := by
  induction k using Nat.strong_induction_on with
  | _ k ih =>
    rcases walk_cases h k with ⟨-, hwalk⟩ | ⟨n, hn, -, hwalk⟩ | ⟨n, p, hn, hp, hlt, hwalk⟩
    · rw [hwalk]
      exact List.IsChain.nil
    · rw [hwalk, List.filterMap_cons_some hn]
      exact List.IsChain.singleton n
    · have hrest := ih p hlt
      rw [hwalk, List.filterMap_cons_some hn]
      cases hm : h.node? p with
      | none =>
        rcases walk_cases h p with ⟨-, hwalk'⟩ | ⟨m, hm', -⟩ | ⟨m, q, hm', -⟩
        · rw [hwalk']
          exact List.IsChain.singleton n
        · rw [hm] at hm'
          cases hm'
        · rw [hm] at hm'
          cases hm'
      | some m =>
        obtain ⟨rest, hopen⟩ : ∃ rest, (h.walk p).filterMap h.node? = m :: rest := by
          rcases walk_cases h p with ⟨hnone, -⟩ | ⟨m', hm', -, hwalk'⟩ | ⟨m', q, hm', -, -, hwalk'⟩
          · rw [hm] at hnone
            cases hnone
          · exact ⟨[], by rw [hwalk', List.filterMap_cons_some hm]; rfl⟩
          · exact ⟨_, by rw [hwalk', List.filterMap_cons_some hm]⟩
        rw [hopen] at hrest ⊢
        exact List.IsChain.cons_cons (hR k n p m hn hp hlt hm) hrest

/-! ## Arenas in which every node but the first has an earlier parent -/

/-- Every node but the first is derived from an earlier one, and the first from none. -/
structure Grounded (h : History C E) : Prop where
  first : h.first.parent = none
  earlier : ∀ k n, h.node? (k + 1) = some n → ∃ p, n.parent = some p ∧ p < k + 1

/-- In a grounded arena every walk ends at the first node. -/
theorem Grounded.walk_getLast? {h : History C E} (hg : h.Grounded) {k : Nat} (hk : k < h.size) :
    (h.walk k).getLast? = some 0 := by
  induction k using Nat.strong_induction_on with
  | _ k ih =>
    rcases walk_cases h k with ⟨hnone, -⟩ | ⟨n, hn, hstop, hwalk⟩ | ⟨n, p, hn, hp, hlt, hwalk⟩
    · obtain ⟨n, hn⟩ := exists_node? hk
      rw [hn] at hnone
      cases hnone
    · cases k with
      | zero => rw [hwalk]; rfl
      | succ k =>
        obtain ⟨p, hp, hlt⟩ := hg.earlier k n hn
        have := hstop p hp
        omega
    · rw [hwalk, List.getLast?_cons, ih p hlt (by omega)]
      rfl

/-! ## Arenas in which every node is derived from the one before it -/

/-- Every node but the first is derived from the one just before it, the first from none, and the head is the last. -/
structure Straight (h : History C E) : Prop where
  head : h.head + 1 = h.size
  first : h.first.parent = none
  links : ∀ k n, h.node? (k + 1) = some n → n.parent = some k

/-- A new history of a node that is derived from none is straight. -/
theorem straight_new {first : Node C E} (hfirst : first.parent = none) : (new first).Straight where
  head := rfl
  first := hfirst
  links := by
    intro k n hn
    cases hn

/-- Writing a node derived from the head keeps a history straight. -/
theorem Straight.write {h : History C E} (hs : h.Straight) {n : Node C E} (hn : n.parent = some h.head) :
    (h.write n).Straight where
  head := by
    rw [size_write]
    rfl
  first := hs.first
  links := by
    intro k n' hn'
    have hhead := hs.head
    have hlt := lt_size_of_node? hn'
    rw [size_write] at hlt
    unfold node? at hn'
    rw [nodes_write] at hn'
    by_cases hold : k + 1 < h.size
    · rw [List.getElem?_append_left hold] at hn'
      exact hs.links k n' hn'
    · have hk : k = h.head := by omega
      rw [List.getElem?_append_right (Nat.le_of_not_lt hold)] at hn'
      have hzero : k + 1 - h.nodes.length = 0 := by
        simp only [size] at hlt
        omega
      rw [hzero] at hn'
      cases hn'
      rw [hn, hk]

/-- The walk from a place of a straight history passes all places up to it. -/
theorem Straight.walk {h : History C E} (hs : h.Straight) {k : Nat} (hk : k < h.size) :
    h.walk k = (List.range (k + 1)).reverse := by
  induction k with
  | zero => exact walk_zero h
  | succ k ih =>
    obtain ⟨n, hn⟩ := exists_node? hk
    have hlink := hs.links k n hn
    rcases walk_cases h (k + 1) with ⟨hnone, -⟩ | ⟨n', hn', hstop, -⟩ | ⟨n', p, hn', hp, -, hwalk⟩
    · rw [hn] at hnone
      cases hnone
    · rw [hn] at hn'
      cases hn'
      have := hstop k hlink
      omega
    · rw [hn] at hn'
      cases hn'
      rw [hlink] at hp
      cases hp
      rw [hwalk, ih (by omega), List.range_succ (n := k + 1), List.reverse_append]
      rfl

/-- The lineage of a straight history is its whole arena, newest first. -/
theorem Straight.lineage {h : History C E} (hs : h.Straight) : h.lineage = h.nodes.reverse := by
  have hhead := hs.head
  have hnodes : (List.range h.size).map h.node? = h.nodes.map some := by
    apply List.ext_getElem
    · simp [size]
    · intro k hk _
      have hlt : k < h.nodes.length := by simpa [size] using hk
      simp [node?, hlt]
  have hsome : h.lineage.map some = h.nodes.reverse.map some := by
    rw [History.lineage, ← map_node?_walk, hs.walk (by omega), hhead, List.map_reverse, hnodes, List.map_reverse]
  exact List.map_injective_iff.mpr (fun _ _ => Option.some.inj) hsome

/-- The parents of a straight history are none and then the places in their order. -/
theorem Straight.parents {h : History C E} (hs : h.Straight) :
    h.nodes.map Node.parent = none :: (List.range h.written.length).map some := by
  have hwritten : h.written.map Node.parent = (List.range h.written.length).map some := by
    apply List.ext_getElem
    · simp
    · intro k hk _
      have hlt : k < h.written.length := by simpa using hk
      have hnode : h.node? (k + 1) = some h.written[k] := List.getElem?_eq_getElem hlt
      simpa using hs.links k _ hnode
  rw [nodes, List.map_cons, hs.first, hwritten]

end History

end Chronicle
