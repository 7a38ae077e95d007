import Chronicle.Proofs.Sending
import Chronicle.Proofs.Tables
import Chronicle.Proofs.Validity

/-!
# Affordances: what is offered is what is taken

The keys that lead on from a state are joined from two tables, an event is looked up in the one and then in the other, the
branches add the key of forcing a state, and going forward looks the event up once more. `mem_enabledEvents_iff` is where they
meet: a key is among those that lead on just if an entry is found for it, in any definition and any state, known or not. No
machine has an entry for the key of forcing a state, so the branch of that key is never that of an event.
-/

namespace Chronicle

namespace Definition

variable {C : Type}

/-- A key leads on from a state just if an entry is found for it there. -/
theorem mem_enabledEvents_iff (d : Definition C) (state k : String) :
    k ∈ d.enabledEvents state ↔ (d.lookup state k).isSome = true := by
  rw [enabledEvents, KeyMap.mem_keys_union, KeyMap.mem_keys_iff, KeyMap.mem_keys_iff, lookup, Option.orElse_eq_orElse,
    Option.orElse_eq_or, Option.isSome_or, Bool.or_eq_true]
  exact Or.comm

end Definition

namespace Interpreter

variable {C E : Type}

/-! ## Offering -/

/-- A key leads on from here just if an event with that key would take an entry. -/
theorem mem_enabledEvents_iff {E' : Type} [EventKey E'] (i : Interpreter C E) (e : E') :
    key e ∈ i.enabledEvents ↔ (i.transitionFor e).isSome = true :=
  Definition.mem_enabledEvents_iff i.machine.definition i.state (key e)

/-- The key of forcing a state leads on from nowhere. -/
theorem overrideKey_not_mem_enabledEvents (i : Interpreter C E) : overrideKey ∉ i.enabledEvents := by
  have hnone : i.transitionFor overrideKey = none := i.machine.resolve_reserved i.state (e := overrideKey) (Or.inl rfl)
  intro hmem
  have hsome := (i.mem_enabledEvents_iff overrideKey).mp hmem
  rw [hnone] at hsome
  cases hsome

/-- The branches are those of the keys that lead on, and the one of forcing a state. -/
theorem mem_branches_iff (i : Interpreter C E) (k : String) : k ∈ i.branches ↔ k ∈ i.enabledEvents ∨ k = overrideKey := by
  rw [branches, KeyMap.mem_keys_insert, KeyMap.mem_keys_ofList, List.map_map]
  simp [Function.comp_def, or_comm]

/-- One can go forward along the branches, and along no others. -/
theorem canForward_iff {E' : Type} [EventKey E'] (i : Interpreter C E) (e : E') :
    i.canForward e = true ↔ key e ∈ i.branches := by
  rw [mem_branches_iff, mem_enabledEvents_iff, canForward, Bool.or_eq_true, decide_eq_true_eq]
  exact Or.comm

/-- The leaves of a branch: one can go forward and pause on every branch, and go backward if one is not at the root. -/
theorem get?_leaves (i : Interpreter C E) (k : String) :
    i.overview.leaves.get? k = if k ∈ i.branches then some ⟨true, true, !i.isAtRoot⟩ else none := by
  refine (KeyMap.get?_ofList_map i.branches _ k).trans ?_
  split
  · rename_i hk
    have hforward : i.canForward k = true := (i.canForward_iff k).mpr hk
    have hback : i.canBackward = !i.isAtRoot := by simp [canBackward, isAtRoot]
    rw [hforward, hback]
  · rfl

/-- Just the branches have leaves. -/
theorem get?_leaves_iff (i : Interpreter C E) (k : String) (leaves : Leaves) :
    i.overview.leaves.get? k = some leaves ↔ k ∈ i.branches ∧ leaves = ⟨true, true, !i.isAtRoot⟩ := by
  rw [get?_leaves]
  split
  · simp_all [eq_comm]
  · simp_all

/-- The branches are the names under which leaves are told. -/
theorem keys_leaves (i : Interpreter C E) : i.overview.leaves.keys = i.branches := by
  refine KeyMap.keys_eq (KeyMap.ascending _) fun k => ?_
  rw [KeyMap.mem_keys_iff, get?_leaves]
  split <;> simp_all

/-- An event belongs to a branch other than that of forcing a state just if an entry is found for it. -/
theorem listed_iff {E' : Type} [EventKey E'] (i : Interpreter C E) (e : E') :
    key e ∈ i.branches ∧ key e ≠ overrideKey ↔ (i.transitionFor e).isSome = true := by
  rw [mem_branches_iff, ← mem_enabledEvents_iff]
  constructor
  · rintro ⟨hmem, hne⟩
    exact hmem.resolve_right hne
  · intro hmem
    refine ⟨Or.inl hmem, fun hkey => ?_⟩
    rw [hkey] at hmem
    exact i.overrideKey_not_mem_enabledEvents hmem

/-! ## Taking -/

variable [EventKey E]

/-- Going forward is answered by whether the interpreter is started and an entry is found for the event. -/
theorem forward_answer_iff (i : Interpreter C E) (stamp : Stamp) (e : E) :
    (i.forward stamp e).answer = true ↔ i.started = true ∧ (i.transitionFor e).isSome = true := by
  unfold forward
  rcases i.refuses_or_leads e with h | ⟨state, hs, hn⟩
  · rw [send_refused h]
    refine iff_of_false nofun ?_
    rintro ⟨hs, hsome⟩
    have hn : i.machine.next i.state e = none := h.resolve_left (by rw [hs]; exact nofun)
    rw [next_eq, Option.map_eq_none_iff] at hn
    rw [hn] at hsome
    cases hsome
  · rw [send_taken hs hn]
    rw [next_eq] at hn
    obtain ⟨target, ht, -⟩ := Option.map_eq_some_iff.mp hn
    exact iff_of_true (act_answer i _) ⟨hs, Option.isSome_iff_exists.mpr ⟨target, ht⟩⟩

/-- After going forward the head is in the state that the entry leads to. -/
theorem forward_state {i : Interpreter C E} {e : E} {target : Target} (hs : i.started = true)
    (ht : i.transitionFor e = some target) (stamp : Stamp) : (i.forward stamp e).state.state = target.state := by
  have hn : i.machine.next i.state e = some target.state := by rw [next_eq, ht]; rfl
  rw [forward, send_taken hs hn]
  exact (wrote_writeNext i stamp target.state i.context (.event e)).state

/-- Forcing a state is answered by whether the interpreter is started. -/
theorem forwardOverride_answer (i : Interpreter C E) (stamp : Stamp) (state : String) (context : Option C) :
    (i.forwardOverride stamp state context).answer = i.started := by
  have hforce : ∀ context, (i.setStateWithContext stamp state context).answer = i.started := by
    intro context
    unfold setStateWithContext
    cases i.started with
    | false => rfl
    | true => exact act_answer i _
  cases context with
  | none => exact hforce i.context
  | some context => exact hforce context

/-! ## Offering and taking -/

/-- What is offered is what is taken, for every machine, in every state of an interpreter, whatever the events.
1. A key leads on just if an entry is found for the events with that key.
2. The branches ascend strictly. They are the keys that lead on and the key of forcing a state, which never leads on.
3. Just the branches have leaves: one can go forward and pause on every branch, and go backward if one is not at the root.
4. One can go forward along the branches, and along no others.
5. Going forward is answered `true` just if the interpreter is started and the event belongs to a branch other than that of
   forcing a state. It is then that an entry was found for the event, and the head is in the state this entry leads to.
6. Forcing a state is answered `true` just if the interpreter is started. -/
theorem offered_iff_taken (i : Interpreter C E) (stamp : Stamp) :
    (∀ {E' : Type} [EventKey E'] (e : E'), key e ∈ i.enabledEvents ↔ (i.transitionFor e).isSome = true) ∧
    (i.overview.branches.Pairwise (· < ·) ∧ overrideKey ∉ i.enabledEvents ∧
      ∀ k, k ∈ i.overview.branches ↔ k ∈ i.enabledEvents ∨ k = overrideKey) ∧
    (i.overview.leaves.keys = i.overview.branches ∧ ∀ k leaves,
      i.overview.leaves.get? k = some leaves ↔ k ∈ i.overview.branches ∧ leaves = ⟨true, true, !i.overview.atRoot⟩) ∧
    (∀ {E' : Type} [EventKey E'] (e : E'), i.canForward e = true ↔ key e ∈ i.overview.branches) ∧
    (∀ e : E,
      ((i.forward stamp e).answer = true ↔
        i.started = true ∧ key e ∈ i.overview.branches ∧ key e ≠ overrideKey) ∧
      ((i.forward stamp e).answer = true ↔
        i.started = true ∧ ∃ target, i.transitionFor e = some target ∧ (i.forward stamp e).state.state = target.state)) ∧
    ∀ state context, (i.forwardOverride stamp state context).answer = i.started := by
  refine ⟨i.mem_enabledEvents_iff, ⟨KeyMap.ascending _, i.overrideKey_not_mem_enabledEvents, i.mem_branches_iff⟩,
    ⟨i.keys_leaves, i.get?_leaves_iff⟩, i.canForward_iff, fun e => ⟨?_, ?_⟩, i.forwardOverride_answer stamp⟩
  · exact (i.forward_answer_iff stamp e).trans (and_congr_right fun _ => (i.listed_iff e).symm)
  · rw [forward_answer_iff]
    constructor
    · rintro ⟨hs, hsome⟩
      obtain ⟨target, ht⟩ := Option.isSome_iff_exists.mp hsome
      exact ⟨hs, target, ht, forward_state hs ht stamp⟩
    · rintro ⟨hs, target, ht, -⟩
      exact ⟨hs, Option.isSome_iff_exists.mpr ⟨target, ht⟩⟩

end Interpreter

end Chronicle
