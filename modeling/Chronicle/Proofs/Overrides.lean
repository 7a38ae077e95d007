import Chronicle.Proofs.Audit
import Chronicle.Proofs.Validity

/-!
# Overrides: a forced state can be told from an event

A state that was forced by hand stands in the arena under the key `overrideKey`. No machine has an entry for that key or for the
empty one, so an event that claims it is refused (`call_reserved`). By the audit trail every node but the first was derived by
one call, and which call that was can be read off its trigger (`Call.Derives.kind`): the key tells what was forced, and what was
not forced stands in a state that some table, or the definition, names and that is not blank.
-/

namespace Chronicle

namespace Interpreter

variable {C E ε : Type}

/-- The event that a call sends. -/
def Call.event? : Call C E ε → Option E
  | .send e | .sendAssign e _ | .sendWith e _ => some e
  | _ => none

/-- Whether a call forces a state. -/
def Call.forces : Call C E ε → Bool
  | .setState _ | .setStateWithContext _ _ => true
  | _ => false

variable [EventKey E]

/-! ## Reserved keys -/

/-- An event with a reserved key is refused, whatever its function makes of the context. -/
theorem sending_reserved (i : Interpreter C E) {e : E} (he : Reserved (key e)) (made : Except ε C) :
    ∃ lines, i.sending e made = .refuse (.flag false) lines := by
  unfold sending
  cases i.started with
  | false => exact ⟨_, rfl⟩
  | true =>
    cases hnext : i.machine.next i.state e with
    | none => exact ⟨_, rfl⟩
    | some target => exact absurd he (Machine.next_sound hnext).1

/-- A call that sends an event with a reserved key is answered `false` and does nothing. -/
theorem call_reserved (i : Interpreter C E) (stamp : Stamp) {c : Call C E ε} {e : E} (hc : c.event? = some e)
    (he : Reserved (key e)) : (i.call stamp c).answer = .flag false ∧ (i.call stamp c).state = i := by
  have hrefused : ∃ lines, i.decision c = .refuse (.flag false) lines := by
    cases c with
    | send e' =>
      cases hc
      exact sending_reserved i he _
    | sendAssign e' assign =>
      cases hc
      exact sending_reserved i he _
    | sendWith e' assign =>
      cases hc
      exact sending_reserved i he _
    | _ => cases hc
  obtain ⟨lines, hd⟩ := hrefused
  rw [call_eq, hd]
  exact ⟨rfl, rfl⟩

/-! ## What the trigger of a node tells -/

/-- What a call derives was forced by it, or the event that the call sends leads to it. -/
theorem Call.Derives.kind {m : Machine C} {parent child : Node C E} {c : Call C E ε} (h : c.Derives m parent child) :
    (c.forces = true ∧ c.event? = none ∧ child.trigger = .override) ∨
      ∃ e, c.forces = false ∧ c.event? = some e ∧ child.trigger = .event e ∧ m.next parent.state e = some child.state := by
  cases c with
  | send e => exact Or.inr ⟨e, rfl, rfl, h.1, h.2.1⟩
  | sendAssign e assign => exact Or.inr ⟨e, rfl, rfl, h.1, h.2.1⟩
  | sendWith e assign => exact Or.inr ⟨e, rfl, rfl, h.1, h.2.1⟩
  | setState state => exact Or.inl ⟨rfl, rfl, h.1⟩
  | setStateWithContext state context => exact Or.inl ⟨rfl, rfl, h.1⟩
  | _ => exact absurd h id

/-- Every node of a run of a machine is the first, or a call wrote it that forced it, or an event led to it that has no reserved
key. -/
theorem node_cases (m : Machine C) (clock : Nat → Stamp) (calls : List (Call C E ε)) {k : Nat} {n : Node C E}
    (hn : ((interpret m (clock 0)).run clock calls).state.history.node? k = some n) :
    n = rootOf m (clock 0) ∨
      (∃ before call after, Origin m clock (interpret m (clock 0)) calls k n before call after ∧ call.forces = true ∧
        n.trigger = .override) ∨
      ∃ e, n.trigger = .event e ∧ ¬Reserved (key e) := by
  cases k with
  | zero =>
    rw [run_root] at hn
    exact Or.inl (Option.some.inj hn).symm
  | succ k =>
    obtain ⟨before, call, after, horigin⟩ := exists_origin_of_interpret m clock calls (Nat.succ_pos k) hn
    rcases horigin.derives.kind with ⟨hforces, -, htrigger⟩ | ⟨e, -, -, htrigger, hnext⟩
    · exact Or.inr (Or.inl ⟨before, call, after, horigin, hforces, htrigger⟩)
    · exact Or.inr (Or.inr ⟨e, htrigger, (Machine.next_sound hnext).1⟩)

/-- No event that led to a node of a run has a reserved key. -/
theorem trigger_sound (m : Machine C) (clock : Nat → Stamp) (calls : List (Call C E ε)) {k : Nat} {n : Node C E}
    (hn : ((interpret m (clock 0)).run clock calls).state.history.node? k = some n) :
    ∀ e, n.trigger = .event e → ¬Reserved (key e) := by
  intro e hevent
  rcases node_cases m clock calls hn with rfl | ⟨_, _, _, -, -, hforced⟩ | ⟨e', hevent', hkey⟩
  · cases hevent
  · rw [hforced] at hevent
    cases hevent
  · rw [hevent'] at hevent
    cases hevent
    exact hkey

/-- The key of a trigger is the one of forced states just if the trigger is that of a forced state, as long as its event, if it
has one, has no reserved key. -/
theorem key_trigger_iff {trigger : Trigger E} (h : ∀ e, trigger = .event e → ¬Reserved (key e)) :
    key trigger = overrideKey ↔ trigger = .override := by
  cases trigger with
  | none =>
    have hkeys : noEventKey ≠ overrideKey := by decide
    exact ⟨fun hkey => absurd hkey hkeys, nofun⟩
  | override => exact ⟨fun _ => rfl, fun _ => rfl⟩
  | event e => exact ⟨fun hkey => absurd (Or.inl hkey) (h e rfl), nofun⟩

/-- Forced states cannot be passed off as events, nor events as forced states, and no event leads to a blank state. For every
machine, whichever way it was made:
1. An event with a reserved key is found in no state: not as a text, nor as an object of that type, nor as an option, nor in
   any other form.
2. In a run no call that sends such an event is answered `true`.
3. A node of the arena has the key of forced states just if its trigger says that it was forced, and that is so just if it was
   written by a call that forces a state.
4. The state of the first node, and of every node that a call wrote which sends an event, is not blank. -/
theorem overrides_unforgeable (m : Machine C) (clock : Nat → Stamp) (calls : List (Call C E ε)) :
    let start : Interpreter C E := interpret m (clock 0)
    let ended := start.run clock calls
    (∀ state, (∀ {E' : Type} [EventKey E'] (e : E'), Reserved (key e) →
        m.resolve state e = none ∧ m.resolve state (some e) = none) ∧
      ∀ k, Reserved k → m.resolve state k = none ∧ m.resolve state (some k) = none ∧ m.resolve state (Json.str k) = none ∧
        ∀ members, members.lookup "type" = some (.str k) →
          m.resolve state (Json.obj members) = none ∧ m.resolve state (some (Json.obj members)) = none) ∧
    (∀ entry ∈ ended.answer, ∀ e, entry.1.event? = some e → Reserved (key e) → entry.2 = .flag false) ∧
    (∀ k n, ended.state.history.node? k = some n →
      (key n.trigger = overrideKey ↔ n.trigger = .override) ∧
        (n.trigger = .override ↔
          ∃ before call after, Origin m clock start calls k n before call after ∧ call.forces = true)) ∧
    (∀ k n, ended.state.history.node? k = some n →
      (k = 0 ∨ ∃ before call after, Origin m clock start calls k n before call after ∧ call.event?.isSome = true) →
        Text.isBlank n.state = false) := by
  intro start ended
  refine ⟨fun state => ⟨?_, ?_⟩, ?_, ?_, ?_⟩
  · intro E' _ e he
    exact ⟨m.resolve_reserved state he, m.resolve_reserved state (e := some e) he⟩
  · intro k hk
    refine ⟨m.resolve_reserved state hk, m.resolve_reserved state (e := some k) hk,
      m.resolve_reserved state (e := Json.str k) hk, ?_⟩
    intro members htype
    have hkey : Reserved (key (Json.obj members)) := by
      have hobject : key (Json.obj members) = k := by
        simp only [EventKey.key, Json.key, htype]
      rw [hobject]
      exact hk
    exact ⟨m.resolve_reserved state hkey, m.resolve_reserved state (e := some (Json.obj members)) hkey⟩
  · exact Turn.run_answers
      (P := fun (c : Call C E ε) (a : Answer ε) => ∀ e, c.event? = some e → Reserved (key e) → a = .flag false)
      (fun i c e hc he => (call_reserved i _ hc he).1) calls start
  · intro k n hn
    refine ⟨key_trigger_iff (trigger_sound m clock calls hn), ?_, ?_⟩
    · intro hforced
      rcases node_cases m clock calls hn with rfl | ⟨before, call, after, horigin, hforces, -⟩ | ⟨e, hevent, -⟩
      · cases hforced
      · exact ⟨before, call, after, horigin, hforces⟩
      · rw [hevent] at hforced
        cases hforced
    · rintro ⟨before, call, after, horigin, hforces⟩
      rcases horigin.derives.kind with ⟨-, -, htrigger⟩ | ⟨e, hsends, -⟩
      · exact htrigger
      · rw [hforces] at hsends
        cases hsends
  · rintro k n hn (rfl | ⟨before, call, after, horigin, hsends⟩)
    · rw [run_root] at hn
      cases hn
      exact m.initial_not_blank
    · rcases horigin.derives.kind with ⟨-, hnone, -⟩ | ⟨e, -, -, -, hnext⟩
      · rw [hnone] at hsends
        cases hsends
      · exact (Machine.next_sound hnext).2

end Interpreter

end Chronicle
