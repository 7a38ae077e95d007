import Chronicle.Machine.Builder
import Chronicle.Proofs.Tables
import Chronicle.Proofs.Validity

/-!
# Builders: what was said last stands

What a builder holds of one thing (its id, the entry of a state for an event, whether there is such a state) is what the last
call said that spoke of it, and other calls do not touch it. That is one lemma about a call for each thing and one about a list of
calls for all (`foldl_slot`). So the definition that is built is the one that the calls say (`Says`), and there is only one
(`Says.unique`). In what order calls spoke of different things is not in it.
-/

namespace Chronicle

namespace Builder

variable {C α : Type}

/-! ## What a call says -/

namespace Call

/-- The id a call gives. -/
def id? : Call C → Option String
  | .id name => some name
  | _ => none

/-- The initial state a call gives. -/
def initial? : Call C → Option String
  | .initial name => some name
  | _ => none

/-- The initial context a call gives. -/
def context? : Call C → Option C
  | .context c => some c
  | _ => none

/-- The state a call declares, by its name or as the source of a transition. -/
def declares? : Call C → Option String
  | .state name => some name
  | .transition source _ _ => some source
  | _ => none

/-- The entry a call gives a state for an event. -/
def transition? (state event : String) : Call C → Option Target
  | .transition source event' target => if state = source ∧ event = event' then some target else none
  | _ => none

/-- The entry a call gives the whole machine for an event. -/
def fallback? (event : String) : Call C → Option Target
  | .fallback event' target => if event = event' then some target else none
  | _ => none

/-- Whether a call speaks of the whole machine. -/
def isFallback : Call C → Bool
  | .fallback _ _ => true
  | _ => false

end Call

/-- What the last of the calls said that spoke of a thing. -/
def lastSaid (said : Call C → Option α) (calls : List (Call C)) : Option α := (calls.filterMap said).getLast?

/-- Nothing was said of a thing just if no call speaks of it. -/
theorem lastSaid_eq_none {said : Call C → Option α} {calls : List (Call C)} :
    lastSaid said calls = none ↔ ∀ c ∈ calls, said c = none := by
  rw [lastSaid, List.getLast?_eq_none_iff, List.filterMap_eq_nil_iff]

/-! ## What a builder holds -/

/-- What every call either says or leaves as it was, a builder holds as it was said last. -/
theorem foldl_slot (slot : Builder C → Option α) {said : Call C → Option α}
    (hcall : ∀ b c, slot (b.call c) = (said c).or (slot b)) (calls : List (Call C)) (b : Builder C) :
    slot (calls.foldl call b) = (lastSaid said calls).or (slot b) := by
  induction calls generalizing b with
  | nil => rfl
  | cons c calls ih =>
    rw [List.foldl_cons, ih, hcall, lastSaid, lastSaid, List.filterMap_cons]
    cases said c with
    | none => rfl
    | some a =>
      rw [List.getLast?_cons]
      cases (calls.filterMap said).getLast? <;> rfl

variable (b : Builder C) (c : Call C)

theorem id_call : (b.call c).id = c.id?.or b.id := by
  cases c <;> rfl

theorem initial_call : (b.call c).initial = c.initial?.or b.initial := by
  cases c <;> rfl

theorem context_call : (b.call c).context = c.context?.or b.context := by
  cases c <;> rfl

theorem fallback_call (event : String) :
    (b.call c).fallback.get? event = (c.fallback? event).or (b.fallback.get? event) := by
  cases c with
  | fallback event' target =>
    simp only [call, Call.fallback?, KeyMap.get?_insert]
    split <;> rfl
  | _ => rfl

/-- A call that does not give a state an entry leaves its entries. Declaring the state again does so, too: what it writes is the
entry that the state has. -/
theorem transition_call (state event : String) :
    ((b.call c).entry state).transitions.get? event =
      (c.transition? state event).or ((b.entry state).transitions.get? event) := by
  cases c with
  | state name =>
    by_cases hname : state = name
    · simp [call, entry, Call.transition?, KeyMap.get?_insert, hname]
    · simp [call, entry, Call.transition?, KeyMap.get?_insert, hname]
  | transition state' event' target =>
    by_cases hstate : state = state'
    · by_cases hevent : event = event'
      · simp [call, entry, Call.transition?, StateEntry.on, KeyMap.get?_insert, hstate, hevent]
      · simp [call, entry, Call.transition?, StateEntry.on, KeyMap.get?_insert, hstate, hevent]
    · simp [call, entry, Call.transition?, KeyMap.get?_insert, hstate]
  | _ => rfl

/-- A call adds the state that it declares, and takes none away. -/
theorem declared_call (state : String) :
    ((b.call c).states.get? state).map (fun _ => ()) =
      (if c.declares? = some state then some () else none).or ((b.states.get? state).map fun _ => ()) := by
  cases c with
  | state name =>
    simp only [call, Call.declares?, KeyMap.get?_insert, Option.some.injEq]
    grind
  | transition state' event target =>
    simp only [call, Call.declares?, KeyMap.get?_insert, Option.some.injEq]
    grind
  | _ => simp [call, Call.declares?]

/-! ## The definition that calls say -/

/-- A definition is what calls say: it holds of each thing what was said last of it, the states that were declared, and a table
for the whole machine if any call spoke of it. -/
structure Says (calls : List (Call C)) (d : Definition C) : Prop where
  id : d.id = lastSaid Call.id? calls
  initial : some d.initial = lastSaid Call.initial? calls
  context : some d.context = lastSaid Call.context? calls
  declared : ∀ name, name ∈ d.states.keys ↔ ∃ c ∈ calls, c.declares? = some name
  transition : ∀ state event, (d.own state).get? event = lastSaid (Call.transition? state event) calls
  noFallback : d.fallback = none ↔ ∀ c ∈ calls, c.isFallback = false
  fallback : ∀ event, (d.fallback.getD ∅).get? event = lastSaid (Call.fallback? event) calls

/-- Nothing was said of the whole machine just if nothing was said of it for any event. -/
theorem isFallback_eq_false_iff {calls : List (Call C)} :
    (∀ c ∈ calls, c.isFallback = false) ↔ ∀ event, lastSaid (Call.fallback? event) calls = none := by
  simp only [lastSaid_eq_none]
  constructor
  · intro h event c hc
    have hfalse := h c hc
    cases c with
    | fallback event' target => cases hfalse
    | _ => rfl
  · intro h c hc
    cases c with
    | fallback event target =>
      have hnone := h event _ hc
      simp [Call.fallback?] at hnone
    | _ => rfl

/-- What nothing was held of at first is held as it was said last. -/
theorem slot_ofCalls (slot : Builder C → Option α) {said : Call C → Option α}
    (hcall : ∀ b c, slot (b.call c) = (said c).or (slot b)) (hempty : slot {} = none) (calls : List (Call C)) :
    slot (ofCalls calls) = lastSaid said calls := by
  rw [ofCalls, foldl_slot slot hcall, hempty, Option.or_none]

/-- A builder holds the states that were declared, and no others. -/
theorem mem_states_ofCalls (calls : List (Call C)) (name : String) :
    name ∈ (ofCalls calls).states.keys ↔ ∃ c ∈ calls, c.declares? = some name := by
  have hslot : ((ofCalls calls).states.get? name).map (fun _ => ()) =
      lastSaid (fun c => if c.declares? = some name then some () else none) calls :=
    slot_ofCalls (fun b => (b.states.get? name).map fun _ => ()) (fun b c => declared_call b c name) rfl calls
  have hnone : (ofCalls calls).states.get? name = none ↔ ∀ c ∈ calls, c.declares? ≠ some name := by
    rw [← Option.map_eq_none_iff, hslot, lastSaid_eq_none]
    simp
  rw [KeyMap.mem_keys_iff, Option.isSome_iff_ne_none, Ne, hnone]
  simp

/-- The definition that a builder builds once initial state and context were given. -/
def definition (b : Builder C) (initial : String) (context : C) : Definition C :=
  { id := b.id, initial, context, states := b.states, fallback := if b.fallback.isEmpty then none else some b.fallback }

/-- That definition is what the calls say. -/
theorem says_definition {calls : List (Call C)} {initial : String} {context : C}
    (hinitial : lastSaid Call.initial? calls = some initial) (hcontext : lastSaid Call.context? calls = some context) :
    Says calls ((ofCalls calls).definition initial context) := by
  have hfallback : ∀ event, (ofCalls calls).fallback.get? event = lastSaid (Call.fallback? event) calls := fun event =>
    slot_ofCalls (fun b => b.fallback.get? event) (fun b c => fallback_call b c event) rfl calls
  exact {
    id := slot_ofCalls _ id_call rfl calls
    initial := hinitial.symm
    context := hcontext.symm
    declared := mem_states_ofCalls calls
    transition := by
      intro state event
      have hown : ((ofCalls calls).definition initial context).own state = ((ofCalls calls).entry state).transitions := by
        simp only [Definition.own, definition, entry]
        cases (ofCalls calls).states.get? state <;> rfl
      rw [hown]
      exact slot_ofCalls (fun b => (b.entry state).transitions.get? event)
        (fun b c => transition_call b c state event) rfl calls
    noFallback := by
      rw [isFallback_eq_false_iff]
      simp only [← hfallback, ← KeyMap.isEmpty_iff, definition]
      split <;> simp_all
    fallback := by
      intro event
      rw [← hfallback, definition]
      split
      · rename_i hempty
        exact (KeyMap.isEmpty_iff.mp hempty event).symm
      · rfl }

/-- Two definitions with the same declared states, and the same entries of each, have the same states. The entries alone do not
say so: a state that is not declared has none, like one that is declared without any. -/
theorem states_eq {d d' : Definition C} (hnames : ∀ name, name ∈ d'.states.keys ↔ name ∈ d.states.keys)
    (hown : ∀ state event, (d'.own state).get? event = (d.own state).get? event) : d'.states = d.states := by
  refine KeyMap.ext_get? fun name => ?_
  have htable : d'.own name = d.own name := KeyMap.ext_get? (hown name)
  have hdeclared : (d'.states.get? name).isSome = true ↔ (d.states.get? name).isSome = true := by
    rw [← KeyMap.mem_keys_iff, ← KeyMap.mem_keys_iff, hnames]
  simp only [Definition.own] at htable
  cases hentry : d.states.get? name with
  | none =>
    rw [hentry] at hdeclared
    refine Option.not_isSome_iff_eq_none.mp fun hsome => ?_
    cases hdeclared.mp hsome
  | some entry =>
    obtain ⟨entry', hentry'⟩ := Option.isSome_iff_exists.mp (hdeclared.mpr (by rw [hentry]; rfl))
    rw [hentry, hentry'] at htable
    obtain ⟨transitions⟩ := entry
    obtain ⟨transitions'⟩ := entry'
    rw [hentry', show transitions' = transitions from htable]

/-- Two definitions with the same entries for the whole machine have the same table of them, if both have one or neither has. -/
theorem fallback_eq {d d' : Definition C} (hnone : d'.fallback = none ↔ d.fallback = none)
    (hentries : ∀ event, (d'.fallback.getD ∅).get? event = (d.fallback.getD ∅).get? event) : d'.fallback = d.fallback := by
  have htable : d'.fallback.getD ∅ = d.fallback.getD ∅ := KeyMap.ext_get? hentries
  cases hd : d.fallback with
  | none => exact hnone.mpr hd
  | some table =>
    have hsome : d'.fallback ≠ none := fun hd' => by cases (hnone.mp hd').symm.trans hd
    obtain ⟨table', hd'⟩ := Option.ne_none_iff_exists'.mp hsome
    rw [hd, hd'] at htable
    rw [hd', show table' = table from htable]

/-- Calls say one definition only. -/
theorem Says.unique {calls : List (Call C)} {d d' : Definition C} (h : Says calls d) (h' : Says calls d') : d' = d := by
  have hid : d'.id = d.id := h'.id.trans h.id.symm
  have hinitial : d'.initial = d.initial := Option.some.inj (h'.initial.trans h.initial.symm)
  have hcontext : d'.context = d.context := Option.some.inj (h'.context.trans h.context.symm)
  have hstates : d'.states = d.states := states_eq (fun name => (h'.declared name).trans (h.declared name).symm)
    fun state event => (h'.transition state event).trans (h.transition state event).symm
  have hfallback : d'.fallback = d.fallback := fallback_eq (h'.noFallback.trans h.noFallback.symm)
    fun event => (h'.fallback event).trans (h.fallback event).symm
  obtain ⟨id, initial, context, states, fallback⟩ := d
  obtain ⟨id', initial', context', states', fallback'⟩ := d'
  simp only at hid hinitial hcontext hstates hfallback
  rw [hid, hinitial, hcontext, hstates, hfallback]

/-! ## Building -/

/-- Without initial state or context nothing is built, and what is missing is told. -/
theorem build_incomplete {calls : List (Call C)}
    (h : lastSaid Call.initial? calls = none ∨ lastSaid Call.context? calls = none) :
    (ofCalls calls).build = .error
      ((if (lastSaid Call.initial? calls).isNone then [.missingInitial] else []) ++
        if (lastSaid Call.context? calls).isNone then [.missingContext] else []) := by
  have hinitial : (ofCalls calls).initial = lastSaid Call.initial? calls := slot_ofCalls _ initial_call rfl calls
  have hcontext : (ofCalls calls).context = lastSaid Call.context? calls := slot_ofCalls _ context_call rfl calls
  rw [build, hinitial, hcontext]
  cases hi : lastSaid Call.initial? calls with
  | none => cases lastSaid Call.context? calls <;> rfl
  | some initial =>
    rw [h.resolve_left (by rw [hi]; exact nofun)]
    rfl

/-- With both, the machine of the definition that the calls say is built, or that definition is refused. -/
theorem build_eq {calls : List (Call C)} {d : Definition C} (h : Says calls d) :
    (ofCalls calls).build = Machine.ofDefinition d := by
  have hinitial : (ofCalls calls).initial = some d.initial := (slot_ofCalls _ initial_call rfl calls).trans h.initial.symm
  have hcontext : (ofCalls calls).context = some d.context := (slot_ofCalls _ context_call rfl calls).trans h.context.symm
  have hsays := says_definition h.initial.symm h.context.symm
  rw [build, hinitial, hcontext]
  exact congrArg Machine.ofDefinition (h.unique hsays)

/-- Calls that say the same last of everything, and declare the same states. -/
structure Agree (calls calls' : List (Call C)) : Prop where
  id : lastSaid Call.id? calls = lastSaid Call.id? calls'
  initial : lastSaid Call.initial? calls = lastSaid Call.initial? calls'
  context : lastSaid Call.context? calls = lastSaid Call.context? calls'
  declared : ∀ name, (∃ c ∈ calls, c.declares? = some name) ↔ ∃ c ∈ calls', c.declares? = some name
  transition : ∀ state event, lastSaid (Call.transition? state event) calls = lastSaid (Call.transition? state event) calls'
  fallback : ∀ event, lastSaid (Call.fallback? event) calls = lastSaid (Call.fallback? event) calls'

/-- Calls that agree say the same definition. -/
theorem Says.of_agree {calls calls' : List (Call C)} {d : Definition C} (hd : Says calls d) (h : Agree calls calls') :
    Says calls' d where
  id := hd.id.trans h.id
  initial := hd.initial.trans h.initial
  context := hd.context.trans h.context
  declared := fun name => (hd.declared name).trans (h.declared name)
  transition := fun state event => (hd.transition state event).trans (h.transition state event)
  noFallback := by
    rw [hd.noFallback, isFallback_eq_false_iff, isFallback_eq_false_iff]
    simp only [h.fallback]
  fallback := fun event => (hd.fallback event).trans (h.fallback event)

/-- In a machine of a definition that calls say, the entry for an event in a state is what was said last for the two, else what was
said last for the event and the whole machine. -/
theorem Says.lookup {calls : List (Call C)} {d : Definition C} (h : Says calls d) (state k : String) :
    d.lookup state k = (lastSaid (Call.transition? state k) calls).or (lastSaid (Call.fallback? k) calls) := by
  rw [Definition.lookup, Option.orElse_eq_orElse, Option.orElse_eq_or, h.transition, h.fallback]

/-- What was said last stands, and the order between calls that spoke of different things does not matter.
1. If no initial state or no initial context was given, just that is told, whatever else was said.
2. Else there is one definition that the calls say, and the machine of that definition is built, or the definition is refused as
   it would be from elsewhere.
3. Calls that say the same last of everything, and declare the same states, build the same.
4. In a machine that was built, the entry for an event in a state is what was said last for the two, else what was said last for
   the event and the whole machine, else there is none. -/
theorem last_said_stands (calls : List (Call C)) :
    let initial := lastSaid Call.initial? calls
    let context := lastSaid Call.context? calls
    (initial = none ∨ context = none → (ofCalls calls).build = .error
      ((if initial.isNone then [.missingInitial] else []) ++ if context.isNone then [.missingContext] else [])) ∧
    (initial ≠ none → context ≠ none →
      ∃ d, Says calls d ∧ (∀ d', Says calls d' → d' = d) ∧ (ofCalls calls).build = Machine.ofDefinition d) ∧
    (∀ calls', Agree calls calls' → (ofCalls calls').build = (ofCalls calls).build) ∧
    ∀ m, (ofCalls calls).build = .ok m → ∀ {E : Type} [EventKey E] (state : String) (e : E), m.resolve state e =
      (lastSaid (Call.transition? state (key e)) calls).or (lastSaid (Call.fallback? (key e)) calls) := by
  intro initial context
  have hcomplete : (initial = none ∨ context = none) ∨ ∃ d, Says calls d := by
    cases hi : initial with
    | none => exact Or.inl (Or.inl rfl)
    | some i =>
      cases hc : context with
      | none => exact Or.inl (Or.inr rfl)
      | some c => exact Or.inr ⟨_, says_definition hi hc⟩
  refine ⟨build_incomplete, ?_, ?_, ?_⟩
  · intro hi hc
    obtain ⟨d, hd⟩ := hcomplete.resolve_left (not_or.mpr ⟨hi, hc⟩)
    exact ⟨d, hd, fun _ hd' => hd.unique hd', build_eq hd⟩
  · intro calls' hagree
    rcases hcomplete with hmissing | ⟨d, hd⟩
    · have hmissing' : lastSaid Call.initial? calls' = none ∨ lastSaid Call.context? calls' = none := by
        rw [← hagree.initial, ← hagree.context]
        exact hmissing
      rw [build_incomplete hmissing, build_incomplete hmissing', hagree.initial, hagree.context]
    · rw [build_eq hd, build_eq (hd.of_agree hagree)]
  · intro m hm E _ state e
    rcases hcomplete with hmissing | ⟨d, hd⟩
    · rw [build_incomplete hmissing] at hm
      cases hm
    · rw [build_eq hd] at hm
      obtain ⟨-, rfl⟩ := Machine.ofDefinition_eq_ok.mp hm
      exact hd.lookup state (key e)

/-- A kitchen told in two ways: an entry that is said again with an action, a state that is declared again after it, an initial
state that is taken back; and nothing told at all. -/
theorem last_said_stands_kitchen :
    let calls : List (Call Nat) :=
      [.transition "idle" "GO" (.bare "busy"), .fallback "RESET" (.bare "idle"), .initial "idle", .context 0,
        .transition "idle" "GO" (.withActions "busy" ["log"]), .state "idle"]
    let calls' : List (Call Nat) :=
      [.state "idle", .initial "busy", .context 0, .transition "idle" "GO" (.withActions "busy" ["log"]), .initial "idle",
        .fallback "RESET" (.bare "idle")]
    let kitchen : Machine Nat := ⟨(ofCalls calls).definition "idle" 0, by decide⟩
    (lastSaid Call.initial? ([] : List (Call Nat)) = none ∧
      (ofCalls ([] : List (Call Nat))).build = .error [.missingInitial, .missingContext]) ∧
    (lastSaid Call.initial? calls ≠ none ∧ lastSaid Call.context? calls ≠ none ∧ ∃ d, Says calls d) ∧
    (Agree calls calls' ∧ (ofCalls calls').build = (ofCalls calls).build) ∧
    (ofCalls calls).build = .ok kitchen ∧ kitchen.resolve "idle" "GO" = some (.withActions "busy" ["log"]) ∧
      kitchen.resolve "busy" "RESET" = some (.bare "idle") := by
  intro calls calls' kitchen
  have hagree : Agree calls calls' := {
    id := rfl
    initial := rfl
    context := rfl
    declared := by
      intro name
      simp [calls, calls', Call.declares?]
    transition := by
      intro state event
      by_cases h : state = "idle" ∧ event = "GO"
      · obtain ⟨rfl, rfl⟩ := h
        rfl
      · simp only [lastSaid, calls, calls', List.filterMap_cons, List.filterMap_nil, Call.transition?, if_neg h]
    fallback := by
      intro event
      by_cases h : event = "RESET"
      · subst h
        rfl
      · simp only [lastSaid, calls, calls', List.filterMap_cons, List.filterMap_nil, Call.fallback?, if_neg h] }
  have hbuilt : (ofCalls calls).build = .ok kitchen := Machine.ofDefinition_eq_ok.mpr ⟨kitchen.valid, rfl⟩
  obtain ⟨d, hd, -⟩ := (last_said_stands calls).2.1 (by decide) (by decide)
  have hresolve := (last_said_stands calls).2.2.2 kitchen hbuilt (E := String)
  refine ⟨⟨rfl, (last_said_stands []).1 (Or.inl rfl)⟩, ⟨by decide, by decide, d, hd⟩,
    ⟨hagree, (last_said_stands calls).2.2.1 calls' hagree⟩, hbuilt, ?_, ?_⟩
  · rw [hresolve]
    decide
  · rw [hresolve]
    decide

end Builder

end Chronicle
