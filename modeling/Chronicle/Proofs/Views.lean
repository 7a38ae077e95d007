import Mathlib.Data.List.Induction
import Chronicle.View
import Chronicle.Proofs.Calls

/-!
# Views: whom a view tells, and how often

The uses of a view as values, so that a run is a list of them. The transcript of a run lists every use, what it was answered
and which observers were called by it. Who should have been called can be told from the operations and answers alone: the
subscriptions that stand after a transcript are those that were handed out and not unsubscribed since (`standing`), and an
answer tells a new observer, or all that stand if something moved, or nobody (`told`).

A view keeps exactly the subscriptions that stand (`run_observers`), hands out 0, 1, 2 and so on (`run_handedOut`), and calls
whom its answer tells (`take_calls`). That an observer was called once, and then once for every move while it was subscribed,
is counted along the transcript (`timesCalled_eq`).
-/

namespace Chronicle

namespace View

/-- What can be done with a view. -/
inductive Operation (C E ε : Type) where
  | observe
  | unsubscribe (subscription : Nat)
  | send (e : E)
  | sendWith (e : E) (assign : C → E → Except ε C)
  | setState (state : String)
  | setStateWithContext (state : String) (context : C)
  | undo
  | redo
  | undoToRoot
  | pause
  | resume
  | clearPaused

/-- What an operation on a view is answered with. -/
inductive Answer (ε : Type) where
  /-- The subscription of a new observer. -/
  | subscribed (subscription : Nat)
  /-- Whether there was such an observer to remove. -/
  | removed (b : Bool)
  /-- The answer of the interpreter. -/
  | called (answer : Interpreter.Answer ε)

/-- An entry of a transcript: an operation, its answer, and the calls of observers it made. -/
abbrev Entry (C E ε : Type) := Operation C E ε × Answer ε × List Call

variable {C E ε α β : Type}

/-- The outcome with another answer. -/
def Outcome.map (o : Outcome C E α) (f : α → β) : Outcome C E β := ⟨o.toTurn.map id f, o.calls⟩

/-- The call on the interpreter that an operation comes to. Subscribing and unsubscribing leave the interpreter alone. -/
def Operation.call? : Operation C E ε → Option (Interpreter.Call C E ε)
  | .observe | .unsubscribe _ => none
  | .send e => some (.send e)
  | .sendWith e assign => some (.sendWith e assign)
  | .setState state => some (.setState state)
  | .setStateWithContext state context => some (.setStateWithContext state context)
  | .undo => some .undo
  | .redo => some .redo
  | .undoToRoot => some .undoToRoot
  | .pause => some .pause
  | .resume => some .resume
  | .clearPaused => some .clearPaused

/-- Whether an operation subscribes an observer. -/
def Operation.subscribes : Operation C E ε → Bool
  | .observe => true
  | _ => false

/-- Whether an operation unsubscribes the observer of a subscription. -/
def Operation.drops (subscription : Nat) : Operation C E ε → Bool
  | .unsubscribe subscription' => subscription = subscription'
  | _ => false

/-- The subscription that an answer hands out. -/
def Answer.subscription? : Answer ε → Option Nat
  | .subscribed subscription => some subscription
  | _ => none

/-- Whether an answer says that something moved: that a node was written, or that the head was moved. -/
def Answer.moved : Answer ε → Bool
  | .called (.flag b) => b
  | _ => false

/-! ## What a transcript says of the observers -/

/-- The subscriptions that were handed out, in their order. -/
def handedOut (transcript : List (Entry C E ε)) : List Nat := transcript.filterMap fun entry => entry.2.1.subscription?

/-- The subscriptions that stand: those that were handed out and not unsubscribed since, in the order of handing out. -/
def standing : List (Entry C E ε) → List Nat
  | [] => []
  | entry :: rest =>
    match entry.2.1.subscription? with
    | some subscription => if rest.any (·.1.drops subscription) then standing rest else subscription :: standing rest
    | none => standing rest

/-- Whom an answer tells, given the subscriptions that stand. -/
def told (stand : List Nat) : Answer ε → List Nat
  | .subscribed subscription => [subscription]
  | .called (.flag true) => stand
  | _ => []

/-- How often the observer of a subscription was called. -/
def timesCalled (subscription : Nat) (transcript : List (Entry C E ε)) : Nat :=
  (transcript.flatMap fun entry => entry.2.2).countP fun call => call.observer = subscription

/-- How often something moved before a subscription was unsubscribed. -/
def movesUntilDropped (subscription : Nat) (transcript : List (Entry C E ε)) : Nat :=
  (transcript.takeWhile fun entry => !entry.1.drops subscription).countP fun entry => entry.2.1.moved

/-- The call on the interpreter that an entry comes to, beside its answer. -/
def called? : Entry C E ε → Option (Interpreter.Call C E ε × Interpreter.Answer ε)
  | (op, .called answer, _) => op.call?.map (·, answer)
  | _ => none

variable [EventKey E]

/-- Carries out an operation; what it writes gets the given stamp. -/
def take (v : View C E) (stamp : Stamp) : Operation C E ε → Outcome C E (Answer ε)
  | .observe => v.observe.map .subscribed
  | .unsubscribe subscription => (v.unsubscribe subscription).map .removed
  | .send e => (v.send stamp e).map fun b => .called (.flag b)
  | .sendWith e assign => (v.sendWith stamp e assign).map fun sent => .called (.ofSent sent)
  | .setState state => (v.setState stamp state).map fun b => .called (.flag b)
  | .setStateWithContext state context => (v.setStateWithContext stamp state context).map fun b => .called (.flag b)
  | .undo => v.undo.map fun b => .called (.flag b)
  | .redo => v.redo.map fun b => .called (.flag b)
  | .undoToRoot => v.undoToRoot.map fun b => .called (.flag b)
  | .pause => v.pause.map fun _ => .called .done
  | .resume => v.resume.map fun b => .called (.flag b)
  | .clearPaused => v.clearPaused.map fun _ => .called .done

/-- An operation as a turn, whose answer goes with the calls of observers. -/
def turn (clock : Nat → Stamp) (v : View C E) (op : Operation C E ε) : Turn (View C E) (Answer ε × List Call) :=
  let o := v.take (clock v.interpreter.history.size) op
  ⟨o.state, (o.answer, o.calls), o.signals⟩

/-- Carries out operations one after another; the node written at a place of the arena gets the stamp the clock has for that
place. -/
def run (clock : Nat → Stamp) (v : View C E) (ops : List (Operation C E ε)) : Turn (View C E) (List (Entry C E ε)) :=
  Turn.run (turn clock) v ops

/-! ## One operation -/

omit [EventKey E] in
/-- An operation subscribes, or it unsubscribes, or it comes to a call on the interpreter and does neither. -/
theorem Operation.kinds (op : Operation C E ε) :
    op = .observe ∨ (∃ k, op = .unsubscribe k) ∨
      ∃ c, op.call? = some c ∧ op.subscribes = false ∧ ∀ k, op.drops k = false := by
  cases op with
  | observe => exact Or.inl rfl
  | unsubscribe k => exact Or.inr (Or.inl ⟨k, rfl⟩)
  | _ => exact Or.inr (Or.inr ⟨_, rfl, rfl, fun _ => rfl⟩)

/-- An operation that comes to a call on the interpreter is that call; if it moved something, all observers are called. -/
theorem take_call (v : View C E) (stamp : Stamp) {op : Operation C E ε} {c : Interpreter.Call C E ε} (hc : op.call? = some c) :
    v.take stamp op =
      ⟨⟨{ v with interpreter := (v.interpreter.call stamp c).state }, .called (v.interpreter.call stamp c).answer,
        (v.interpreter.call stamp c).signals⟩,
        if (Answer.called (v.interpreter.call stamp c).answer).moved then v.notify else []⟩ := by
  cases op with
  | observe => cases hc
  | unsubscribe subscription => cases hc
  | sendWith e assign =>
    cases hc
    have hwritten : ∀ sent : Except (AssignError ε) Bool, (Answer.called (.ofSent sent)).moved = written sent := by
      intro sent
      cases sent <;> rfl
    have hsent : (v.take stamp (.sendWith e assign) : Outcome C E (Answer ε)) =
        (v.lift written (v.interpreter.sendWith stamp e assign)).map fun sent => .called (.ofSent sent) := rfl
    rw [hsent]
    simp only [lift, Outcome.map, Turn.map, Interpreter.call, id_eq, hwritten]
  | _ => cases hc; rfl

/-- An operation that comes to no call leaves the interpreter, and nothing is signalled. -/
theorem take_of_call?_eq_none (v : View C E) (stamp : Stamp) {op : Operation C E ε} (hc : op.call? = none) :
    (v.take stamp op).state.interpreter = v.interpreter ∧ (v.take stamp op).signals = [] ∧
      ∀ answer, (v.take stamp op).answer ≠ .called answer := by
  cases op with
  | observe => exact ⟨rfl, rfl, nofun⟩
  | unsubscribe subscription => exact ⟨rfl, rfl, nofun⟩
  | _ => cases hc

/-- An operation calls whom its answer tells, with the key of the view. -/
theorem take_calls (v : View C E) (stamp : Stamp) (op : Operation C E ε) :
    (v.take stamp op).calls = (told v.observers (v.take stamp op).answer).map (⟨·, v.renderKey⟩) := by
  rcases op.kinds with rfl | ⟨k, rfl⟩ | ⟨c, hc, -⟩
  · rfl
  · rfl
  · rw [take_call v stamp hc]
    cases (v.interpreter.call stamp c).answer with
    | flag b => cases b <;> rfl
    | failed e => rfl
    | done => rfl

/-- An operation leaves the key of the view. -/
theorem take_renderKey (v : View C E) (stamp : Stamp) (op : Operation C E ε) :
    (v.take stamp op).state.renderKey = v.renderKey := by
  rcases op.kinds with rfl | ⟨k, rfl⟩ | ⟨c, hc, -⟩
  · rfl
  · rfl
  · rw [take_call v stamp hc]

/-- After an operation the observers are those it does not unsubscribe, and then the one it subscribes. -/
theorem take_observers (v : View C E) (stamp : Stamp) (op : Operation C E ε) :
    (v.take stamp op).state.observers =
      v.observers.filter (fun k => !op.drops k) ++ (v.take stamp op).answer.subscription?.toList := by
  have hkept (hdrops : ∀ k, op.drops k = false) : v.observers.filter (fun k => !op.drops k) = v.observers :=
    List.filter_eq_self.mpr fun k _ => by rw [hdrops k]; rfl
  rcases op.kinds with rfl | ⟨k, rfl⟩ | ⟨c, hc, -, hdrops⟩
  · rw [hkept fun _ => rfl]
    rfl
  · simp [take, unsubscribe, Outcome.map, Turn.map, Operation.drops, Answer.subscription?]
  · rw [take_call v stamp hc, hkept hdrops]
    exact (List.append_nil _).symm

/-- A subscription is handed out just to a new observer; it is the next one, and one more is the next from then on. -/
theorem take_subscription (v : View C E) (stamp : Stamp) (op : Operation C E ε) :
    (v.take stamp op).answer.subscription? = (if op.subscribes then some v.next else none) ∧
      (v.take stamp op).state.next = v.next + if op.subscribes then 1 else 0 := by
  rcases op.kinds with rfl | ⟨k, rfl⟩ | ⟨c, hc, hsubscribes, -⟩
  · exact ⟨rfl, rfl⟩
  · exact ⟨rfl, rfl⟩
  · rw [take_call v stamp hc, hsubscribes]
    exact ⟨rfl, rfl⟩

/-- An operation after which the head is elsewhere is answered `true`. -/
theorem take_head {v : View C E} {stamp : Stamp} {op : Operation C E ε}
    (hmoved : (v.take stamp op).state.interpreter.history.head ≠ v.interpreter.history.head) :
    (v.take stamp op).answer = .called (.flag true) := by
  cases hc : op.call? with
  | none => exact absurd (congrArg (fun i : Interpreter C E => i.history.head) (take_of_call?_eq_none v stamp hc).1) hmoved
  | some c =>
    rw [take_call v stamp hc] at hmoved ⊢
    by_contra hanswer
    exact hmoved (Interpreter.call_head fun h => hanswer (congrArg Answer.called h))

/-! ## Transcripts -/

section Transcripts

omit [EventKey E]

theorem handedOut_append (xs ys : List (Entry C E ε)) : handedOut (xs ++ ys) = handedOut xs ++ handedOut ys :=
  List.filterMap_append

theorem handedOut_cons (entry : Entry C E ε) (rest : List (Entry C E ε)) :
    handedOut (entry :: rest) = entry.2.1.subscription?.toList ++ handedOut rest := by
  cases h : entry.2.1.subscription? <;> simp [handedOut, h]

theorem timesCalled_append (k : Nat) (xs ys : List (Entry C E ε)) :
    timesCalled k (xs ++ ys) = timesCalled k xs + timesCalled k ys := by
  simp only [timesCalled, List.flatMap_append, List.countP_append]

/-- After one more entry, what stood stands unless it was unsubscribed, and so does what was handed out. -/
theorem standing_snoc (transcript : List (Entry C E ε)) (entry : Entry C E ε) :
    standing (transcript ++ [entry]) =
      (standing transcript).filter (fun k => !entry.1.drops k) ++ entry.2.1.subscription?.toList := by
  induction transcript with
  | nil => cases h : entry.2.1.subscription? <;> simp [standing, h]
  | cons first rest ih =>
    simp only [List.cons_append, standing, ih, List.any_append, List.any_cons, List.any_nil, Bool.or_false]
    cases first.2.1.subscription? with
    | none => rfl
    | some k =>
      cases hany : rest.any (·.1.drops k) with
      | true => simp [hany]
      | false => cases hdrops : entry.1.drops k <;> simp [hany, hdrops]

/-- What stands was handed out, and stands in the order of handing out. -/
theorem standing_sublist (transcript : List (Entry C E ε)) : (standing transcript).Sublist (handedOut transcript) := by
  induction transcript with
  | nil => exact List.Sublist.slnil
  | cons entry rest ih =>
    rw [handedOut_cons, standing]
    cases entry.2.1.subscription? with
    | none => exact ih
    | some k =>
      simp only [Option.toList_some, List.singleton_append]
      split
      · exact ih.cons k
      · exact ih.cons_cons k

/-- What was handed out once stands as long as it is not unsubscribed afterwards. -/
theorem mem_standing {before after : List (Entry C E ε)} {entry : Entry C E ε} {k : Nat}
    (hentry : entry.2.1.subscription? = some k) (hbefore : k ∉ handedOut before) (hafter : k ∉ handedOut after) :
    k ∈ standing (before ++ entry :: after) ↔ after.any (·.1.drops k) = false := by
  induction before with
  | nil =>
    have hrest : k ∉ standing after := fun hk => hafter ((standing_sublist after).subset hk)
    simp only [List.nil_append, standing, hentry]
    cases after.any (·.1.drops k) with
    | true => simp [hrest]
    | false => simp
  | cons first before ih =>
    rw [handedOut_cons, List.mem_append, not_or] at hbefore
    simp only [List.cons_append, standing]
    cases hfirst : first.2.1.subscription? with
    | none => exact ih hbefore.2
    | some k' =>
      have hne : k ≠ k' := by
        rintro rfl
        exact hbefore.1 (by rw [hfirst]; exact List.mem_singleton_self k)
      simp only
      split
      · exact ih hbefore.2
      · rw [List.mem_cons, ih hbefore.2]
        exact or_iff_right hne

/-- One more entry is one more move before a subscription is unsubscribed, if it is a move and the subscription still stands. -/
theorem movesUntilDropped_snoc (k : Nat) (transcript : List (Entry C E ε)) {entry : Entry C E ε}
    (hquiet : entry.1.drops k = true → entry.2.1.moved = false) :
    movesUntilDropped k (transcript ++ [entry]) = movesUntilDropped k transcript +
      if entry.2.1.moved = true ∧ transcript.any (·.1.drops k) = false then 1 else 0 := by
  induction transcript with
  | nil =>
    cases hdrops : entry.1.drops k with
    | true => simp [movesUntilDropped, hdrops, hquiet hdrops]
    | false => cases hmoved : entry.2.1.moved <;> simp [movesUntilDropped, hdrops, hmoved]
  | cons first rest ih =>
    simp only [movesUntilDropped, List.cons_append, List.takeWhile_cons, List.any_cons] at ih ⊢
    by_cases hdrops : first.1.drops k = true
    · simp [hdrops]
    · rw [Bool.not_eq_true] at hdrops
      simp only [hdrops, Bool.not_false, if_true, List.countP_cons, Bool.false_or, ih]
      omega

/-- How often an answer tells the observer of a subscription that is not just handed out: once, if something moved and the
subscription stands. -/
theorem count_told {stand : List Nat} (hnodup : stand.Nodup) {answer : Answer ε} {k : Nat}
    (hold : answer.subscription? ≠ some k) :
    (told stand answer).count k = if answer.moved = true ∧ k ∈ stand then 1 else 0 := by
  cases answer with
  | subscribed k' =>
    have hne : k' ≠ k := fun h => hold (congrArg some h)
    simp [told, Answer.moved, hne]
  | removed b => simp [told, Answer.moved]
  | called answer =>
    cases answer with
    | flag b =>
      cases b with
      | false => simp [told, Answer.moved]
      | true => simp [told, Answer.moved, hnodup.count]
    | failed e => simp [told, Answer.moved]
    | done => simp [told, Answer.moved]

/-- A transcript is faithful if every entry calls whom its answer tells, no subscription is handed out twice, and nothing
moves by unsubscribing. -/
structure Faithful (renderKey : String) (transcript : List (Entry C E ε)) : Prop where
  calls : ∀ before entry after, transcript = before ++ entry :: after →
    entry.2.2 = (told (standing before) entry.2.1).map (⟨·, renderKey⟩)
  distinct : (handedOut transcript).Nodup
  quiet : ∀ entry ∈ transcript, ∀ k, entry.1.drops k = true → entry.2.1.moved = false

variable {renderKey : String} {transcript : List (Entry C E ε)} {entry : Entry C E ε} {k : Nat}

/-- What comes first of a faithful transcript is faithful. -/
theorem Faithful.left {rest : List (Entry C E ε)} (h : Faithful renderKey (transcript ++ rest)) :
    Faithful renderKey transcript where
  calls := by
    rintro before entry after rfl
    exact h.calls before entry (after ++ rest) (by simp)
  distinct := by
    have hdistinct := h.distinct
    rw [handedOut_append] at hdistinct
    exact (List.nodup_append.mp hdistinct).1
  quiet := fun entry hentry => h.quiet entry (List.mem_append_left rest hentry)

/-- The last entry of a faithful transcript calls the observer of a subscription as often as its answer tells it. -/
theorem Faithful.timesCalled_snoc (h : Faithful renderKey (transcript ++ [entry])) (k : Nat) :
    timesCalled k (transcript ++ [entry]) = timesCalled k transcript + (told (standing transcript) entry.2.1).count k := by
  have hlast : timesCalled k [entry] = (told (standing transcript) entry.2.1).count k := by
    rw [timesCalled, List.flatMap_singleton, h.calls transcript entry [] rfl, List.countP_map]
    exact List.countP_congr fun k' _ => by simp
  rw [timesCalled_append, hlast]

/-- In a faithful transcript nobody is called under a subscription that was not handed out. -/
theorem Faithful.timesCalled_eq_zero (h : Faithful renderKey transcript) (hk : k ∉ handedOut transcript) :
    timesCalled k transcript = 0 := by
  induction transcript using List.reverseRecOn with
  | nil => rfl
  | append_singleton transcript entry ih =>
    rw [handedOut_append, handedOut_cons, List.mem_append, not_or] at hk
    have hold : entry.2.1.subscription? ≠ some k := by
      intro hsome
      exact hk.2 (by simp [hsome])
    have hstands : k ∉ standing transcript := fun hmem => hk.1 ((standing_sublist transcript).subset hmem)
    have hnodup := (standing_sublist transcript).nodup h.left.distinct
    rw [h.timesCalled_snoc, ih h.left hk.1, count_told hnodup hold]
    simp [hstands]

/-- In a faithful transcript a subscription is handed out neither before nor after the entry that hands it out. -/
theorem Faithful.apart {before after : List (Entry C E ε)} (h : Faithful renderKey (before ++ entry :: after))
    (hentry : entry.2.1.subscription? = some k) : k ∉ handedOut before ∧ k ∉ handedOut after := by
  have hdistinct := h.distinct
  rw [handedOut_append, handedOut_cons, hentry] at hdistinct
  obtain ⟨-, hrest, hdisjoint⟩ := List.nodup_append.mp hdistinct
  exact ⟨fun hk => hdisjoint k hk k List.mem_cons_self rfl, (List.nodup_cons.mp hrest).1⟩

/-- In a faithful transcript the observer of a subscription is called once when that is handed out, and then once for every move
until it is unsubscribed. -/
theorem Faithful.timesCalled_eq {before after : List (Entry C E ε)} (h : Faithful renderKey (before ++ entry :: after))
    (hentry : entry.2.1 = .subscribed k) : timesCalled k (before ++ entry :: after) = 1 + movesUntilDropped k after := by
  have hsome : entry.2.1.subscription? = some k := by rw [hentry]; rfl
  obtain ⟨hbefore, hafter⟩ := h.apart hsome
  induction after using List.reverseRecOn with
  | nil =>
    rw [h.timesCalled_snoc, h.left.timesCalled_eq_zero hbefore, hentry]
    simp [told, movesUntilDropped]
  | append_singleton after last ih =>
    have hsplit : before ++ entry :: (after ++ [last]) = (before ++ entry :: after) ++ [last] := by simp
    rw [hsplit] at h ⊢
    rw [handedOut_append, handedOut_cons, List.mem_append, not_or] at hafter
    have hold : last.2.1.subscription? ≠ some k := by
      intro hlast
      exact hafter.2 (by simp [hlast])
    have hnodup := (standing_sublist _).nodup h.left.distinct
    have hquiet := h.quiet last (List.mem_append_right _ (List.mem_singleton_self last)) k
    rw [h.timesCalled_snoc, ih h.left hafter.1, count_told hnodup hold, movesUntilDropped_snoc k after hquiet]
    simp only [mem_standing hsome hbefore hafter.1]
    omega

end Transcripts

/-! ## Runs -/

section Runs

variable (clock : Nat → Stamp) (i : Interpreter C E) (key : String) (ops : List (Operation C E ε))

/-- A run leaves the key of the view. -/
theorem run_renderKey : ((new i key).run clock ops).state.renderKey = key := by
  refine Turn.run_invariant (P := fun v : View C E => v.renderKey = key) ?_ ops rfl
  intro v op hv
  exact (take_renderKey v _ op).trans hv

/-- After a run the observers are the subscriptions that stand. -/
theorem run_observers : ((new i key).run clock ops).state.observers = standing ((new i key).run clock ops).answer := by
  induction ops using List.reverseRecOn with
  | nil => rfl
  | append_singleton ops op ih =>
    rw [run, Turn.run_state_snoc, Turn.run_answer_snoc, standing_snoc]
    exact (take_observers _ _ op).trans (by rw [← run, ih]; rfl)

/-- A run hands out 0, 1, 2 and so on, one subscription for every new observer. -/
theorem run_handedOut : handedOut ((new i key).run clock ops).answer = List.range (ops.countP Operation.subscribes) ∧
    ((new i key).run clock ops).state.next = ops.countP Operation.subscribes := by
  induction ops using List.reverseRecOn with
  | nil => exact ⟨rfl, rfl⟩
  | append_singleton ops op ih =>
    obtain ⟨hrange, hnext⟩ := ih
    obtain ⟨hsubscription, hlater⟩ := take_subscription ((new i key).run clock ops).state
      (clock ((new i key).run clock ops).state.interpreter.history.size) op
    rw [hnext] at hsubscription hlater
    have hentry : handedOut ((new i key).run clock (ops ++ [op])).answer =
        List.range (ops.countP Operation.subscribes) ++
          (if op.subscribes then some (ops.countP Operation.subscribes) else none).toList := by
      rw [run, Turn.run_answer_snoc, handedOut_append, handedOut_cons, ← run, hrange]
      exact congrArg (_ ++ ·) ((List.append_nil _).trans (congrArg Option.toList hsubscription))
    have hstate : ((new i key).run clock (ops ++ [op])).state.next =
        ops.countP Operation.subscribes + if op.subscribes then 1 else 0 := by
      rw [run, Turn.run_state_snoc]
      exact hlater
    rw [hentry, hstate, List.countP_append, List.countP_singleton]
    cases op.subscribes with
    | false => exact ⟨List.append_nil _, rfl⟩
    | true => exact ⟨List.range_succ.symm, rfl⟩

/-- An entry of a transcript is what its operation does to the view as the entries before it left that. -/
theorem run_entry {before after : List (Entry C E ε)} {entry : Entry C E ε}
    (hsplit : ((new i key).run clock ops).answer = before ++ entry :: after) :
    let v := ((new i key).run clock (before.map Prod.fst)).state
    let o := v.take (clock v.interpreter.history.size) entry.1
    entry.2 = (o.answer, o.calls) ∧ v.observers = standing before ∧ v.renderKey = key ∧
      ((new i key).run clock ((before ++ [entry]).map Prod.fst)).state = o.state := by
  obtain ⟨hbefore, hentry⟩ := Turn.run_answer_split hsplit
  refine ⟨hentry, ?_, run_renderKey clock i key _, ?_⟩
  · rw [run_observers]
    exact congrArg standing hbefore
  · rw [List.map_append]
    exact Turn.run_state_snoc (turn clock) (new i key) (before.map Prod.fst) entry.1

/-- The transcript of a run is faithful. -/
theorem run_faithful : Faithful key ((new i key).run clock ops).answer where
  calls := by
    intro before entry after hsplit
    obtain ⟨hentry, hstand, hkey, -⟩ := run_entry clock i key ops hsplit
    rw [hentry, take_calls, hstand, hkey]
  distinct := by
    rw [(run_handedOut clock i key ops).1]
    exact List.nodup_range
  quiet := by
    refine Turn.run_answers (P := fun op (answer : Answer ε × List Call) => ∀ k, op.drops k = true → answer.1.moved = false) ?_
      ops (new i key)
    intro v op k hdrops
    rcases op.kinds with rfl | ⟨k', rfl⟩ | ⟨c, -, -, hnone⟩
    · cases hdrops
    · rfl
    · rw [hnone k] at hdrops
      cases hdrops

/-- The interpreter in a view takes the calls that the operations come to as it would alone: it ends where it would, answers and
signals the same. -/
theorem run_interpreter (v : View C E) :
    (v.run clock ops).state.interpreter = (v.interpreter.run clock (ops.filterMap Operation.call?)).state ∧
      (v.run clock ops).answer.filterMap called? = (v.interpreter.run clock (ops.filterMap Operation.call?)).answer ∧
      (v.run clock ops).signals = (v.interpreter.run clock (ops.filterMap Operation.call?)).signals := by
  induction ops generalizing v with
  | nil => exact ⟨rfl, rfl, rfl⟩
  | cons op ops ih =>
    obtain ⟨hstate, hanswer, hsignals⟩ := ih (turn clock v op).state
    cases hc : op.call? with
    | none =>
      obtain ⟨hkept, hquiet, hother⟩ := take_of_call?_eq_none v (clock v.interpreter.history.size) hc
      have hleft : (turn clock v op).state.interpreter = v.interpreter := hkept
      have hnone : called? (op, (turn clock v op).answer) = none := by
        cases h : (v.take (clock v.interpreter.history.size) op).answer with
        | called answer => exact absurd h (hother answer)
        | _ => simp only [called?, turn, h]
      rw [hleft] at hstate hanswer hsignals
      rw [List.filterMap_cons_none hc]
      refine ⟨hstate, ?_, ?_⟩
      · exact (List.filterMap_cons_none hnone).trans hanswer
      · exact (congrArg (· ++ _) hquiet).trans hsignals
    | some c =>
      have hturn := take_call v (clock v.interpreter.history.size) hc
      have hmade : (turn clock v op).state.interpreter = (v.interpreter.call (clock v.interpreter.history.size) c).state := by
        rw [turn, hturn]
      have hsome : called? (op, (turn clock v op).answer) =
          some (c, (v.interpreter.call (clock v.interpreter.history.size) c).answer) := by
        simp only [called?, turn, hturn, hc, Option.map_some]
      have hgiven : (turn clock v op).signals = (v.interpreter.call (clock v.interpreter.history.size) c).signals := by
        rw [turn, hturn]
      rw [hmade] at hstate hanswer hsignals
      rw [List.filterMap_cons_some hc]
      refine ⟨hstate, ?_, ?_⟩
      · exact (List.filterMap_cons_some hsome).trans (congrArg (_ :: ·) hanswer)
      · exact congrArg₂ (· ++ ·) hgiven hsignals

/-- What stands after a transcript of a run stands in the order of subscribing. -/
theorem standing_ascending : (standing ((new i key).run clock ops).answer).Pairwise (· < ·) := by
  have hsublist := standing_sublist ((new i key).run clock ops).answer
  rw [(run_handedOut clock i key ops).1] at hsublist
  exact List.pairwise_lt_range.sublist hsublist

end Runs

/-- No observer misses a move, and none is called without one. For a run of a new view, in four parts:
1. At every entry of the transcript, those are called whom its answer tells, each with the key of the view; the observers are
   the subscriptions that stand, in the order of subscribing. If the head is elsewhere afterwards, the answer was `true`; to
   pause and to clear the checkpoint is answered with nothing. A new observer gets the number of the observers before it; to
   unsubscribe is answered `true` just if the subscription stands, and removes that one alone.
2. An observer is called once when it subscribes, and then once for every move until it is unsubscribed.
3. The subscriptions are 0, 1, 2 and so on, so no two are the same.
4. The interpreter in the view ends where it would have ended alone, and has answered and signalled the same. -/
theorem observers_called_exactly (i : Interpreter C E) (key : String) (clock : Nat → Stamp) (ops : List (Operation C E ε)) :
    let ended := (new i key).run clock ops
    let viewAfter := fun entries : List (Entry C E ε) => ((new i key).run clock (entries.map Prod.fst)).state
    (∀ before op answer calls after, ended.answer = before ++ (op, answer, calls) :: after →
      let left := viewAfter (before ++ [(op, answer, calls)])
      calls = (told (standing before) answer).map (⟨·, key⟩) ∧
        (viewAfter before).observers = standing before ∧ (standing before).Pairwise (· < ·) ∧
        (left.interpreter.history.head ≠ (viewAfter before).interpreter.history.head → answer = .called (.flag true)) ∧
        (op = .pause ∨ op = .clearPaused → answer = .called .done) ∧
        (op = .observe → answer = .subscribed (handedOut before).length) ∧
        ∀ k, op = .unsubscribe k →
          answer = .removed (decide (k ∈ standing before)) ∧ left.observers = (standing before).erase k) ∧
    (∀ before k calls after, ended.answer = before ++ (.observe, .subscribed k, calls) :: after →
      timesCalled k ended.answer = 1 + movesUntilDropped k after) ∧
    handedOut ended.answer = List.range (ops.countP Operation.subscribes) ∧
    (let alone := i.run clock (ops.filterMap Operation.call?)
     ended.state.interpreter = alone.state ∧ ended.answer.filterMap called? = alone.answer ∧
       ended.signals = alone.signals) := by
  intro ended viewAfter
  have hfaithful : Faithful key ended.answer := run_faithful clock i key ops
  refine ⟨?_, ?_, (run_handedOut clock i key ops).1, run_interpreter clock ops (new i key)⟩
  · intro before op answer calls after hsplit left
    obtain ⟨hentry, hstand, hkey, hleft⟩ := run_entry clock i key ops hsplit
    obtain ⟨hbefore, -⟩ := Turn.run_answer_split hsplit
    have hascending := standing_ascending clock i key (before.map Prod.fst)
    obtain ⟨hrange, hnext⟩ := run_handedOut clock i key (before.map Prod.fst)
    rw [run, hbefore] at hascending hrange
    have hanswer : answer = ((viewAfter before).take _ op).answer := congrArg Prod.fst hentry
    refine ⟨hfaithful.calls before _ after hsplit, hstand, hascending, ?_, ?_, ?_, ?_⟩
    · intro hmoved
      rw [hanswer]
      exact take_head (by rw [← hleft]; exact hmoved)
    · rintro (rfl | rfl) <;> exact hanswer
    · rintro rfl
      rw [hrange, List.length_range, ← hnext]
      exact hanswer
    · rintro k rfl
      have hnodup : (standing before).Nodup := hascending.imp Nat.ne_of_lt
      refine ⟨?_, ?_⟩
      · rw [hanswer, ← List.contains_eq_mem, ← hstand]
        rfl
      · have hremoved : left.observers = (viewAfter before).observers.filter (· ≠ k) := congrArg observers hleft
        rw [hremoved, hstand, hnodup.erase_eq_filter]
        exact List.filter_congr fun k' _ => by rw [bne, beq_eq_decide, decide_not]
  · intro before k calls after hsplit
    rw [hsplit] at hfaithful ⊢
    exact hfaithful.timesCalled_eq rfl

end View

end Chronicle
