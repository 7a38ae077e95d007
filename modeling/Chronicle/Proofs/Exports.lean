import Chronicle.Branches
import Chronicle.Proofs.StampTexts

/-!
# Exports: what others read back

Nodes, snapshots, triggers, counters and overviews are written for others to read. Each reads back from its text as it was. The
hard part is the trigger: `null` is an event and a context like any other, and stands for no parent and no id in the same record;
a trigger without an event is written without that member, never with `null`.
-/

namespace Chronicle

/-! ## Triggers -/

namespace Trigger

variable {E : Type} [Codec E]

/-- The member that names the kind is read first. -/
theorem readMember_kind (room : Nat) (k : Kind) :
    readMember (E := E) room .nothing (some "kind", .text (some k.name)) = .ok (.kind k) := by
  cases k <;> rfl

/-- A trigger is read back if its event is, whatever the event is written as. -/
theorem faithful {t : Trigger E} (h : ∀ e, t = .event e → Codec.Faithful e) : Codec.Faithful t := by
  cases t with
  | none | override =>
    refine ⟨(Json.printable_obj _).mpr (by simp), fun room hroom => ?_⟩
    obtain ⟨inner, rfl, -⟩ := Json.nesting_obj_le.mp hroom
    rfl
  | event e =>
    have he := h e rfl
    refine ⟨(Json.printable_obj _).mpr (by simp [he.printable]), fun room hroom => ?_⟩
    obtain ⟨inner, rfl, hinner⟩ := Json.nesting_obj_le.mp hroom
    have hevent := he.reads inner (hinner ("event", Codec.write e) (by simp))
    have hmember : readMember inner (.kind .event) (some "event", .ofJson (Codec.write e)) = .ok (.both (.event e)) := by
      simp only [readMember, readContent, hevent]
      rfl
    have hmembers : (Document.ofMembers [("kind", .str Kind.event.name), ("event", Codec.write e)]).foldlM
        (readMember inner) .nothing = .ok (.both (.event e)) := by
      rw [Document.ofMembers, List.foldlM_cons, Document.ofJson, readMember_kind]
      show (readMember inner (.kind .event) (some "event", .ofJson (Codec.write e)) >>= pure) = _
      rw [hmember]
      rfl
    show ((Document.ofMembers [("kind", .str Kind.event.name), ("event", Codec.write e)]).foldlM
      (readMember inner) .nothing >>= fun progress => Document.close .closed progress >>= finish) = .ok (.event e)
    rw [hmembers]
    rfl

end Trigger

/-! ## Nodes and snapshots -/

/-- An index of 64 bits is read back. -/
theorem Node.faithful_index {k : Nat} (h : k < UInt64.size) : Codec.Faithful k where
  printable := (Json.printable_int _).mpr ⟨by omega, by exact_mod_cast h⟩
  reads room _ := by
    simp only [Codec.read, Codec.write, Document.ofJson, Document.whole]
    rw [if_pos ⟨by omega, by exact_mod_cast h⟩]
    rfl

section

variable {C E : Type} [Codec C] [Codec E]

/-- A node is read back if its context and its event are, its year has four digits and its parent is an index of 64 bits. -/
theorem Node.faithful {n : Node C E} (hcontext : Codec.Faithful n.context)
    (hevent : ∀ e, n.trigger = .event e → Codec.Faithful e)
    (hyear : 0 ≤ n.timestamp.date.year ∧ n.timestamp.date.year ≤ 9999)
    (hparent : ∀ k, n.parent = some k → k < UInt64.size) : Codec.Faithful n := by
  have hparent : Codec.Faithful n.parent := by
    cases hk : n.parent with
    | none => exact .of_none
    | some k => exact .of_some (Node.faithful_index (hparent k hk)) nofun
  have hid : Codec.Faithful n.id := by
    cases n.id with
    | none => exact .of_none
    | some id => exact .of_some id.faithful nofun
  have hnames : ["state_value", "context", "event", "timestamp", "parent", "id"].Nodup := by decide
  exact Record.faithful_codec rfl hnames ⟨.required (.of_string n.state) _, .required hcontext _,
    .required (Trigger.faithful hevent) _, .required (Timestamp.faithful hyear) _, .required hparent _, .required hid _, trivial⟩

/-- A snapshot is read back if its context and its event are. -/
theorem Snapshot.faithful {s : Snapshot C E} (hcontext : Codec.Faithful s.context)
    (hevent : ∀ e, s.event = .event e → Codec.Faithful e) : Codec.Faithful s := by
  have hnames : ["value", "context", "event", "done"].Nodup := by decide
  exact Record.faithful_codec rfl hnames ⟨.required (.of_string s.value) _, .required hcontext _,
    .required (Trigger.faithful hevent) _, .required (.of_bool s.done) _, trivial⟩

end

/-! ## Counters and overviews -/

theorem Counters.faithful (c : Counters) : Codec.Faithful c :=
  Record.faithful_codec rfl (by decide) ⟨.required (.of_uint64 _) _, .required (.of_uint64 _) _, .required (.of_uint64 _) _,
    .required (.of_uint64 _) _, .required (.of_uint64 _) _, .required (.of_uint64 _) _, .required (.of_uint64 _) _, trivial⟩

theorem Counters.nesting_write (c : Counters) : (Codec.write c).nesting = 1 := rfl

theorem Leaves.faithful (l : Leaves) : Codec.Faithful l :=
  Record.faithful_codec rfl (by decide)
    ⟨.required (.of_bool _) _, .required (.of_bool _) _, .required (.of_bool _) _, trivial⟩

theorem Leaves.nesting_write (l : Leaves) : (Codec.write l).nesting = 1 := rfl

theorem Overview.faithful (o : Overview) : Codec.Faithful o :=
  Record.faithful_codec rfl (by decide) ⟨.required (.of_string _) _, .required (.of_list fun s _ => .of_string s) _,
    .required (.of_string _) _, .required (.of_bool _) _, .required (.of_table fun e _ => e.2.faithful) _, trivial⟩

/-- An overview nests at most three deep. -/
theorem Overview.nesting_write (o : Overview) : (Codec.write o).nesting ≤ 3 := by
  refine Json.nesting_obj_le.mpr ⟨2, rfl, ?_⟩
  simp only [record, Record.forall_members_cons, Field.required, Option.some.injEq]
  refine ⟨?_, ?_, ?_, ?_, ?_, List.forall_mem_nil _⟩
  · rintro j rfl
    exact Nat.zero_le _
  · rintro j rfl
    exact Nat.le_succ_of_le (Codec.nesting_list fun s _ => Nat.zero_le _)
  · rintro j rfl
    exact Nat.zero_le _
  · rintro j rfl
    exact Nat.zero_le _
  · rintro j rfl
    exact Codec.nesting_table fun e _ => Nat.le_of_eq e.2.nesting_write

/-! ## All exports -/

/-- Nodes, snapshots and triggers with events of type `E` read back as they were: if the context is plain and the event, if there is
one, is as `Sound` says; for a node also if its year is one of four digits and its parent an index of 64 bits; and if all of it
nests no deeper than a text may. -/
def ReadBack (E : Type) [Codec E] (Sound : E → Prop) : Prop :=
  (∀ n : Node Json E, n.context.Plain → (∀ e, n.trigger = .event e → Sound e) →
    0 ≤ n.timestamp.date.year ∧ n.timestamp.date.year ≤ 9999 → (∀ k, n.parent = some k → k < UInt64.size) →
    (Codec.write n).nesting ≤ maxNesting → Codec.ofText (Codec.toText n) = .ok n) ∧
  (∀ s : Snapshot Json E, s.context.Plain → (∀ e, s.event = .event e → Sound e) →
    (Codec.write s).nesting ≤ maxNesting → Codec.ofText (Codec.toText s) = .ok s) ∧
  (∀ t : Trigger E, (∀ e, t = .event e → Sound e) →
    (Codec.write t).nesting ≤ maxNesting → Codec.ofText (Codec.toText t) = .ok t)

/-- Whatever type the events are of, what is written around faithful ones reads back. -/
theorem readBack_of_faithful {E : Type} [Codec E] {Sound : E → Prop} (h : ∀ e, Sound e → Codec.Faithful e) :
    ReadBack E Sound := by
  refine ⟨fun n hcontext hevent hyear hparent hroom => ?_, fun s hcontext hevent hroom => ?_, fun t hevent hroom => ?_⟩
  · exact (Node.faithful (.of_json hcontext) (fun e he => h e (hevent e he)) hyear hparent).ofText_toText hroom
  · exact (Snapshot.faithful (.of_json hcontext) fun e he => h e (hevent e he)).ofText_toText hroom
  · exact (Trigger.faithful fun e he => h e (hevent e he)).ofText_toText hroom

/-- What is exported reads back from its text as it was:
1. nodes, snapshots and triggers whose events are JSON values, `null` among them;
2. those whose events are texts;
3. those whose events are texts or none, where an event of none is an event all the same;
4. all counters;
5. the overview of every interpreter. -/
theorem exports_read_back :
    ReadBack Json Json.Plain ∧ ReadBack String (fun _ => True) ∧ ReadBack (Option String) (fun _ => True) ∧
      (∀ c : Counters, Codec.ofText (Codec.toText c) = .ok c) ∧
      ∀ (C E : Type) (i : Interpreter C E), Codec.ofText (Codec.toText i.overview) = .ok i.overview := by
  refine ⟨readBack_of_faithful fun _ => .of_json, readBack_of_faithful fun s _ => .of_string s,
    readBack_of_faithful fun s _ => ?_, fun c => ?_, fun C E i => ?_⟩
  · cases s with
    | none => exact .of_none
    | some s => exact .of_some (.of_string s) nofun
  · exact c.faithful.ofText_toText (by rw [c.nesting_write]; decide)
  · exact i.overview.faithful.ofText_toText (Nat.le_trans i.overview.nesting_write (by decide))

/-- A node of a leap second whose context and event are both `null`, and a snapshot after an event of none. -/
theorem exports_read_back_null :
    let leap : Timestamp := ⟨⟨2016, 12, 31⟩, 86399, 1500000000, by decide, by decide, by decide⟩
    let node : Node Json Json :=
      { state := "idle", context := .null, trigger := .event .null, timestamp := leap, parent := some 0, id := none }
    let snapshot : Snapshot Json (Option String) := ⟨"idle", .arr [.int (-1)], .event none, false⟩
    (node.context.Plain ∧ (∀ e, node.trigger = .event e → e.Plain) ∧ (Codec.write node).nesting ≤ maxNesting) ∧
      Codec.ofText (Codec.toText node) = .ok node ∧
      (snapshot.context.Plain ∧ (Codec.write snapshot).nesting ≤ maxNesting) ∧
      Codec.ofText (Codec.toText snapshot) = .ok snapshot := by
  intro leap node snapshot
  have hnull : Json.null.Plain := ⟨⟨rfl, rfl⟩, rfl⟩
  have hevent : ∀ e, node.trigger = .event e → e.Plain := by
    intro e he
    cases he
    exact hnull
  have hparent : ∀ k, node.parent = some k → k < UInt64.size := by
    intro k hk
    cases hk
    decide
  have hcontext : snapshot.context.Plain := ⟨⟨by decide, by decide⟩, by decide⟩
  have hnode : (Codec.write node).nesting ≤ maxNesting := by decide
  have hsnapshot : (Codec.write snapshot).nesting ≤ maxNesting := by decide
  obtain ⟨⟨hnodes, -⟩, -, ⟨-, hsnapshots, -⟩, -⟩ := exports_read_back
  exact ⟨⟨hnull, hevent, hnode⟩, hnodes node hnull hevent (by decide) hparent hnode, ⟨hcontext, hsnapshot⟩,
    hsnapshots snapshot hcontext (fun _ _ => trivial) hsnapshot⟩

end Chronicle
