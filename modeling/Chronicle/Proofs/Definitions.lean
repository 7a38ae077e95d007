import Chronicle.Machine.Validation
import Chronicle.Proofs.RoundTrips

/-!
# Definitions: written and read back

A definition is written with its optional parts left out and read with what stands for them; the two ways to write an entry are
told apart by their shape. Neither loses anything: a definition with a plain context reads back from its text as it was, if its
text may nest as deep, and what any text is read as is such a definition, unless its context holds a double. Apart from the
context a definition nests at most six deep.
-/

namespace Chronicle

/-! ## Entries and states -/

namespace Target

/-- The members of an entry with actions are read back. -/
theorem faithful_record (state : String) (actions : List String) : record.Faithful (state, actions, ()) :=
  ⟨.required (.of_string state) _, .defaulted (.of_list fun s _ => .of_string s) _ _, trivial⟩

/-- Both ways to write an entry are read back. The members of one with actions do not stand in the order of their names; of the
whole it is only asked that it has a value. -/
theorem faithful (t : Target) : Codec.Faithful t := by
  cases t with
  | bare state => exact ⟨Json.printable_str state, fun _ _ => rfl⟩
  | withActions state actions =>
    refine ⟨(Json.printable_obj _).mpr (Record.printable_members (faithful_record state actions)), fun room hroom => ?_⟩
    have hread := Record.read_members (by decide) (faithful_record state actions) hroom
    have hvalue : ((Document.ofJson (.obj (record.members (state, actions, ())))).value? room).isNone = false :=
      Option.isNone_eq_false_iff.mpr (Document.isSome_value?_ofJson hroom)
    show read room (.ofJson (.obj (record.members (state, actions, ())))) = .ok (.withActions state actions)
    simp only [Document.ofJson] at hread hvalue ⊢
    simp only [read, hvalue, hread]
    rfl

/-- The written form of an entry nests at most two deep. -/
theorem nesting_write (t : Target) : (Codec.write t).nesting ≤ 2 := by
  cases t with
  | bare state => exact Nat.zero_le _
  | withActions state actions =>
    refine Json.nesting_obj_le.mpr ⟨1, rfl, Record.forall_members_cons.mpr
      ⟨fun j hj => ?_, Record.forall_members_cons.mpr ⟨fun j hj => ?_, List.forall_mem_nil _⟩⟩⟩
    · cases hj
      exact Nat.zero_le _
    · cases hj
      exact Codec.nesting_list fun s _ => Nat.zero_le _

end Target

namespace StateEntry

theorem faithful (s : StateEntry) : Codec.Faithful s :=
  Record.faithful_codec rfl (by decide) ⟨.defaulted (.of_table fun e _ => e.2.faithful) _ _, trivial⟩

theorem nesting_write (s : StateEntry) : (Codec.write s).nesting ≤ 4 := by
  refine Json.nesting_obj_le.mpr ⟨3, rfl, Record.forall_members_cons.mpr ⟨fun j hj => ?_, List.forall_mem_nil _⟩⟩
  cases hj
  exact Codec.nesting_table fun e _ => e.2.nesting_write

end StateEntry

/-! ## Definitions -/

namespace Definition

section

variable {C : Type} [Codec C]

/-- A definition is read back if its context is. -/
theorem faithful {d : Definition C} (h : Codec.Faithful d.context) : Codec.Faithful d := by
  have hid : Codec.Faithful d.id := by
    cases d.id with
    | none => exact .of_none
    | some id => exact .of_some (.of_string id) nofun
  have hfallback : Codec.Faithful d.fallback := by
    cases d.fallback with
    | none => exact .of_none
    | some table => exact .of_some (.of_table fun e _ => e.2.faithful) nofun
  have hnames : ["id", "initial", "context", "states", "on"].Nodup := by decide
  exact Record.faithful_codec rfl hnames ⟨.optional hid _, .required (.of_string d.initial) _, .required h _,
    .defaulted (.of_table fun e _ => e.2.faithful) _ _, .optional hfallback _, trivial⟩

/-- Apart from its context a definition nests at most six deep. -/
theorem nesting_write {d : Definition C} {n : Nat} (h : (Codec.write d.context).nesting ≤ n) (hn : 5 ≤ n) :
    (Codec.write d).nesting ≤ n + 1 := by
  refine Json.nesting_obj_le.mpr ⟨n, rfl, ?_⟩
  simp only [record, Record.forall_members_cons, Field.optional, Field.required, Field.defaulted, Option.map_eq_some_iff,
    Option.some.injEq]
  refine ⟨?_, ?_, ?_, ?_, ?_, List.forall_mem_nil _⟩
  · rintro j ⟨id, -, rfl⟩
    exact Nat.zero_le _
  · rintro j rfl
    exact Nat.zero_le _
  · rintro j rfl
    exact h
  · rintro j rfl
    exact Nat.le_trans (Codec.nesting_table fun e _ => e.2.nesting_write) hn
  · rintro j ⟨table, -, rfl⟩
    exact Nat.le_trans (Codec.nesting_table fun e _ => e.2.nesting_write) (by omega)

end

/-- The context of a definition that was read from a text is sorted, nests less deep than the text may, and its whole numbers fit
64 bits. It is a value that stands in the text, as nothing is put in the place of a missing context. -/
theorem context_of_ofText {text : String} {d : Definition Json} (h : Codec.ofText text = .ok d) :
    d.context.Sorted ∧ d.context.nesting ≤ 126 ∧ d.context.Fits := by
  obtain ⟨⟨id, initial, context, states, fallback, ⟨⟩⟩, hfields, hd⟩ := map_eq_ok.mp (Codec.read_of_ofText h)
  cases hd
  obtain ⟨inner, hinner, -, -, hcontext, -⟩ := Record.yields_of_read hfields
  cases hinner
  obtain ⟨part, hpart, hread⟩ : ∃ part ∈ (Document.ofText text).1.parts, Codec.read 126 part = .ok context := by
    rcases hcontext with hpart | habsent | homitted
    · exact hpart
    · cases habsent
    · cases homitted
  simp only [Codec.read] at hread
  split at hread
  · rename_i v hvalue
    cases hread
    obtain ⟨hsorted, hroom, hfits⟩ := Document.value?_spec hvalue
    exact ⟨hsorted, hroom, hfits (Document.fits_of_mem_parts (Document.fits_ofText text) hpart)⟩
  · cases hread

/-- Writing a definition and reading it back, and reading a text, writing what it says and reading that:
1. every definition whose context is a plain value (no double in it, whole numbers of 64 bits, names ascending) reads back as it
   was from its own text, if that nests no deeper than a text may;
2. so does every machine, from the text of its definition, and it is valid again;
3. whatever text a definition was read from, it reads back from the text it is written as, if no double stands in its context. -/
theorem written_definition_reads_back :
    (∀ d : Definition Json, d.context.Plain → (Codec.write d).nesting ≤ maxNesting →
      Codec.ofText (Codec.toText d) = .ok d) ∧
    (∀ m : Machine Json, m.context.Plain → (Codec.write m.definition).nesting ≤ maxNesting →
      Machine.ofText (Codec.toText m.definition) = .ok m) ∧
    (∀ (text : String) (d : Definition Json), Codec.ofText text = .ok d → d.context.FloatFree →
      Codec.ofText (Codec.toText d) = .ok d) := by
  refine ⟨fun d hplain hroom => ?_, fun m hplain hroom => ?_, fun text d htext hfree => ?_⟩
  · exact (faithful (.of_json hplain)).ofText_toText hroom
  · have hread := (faithful (.of_json hplain)).ofText_toText hroom
    simp only [Machine.ofText, hread, Machine.ofDefinition, m.valid, ↓reduceDIte]
  · obtain ⟨hsorted, hroom, hfits⟩ := context_of_ofText htext
    have hplain : d.context.Plain := { floatFree := hfree, fits := hfits, sorted := hsorted }
    exact (faithful (.of_json hplain)).ofText_toText (nesting_write hroom (by decide))

/-- A definition with no id, a state with both kinds of entries, an empty table for the whole machine and a context of its own; and
one that is read from an array with the last parts left off. -/
theorem written_definition_reads_back_burger :
    let burger : Definition Json :=
      Definition.withState { initial := "idle", context := .obj [("count", .int 0), ("note", .null)], fallback := some ∅ }
        "idle" (StateEntry.on (StateEntry.on {} "START" (.withActions "cooking" [])) "STOP" (.bare "idle"))
    let machine : Machine Json := ⟨burger, by decide⟩
    let short : Definition Json := { initial := "idle", context := .int 0 }
    let text := "[null,\"idle\",0]"
    (burger.context.Plain ∧ (Codec.write burger).nesting ≤ maxNesting) ∧
      Codec.ofText (Codec.toText burger) = .ok burger ∧ Machine.ofText (Codec.toText burger) = .ok machine ∧
      (Codec.ofText text = .ok short ∧ short.context.FloatFree) ∧ Codec.ofText (Codec.toText short) = .ok short := by
  intro burger machine short text
  have hplain : burger.context.Plain := ⟨⟨by decide, by decide⟩, by decide⟩
  have hroom : (Codec.write burger).nesting ≤ maxNesting := by decide
  have hscan : Scan.run text.toList = ⟨.between, [.closeArray, .number ⟨false, [0], [], none⟩, .comma, .text (some "idle"),
      .comma, .null, .openArray]⟩ := by decide +kernel
  have htext : Codec.ofText text = .ok short := by
    simp only [Codec.ofText, Document.ofText, hscan]
    rfl
  have hfree : short.context.FloatFree := by decide
  exact ⟨⟨hplain, hroom⟩, written_definition_reads_back.1 burger hplain hroom,
    written_definition_reads_back.2.1 machine hplain hroom, ⟨htext, hfree⟩,
    written_definition_reads_back.2.2 text short htext hfree⟩

end Definition

end Chronicle
