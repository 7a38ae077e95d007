import Chronicle.Json.Record
import Chronicle.Proofs.Texts

/-!
# Round trips: what is written reads back

`Codec.Faithful` says of one value that its written form can be printed and reads back as the value, wherever there is room for
it. It is a property of values and not of types, since an index may be too large for its form and a context may hold doubles.
It passes from the parts of a value to the whole: to options, lists and tables here, and to records if their fields have different
names (`Record.faithful_codec`). A faithful value reads back from its text (`Codec.Faithful.ofText_toText`).

The last section goes the other way: what a record holds that was read comes from the document, field by field, or is what the
record type puts in the place of a missing member.
-/

namespace Chronicle

/-- The written form of a value can be printed and reads back, wherever there is room for it. -/
structure Codec.Faithful {α : Type} [Codec α] (v : α) : Prop where
  printable : (Codec.write v).Printable
  reads : ∀ room, (Codec.write v).nesting ≤ room → Codec.read room (.ofJson (Codec.write v)) = .ok v

/-- The text of a value reads back as the value with its members in order. -/
theorem Codec.ofText_render {v : Json} (h : v.Printable) (hroom : v.nesting ≤ maxNesting) :
    Codec.ofText v.render = .ok v.arranged := by
  simp only [Codec.ofText, Document.ofText_render h, Codec.read, Document.value?_arranged hroom]
  rfl

namespace Codec.Faithful

variable {α : Type} [Codec α]

/-- A faithful value reads back from its text. -/
theorem ofText_toText {v : α} (h : Faithful v) (hroom : (Codec.write v).nesting ≤ maxNesting) :
    Codec.ofText (Codec.toText v) = .ok v := by
  simp only [Codec.ofText, Codec.toText, Document.ofText_render h.printable]
  rw [h.reads maxNesting hroom]
  rfl

/-! ## Single values -/

theorem of_json {v : Json} (h : v.Plain) : Faithful v where
  printable := h.toPrintable
  reads room hroom := by simp only [Codec.read, Codec.write, Document.value?_ofJson h.sorted hroom]

theorem of_string (s : String) : Faithful s := ⟨Json.printable_str s, fun _ _ => rfl⟩

theorem of_bool (b : Bool) : Faithful b := ⟨Json.printable_bool b, fun _ _ => rfl⟩

theorem of_uint64 (n : UInt64) : Faithful n where
  printable := by
    have hlt := n.toNat_lt_size
    exact (Json.printable_int _).mpr ⟨by omega, by exact_mod_cast hlt⟩
  reads room _ := by
    have hlt := n.toNat_lt_size
    simp only [Codec.read, Codec.write, Document.ofJson, Document.whole]
    rw [if_pos ⟨by omega, by exact_mod_cast hlt⟩]
    simp [bind, Except.bind, pure, Except.pure]

/-! ## Options, lists and tables -/

/-- Nothing is written as `null`. -/
theorem of_none : Faithful (none : Option α) := ⟨Json.printable_null, fun _ _ => rfl⟩

/-- A document other than `null` says something. -/
theorem read_option {d : Document} (hnull : d ≠ .null) (room : Nat) :
    Codec.read room d = (some <$> Codec.read room d : Except Fault (Option α)) := by
  cases d with
  | null => exact absurd rfl hnull
  | _ => rfl

/-- Something is written as itself, which must not be `null`. -/
theorem of_some {v : α} (h : Faithful v) (hnull : Codec.write v ≠ .null) : Faithful (some v) where
  printable := h.printable
  reads room hroom := by
    have hdocument : Document.ofJson (Codec.write v) ≠ .null := by
      revert hnull
      cases Codec.write v with
      | null => exact fun hnull => absurd rfl hnull
      | _ => exact fun _ => nofun
    show Codec.read room (.ofJson (Codec.write v)) = .ok (some v)
    rw [read_option hdocument, h.reads room hroom]
    rfl

theorem of_list {vs : List α} (h : ∀ v ∈ vs, Faithful v) : Faithful vs where
  printable := by
    refine (Json.printable_arr _).mpr fun j hj => ?_
    obtain ⟨v, hv, rfl⟩ := List.mem_map.mp hj
    exact (h v hv).printable
  reads room hroom := by
    obtain ⟨inner, rfl, hinner⟩ := Json.nesting_arr_le.mp hroom
    have hitems : (Document.ofItems (vs.map Codec.write)).mapM (Codec.read inner) = Except.ok (ε := Fault) vs := by
      clear hroom
      induction vs with
      | nil => rfl
      | cons v rest ih =>
        obtain ⟨hv, hrest⟩ := List.forall_mem_cons.mp h
        obtain ⟨hroom, hinner⟩ := List.forall_mem_cons.mp hinner
        rw [List.map_cons, Document.ofItems, List.mapM_cons, hv.reads inner hroom, ih hrest hinner]
        rfl
    show ((Document.ofItems (vs.map Codec.write)).mapM (Codec.read inner)).bind (Document.close .closed) = .ok vs
    rw [hitems]
    rfl

/-- Ascending entries are read one after another behind those of a table. -/
theorem foldlM_entries {entries : List (String × α)} {room : Nat}
    (h : ∀ e ∈ entries, Codec.read room (.ofJson (Codec.write e.2)) = .ok e.2) {m m' : KeyMap α}
    (hentries : m.entries ++ entries = m'.entries) :
    (Document.ofMembers (entries.map fun e => (e.1, Codec.write e.2))).foldlM
      (Document.tableMember (Codec.read room)) m = .ok m' := by
  induction entries generalizing m with
  | nil =>
    rw [KeyMap.ext_entries (show m.entries = m'.entries by rw [← hentries, List.append_nil])]
    rfl
  | cons e rest ih =>
    obtain ⟨he, hrest⟩ := List.forall_mem_cons.mp h
    have hasc : KeyMap.Ascending (m.entries ++ e :: rest) := hentries ▸ m'.ascending
    have hinsert : (m.insert e.1 e.2).entries = m.entries ++ [e] := KeyMap.insertEntry_of_above e.1 e.2 hasc.below
    have hstep : Document.tableMember (Codec.read room) m (some e.1, .ofJson (Codec.write e.2)) =
        .ok (m.insert e.1 e.2) := by
      simp only [Document.tableMember, he]
      rfl
    rw [List.map_cons, Document.ofMembers, List.foldlM_cons, hstep]
    exact ih hrest (by rw [hinsert, List.append_assoc, List.singleton_append, hentries])

theorem of_table {m : KeyMap α} (h : ∀ e ∈ m.entries, Faithful e.2) : Faithful m where
  printable := by
    refine (Json.printable_obj _).mpr fun j hj => ?_
    obtain ⟨e, he, rfl⟩ := List.mem_map.mp hj
    exact (h e he).printable
  reads room hroom := by
    obtain ⟨inner, rfl, hinner⟩ := Json.nesting_obj_le.mp hroom
    have hentries : (Document.ofMembers (m.entries.map fun e => (e.1, Codec.write e.2))).foldlM
        (Document.tableMember (Codec.read inner)) ∅ = .ok m :=
      foldlM_entries (fun e he => (h e he).reads inner (hinner _ (List.mem_map_of_mem he))) rfl
    show ((Document.ofMembers (m.entries.map fun e => (e.1, Codec.write e.2))).foldlM
      (Document.tableMember (Codec.read inner)) ∅).bind (Document.close .closed) = .ok m
    rw [hentries]
    rfl

end Codec.Faithful

/-- A list nests one deeper than its items. -/
theorem Codec.nesting_list {α : Type} [Codec α] {vs : List α} {n : Nat} (h : ∀ v ∈ vs, (Codec.write v).nesting ≤ n) :
    (Codec.write vs).nesting ≤ n + 1 := by
  refine Json.nesting_arr_le.mpr ⟨n, rfl, fun j hj => ?_⟩
  obtain ⟨v, hv, rfl⟩ := List.mem_map.mp hj
  exact h v hv

/-- A table nests one deeper than its values. -/
theorem Codec.nesting_table {α : Type} [Codec α] {m : KeyMap α} {n : Nat}
    (h : ∀ e ∈ m.entries, (Codec.write e.2).nesting ≤ n) : (Codec.write m).nesting ≤ n + 1 := by
  refine Json.nesting_obj_le.mpr ⟨n, rfl, fun j hj => ?_⟩
  obtain ⟨e, he, rfl⟩ := List.mem_map.mp hj
  exact h e he

/-! ## Records -/

/-- A field whose value is read back from what is written, and is left out only if its absence means it. -/
structure Field.Faithful {α : Type} (field : Field α) (v : α) : Prop where
  printable : ∀ j, field.write v = some j → j.Printable
  reads : ∀ j, field.write v = some j → ∀ room, j.nesting ≤ room → field.read room (.ofJson j) = .ok v
  absent : field.write v = none → field.absent = some v

namespace Field.Faithful

variable {α : Type} [Codec α]

theorem required {v : α} (h : Codec.Faithful v) (name : String) : (Field.required name).Faithful v where
  printable _ hj := by cases hj; exact h.printable
  reads _ hj := by cases hj; exact h.reads
  absent := nofun

theorem defaulted {v : α} (h : Codec.Faithful v) (name : String) (default : α) :
    (Field.defaulted name default).Faithful v where
  printable _ hj := by cases hj; exact h.printable
  reads _ hj := by cases hj; exact h.reads
  absent := nofun

/-- An optional field need not be read back from `null`, since it is left out instead. -/
theorem optional {v : Option α} (h : Codec.Faithful v) (name : String) : (Field.optional name).Faithful v := by
  cases v with
  | none => exact ⟨nofun, nofun, fun _ => rfl⟩
  | some v => exact ⟨fun _ hj => by cases hj; exact h.printable, fun _ hj => by cases hj; exact h.reads, nofun⟩

end Field.Faithful

namespace Record

variable {ρ : Type}

/-- The names of the fields. -/
def names : {ρ : Type} → Record ρ → List String
  | _, .nil => []
  | _, .cons field rest => field.name :: rest.names

/-- Every field is faithful to its value. -/
def Faithful : {ρ : Type} → Record ρ → ρ → Prop
  | _, .nil, () => True
  | _, .cons field rest, (v, vs) => field.Faithful v ∧ rest.Faithful vs

/-- The slots after all that is written has been read. -/
def written : {ρ : Type} → (r : Record ρ) → ρ → r.Slots
  | _, .nil, () => ()
  | _, .cons field rest, (v, vs) => ((field.write v).map fun _ => v, rest.written vs)

/-- What holds of all members that are written holds of the member of the first field, if it is written, and of the others. -/
theorem forall_members_cons {α : Type} {field : Field α} {rest : Record ρ} {v : α} {vs : ρ} {P : String × Json → Prop} :
    (∀ m ∈ (Record.cons field rest).members (v, vs), P m) ↔
      (∀ j, field.write v = some j → P (field.name, j)) ∧ ∀ m ∈ rest.members vs, P m := by
  simp only [members]
  cases field.write v with
  | none => simp
  | some j => simp

/-- Every member that is written has the name of a field. -/
theorem mem_names_of_mem_members {r : Record ρ} {vs : ρ} : ∀ m ∈ r.members vs, m.1 ∈ r.names := by
  induction r with
  | nil => exact List.forall_mem_nil _
  | cons field rest ih =>
    exact forall_members_cons.mpr ⟨fun _ _ => List.mem_cons_self, fun m hm => List.mem_cons_of_mem _ (ih m hm)⟩

/-- What is written of faithful fields can be printed. -/
theorem printable_members {r : Record ρ} {vs : ρ} (h : r.Faithful vs) : ∀ m ∈ r.members vs, m.2.Printable := by
  induction r with
  | nil => exact List.forall_mem_nil _
  | cons field rest ih => exact forall_members_cons.mpr ⟨h.1.printable, ih h.2⟩

/-- A member of another name leaves the slot of a field as it is. -/
theorem readMember_cons {α : Type} {field : Field α} {rest : Record ρ} {name : String} (hname : name ≠ field.name)
    (room : Nat) (slot : Option α) (slots : rest.Slots) (d : Document) :
    (Record.cons field rest).readMember room (slot, slots) (some name, d) =
      (rest.readMember room slots (some name, d)).map fun later => (slot, later) := by
  simp only [readMember, fill, if_neg hname]
  cases rest.fill room name d slots with
  | none =>
    simp only [Option.map_none]
    split <;> rfl
  | some filled => rfl

/-- So do all members of other names. -/
theorem foldlM_cons_members {α : Type} {field : Field α} {rest : Record ρ} {members : List (String × Json)}
    (hnames : ∀ m ∈ members, m.1 ≠ field.name) (room : Nat) (slot : Option α) (slots : rest.Slots) :
    (Document.ofMembers members).foldlM ((Record.cons field rest).readMember room) (slot, slots) =
      ((Document.ofMembers members).foldlM (rest.readMember room) slots).map fun later => (slot, later) := by
  induction members generalizing slots with
  | nil => rfl
  | cons m more ih =>
    obtain ⟨hm, hmore⟩ := List.forall_mem_cons.mp hnames
    rw [Document.ofMembers, List.foldlM_cons, List.foldlM_cons, readMember_cons hm]
    cases rest.readMember room slots (some m.1, .ofJson m.2) with
    | error fault => rfl
    | ok later => exact ih hmore later

/-- Reading what was written fills the slots with what was written. -/
theorem foldlM_members {r : Record ρ} {vs : ρ} (hnames : r.names.Nodup) (h : r.Faithful vs) {room : Nat}
    (hroom : ∀ m ∈ r.members vs, m.2.nesting ≤ room) :
    (Document.ofMembers (r.members vs)).foldlM (r.readMember room) r.blank = .ok (r.written vs) := by
  induction r with
  | nil => rfl
  | cons field rest ih =>
    obtain ⟨v, vs⟩ := vs
    obtain ⟨hname, hnames⟩ := List.nodup_cons.mp hnames
    have hothers : ∀ m ∈ rest.members vs, m.1 ≠ field.name :=
      fun m hm heq => hname (heq ▸ mem_names_of_mem_members m hm)
    simp only [members, written, blank] at hroom ⊢
    cases hwrite : field.write v with
    | none =>
      simp only [hwrite] at hroom
      rw [foldlM_cons_members hothers, ih hnames h.2 hroom]
      rfl
    | some j =>
      simp only [hwrite] at hroom
      obtain ⟨hj, hroom⟩ := List.forall_mem_cons.mp hroom
      have hfill : (Record.cons field rest).readMember room (none, rest.blank) (some field.name, .ofJson j) =
          .ok (some v, rest.blank) := by
        simp only [readMember, fill, ↓reduceIte, Option.isSome_none, Bool.false_eq_true,
          h.1.reads j hwrite room hj]
        rfl
      rw [Document.ofMembers, List.foldlM_cons, hfill]
      show (Document.ofMembers (rest.members vs)).foldlM _ (some v, rest.blank) = _
      rw [foldlM_cons_members hothers, ih hnames h.2 hroom]
      rfl

/-- At the end of what was written, what was left out gets the value that its absence means. -/
theorem finish_written {r : Record ρ} {vs : ρ} (h : r.Faithful vs) : r.finish (r.written vs) = .ok vs := by
  induction r with
  | nil => rfl
  | cons field rest ih =>
    obtain ⟨v, vs⟩ := vs
    have hvalue : ((field.write v).map (fun _ => v) <|> field.absent) = some v := by
      cases hwrite : field.write v with
      | none => exact h.1.absent hwrite
      | some j => rfl
    simp only [finish, written, hvalue, ih h.2]
    rfl

/-- A record with faithful fields of different names is read back. -/
theorem read_members {r : Record ρ} {vs : ρ} (hnames : r.names.Nodup) (h : r.Faithful vs) {room : Nat}
    (hroom : (Json.obj (r.members vs)).nesting ≤ room) : r.read room (.ofJson (.obj (r.members vs))) = .ok vs := by
  obtain ⟨inner, rfl, hinner⟩ := Json.nesting_obj_le.mp hroom
  simp only [Document.ofJson, read, Document.enter]
  rw [foldlM_members hnames h hinner]
  exact finish_written h

/-- A type whose values are records is faithful where their fields are. -/
theorem faithful_codec {r : Record ρ} {α : Type} {fields : α → ρ} {make : ρ → α} {v : α} (hmake : make (fields v) = v)
    (hnames : r.names.Nodup) (h : r.Faithful (fields v)) : @Codec.Faithful α (r.codec fields make) v :=
  @Codec.Faithful.mk α (r.codec fields make) v
    ((Json.printable_obj _).mpr (printable_members h))
    fun room hroom => by
      show make <$> r.read room (.ofJson (.obj (r.members (fields v)))) = .ok v
      rw [read_members hnames h hroom]
      exact congrArg Except.ok hmake

end Record

/-! ## Where the values of a record come from -/

section

variable {ε α β : Type} {x : Except ε α}

/-- What goes on after a step succeeds just if the step does and what goes on from its result. -/
theorem bind_eq_ok {f : α → Except ε β} {b : β} : (x >>= f) = .ok b ↔ ∃ a, x = .ok a ∧ f a = .ok b := by
  cases x with
  | error e => exact ⟨nofun, nofun⟩
  | ok a => exact ⟨fun h => ⟨a, rfl, h⟩, fun ⟨_, ha, h⟩ => by cases ha; exact h⟩

/-- What is made of a result succeeds just if there is one. -/
theorem map_eq_ok {f : α → β} {b : β} : x.map f = .ok b ↔ ∃ a, x = .ok a ∧ f a = b := by
  cases x with
  | error e => exact ⟨nofun, nofun⟩
  | ok a => exact ⟨fun h => ⟨a, rfl, Except.ok.inj h⟩, fun ⟨_, ha, h⟩ => by cases ha; exact congrArg Except.ok h⟩

end

/-- A value is read from a text if it is read from its document and the text is in order up to its end. -/
theorem Codec.ofText_eq_ok {α : Type} [Codec α] {text : String} {v : α} :
    Codec.ofText text = .ok v ↔ (Document.ofText text).2 = true ∧ Codec.read maxNesting (Document.ofText text).1 = .ok v := by
  change (Codec.read maxNesting (Document.ofText text).1 >>= fun w =>
    if (Document.ofText text).2 = true then Except.ok w else Except.error Fault.malformed) = Except.ok v ↔ _
  rw [bind_eq_ok]
  constructor
  · rintro ⟨w, hread, hw⟩
    split at hw
    · rename_i hwhole
      cases hw
      exact ⟨hwhole, hread⟩
    · cases hw
  · rintro ⟨hwhole, hread⟩
    exact ⟨v, hread, if_pos hwhole⟩

/-- What is read from a text is read from its document. -/
theorem Codec.read_of_ofText {α : Type} [Codec α] {text : String} {v : α} (h : Codec.ofText text = .ok v) :
    Codec.read maxNesting (Document.ofText text).1 = .ok v := (Codec.ofText_eq_ok.mp h).2

/-- A field may have the value: it is read from one of the documents, or stands for what is not there. -/
def Field.Yields {α : Type} (field : Field α) (room : Nat) (parts : List Document) (v : α) : Prop :=
  (∃ d ∈ parts, field.read room d = .ok v) ∨ field.absent = some v ∨ field.omitted = some v

namespace Record

variable {ρ : Type}

/-- Every field may have its value. -/
def Yields : {ρ : Type} → Record ρ → Nat → List Document → ρ → Prop
  | _, .nil, _, _, () => True
  | _, .cons field rest, room, parts, (v, vs) => field.Yields room parts v ∧ rest.Yields room parts vs

/-- Every slot that is filled was read from one of the documents. -/
def Filled : {ρ : Type} → (r : Record ρ) → Nat → List Document → r.Slots → Prop
  | _, .nil, _, _, _ => True
  | _, .cons field rest, room, parts, slots =>
    (∀ v, slots.1 = some v → ∃ d ∈ parts, field.read room d = .ok v) ∧ rest.Filled room parts slots.2

theorem filled_blank (r : Record ρ) (room : Nat) (parts : List Document) : r.Filled room parts r.blank := by
  induction r with
  | nil => trivial
  | cons field rest ih => exact ⟨nofun, ih⟩

/-- A member fills a slot with what is read from it. -/
theorem Filled.fill {r : Record ρ} {room : Nat} {parts : List Document} {slots filled : r.Slots}
    (h : r.Filled room parts slots) {name : String} {d : Document} (hd : d ∈ parts)
    (hfill : r.fill room name d slots = some (.ok filled)) : r.Filled room parts filled := by
  induction r with
  | nil => cases hfill
  | cons field rest ih =>
    simp only [Record.fill] at hfill
    split at hfill
    · split at hfill
      · cases hfill
      · obtain ⟨v, hread, rfl⟩ := map_eq_ok.mp (Option.some.inj hfill)
        exact ⟨fun _ hv => ⟨d, hd, by cases hv; exact hread⟩, h.2⟩
    · obtain ⟨inner, hinner, hfilled⟩ := Option.map_eq_some_iff.mp hfill
      obtain ⟨later, rfl, rfl⟩ := map_eq_ok.mp hfilled
      exact ⟨h.1, ih h.2 hinner⟩

theorem Filled.readMember {r : Record ρ} {room : Nat} {parts : List Document} {slots filled : r.Slots}
    (h : r.Filled room parts slots) {m : Option String × Document} (hm : m.2 ∈ parts)
    (hread : r.readMember room slots m = .ok filled) : r.Filled room parts filled := by
  simp only [Record.readMember] at hread
  split at hread
  · cases hread
  · split at hread
    · rename_i hfill
      subst hread
      exact h.fill hm hfill
    · split at hread
      · cases hread
        exact h
      · cases hread

theorem Filled.members {r : Record ρ} {room : Nat} {parts : List Document} {slots filled : r.Slots}
    (h : r.Filled room parts slots) {members : List (Option String × Document)} (hmembers : ∀ m ∈ members, m.2 ∈ parts)
    (hread : members.foldlM (r.readMember room) slots = .ok filled) : r.Filled room parts filled := by
  induction members generalizing slots with
  | nil =>
    cases hread
    exact h
  | cons m rest ih =>
    obtain ⟨hm, hrest⟩ := List.forall_mem_cons.mp hmembers
    rw [List.foldlM_cons] at hread
    obtain ⟨later, hfirst, hread⟩ := bind_eq_ok.mp hread
    exact ih (h.readMember hm hfirst) hrest hread

/-- At the end every field has the value of its slot, or the one that stands for its absence. -/
theorem Filled.finish {r : Record ρ} {room : Nat} {parts : List Document} {slots : r.Slots}
    (h : r.Filled room parts slots) {vs : ρ} (hfinish : r.finish slots = .ok vs) : r.Yields room parts vs := by
  induction r with
  | nil => trivial
  | cons field rest ih =>
    simp only [Record.finish] at hfinish
    split at hfinish
    · rename_i v hv
      obtain ⟨later, hrest, hvs⟩ := bind_eq_ok.mp hfinish
      cases hvs
      refine ⟨?_, ih h.2 hrest⟩
      rw [Option.orElse_eq_orElse, Option.orElse_eq_or, Option.or_eq_some_iff] at hv
      rcases hv with hslot | ⟨-, habsent⟩
      · exact .inl (h.1 v hslot)
      · exact .inr (.inl habsent)
    · cases hfinish

theorem yields_of_readItems {r : Record ρ} {room : Nat} {parts : List Document} {ending : Ending} {ds : List Document}
    {vs : ρ} (hds : ∀ d ∈ ds, d ∈ parts) (h : r.readItems room ending ds = .ok vs) : r.Yields room parts vs := by
  induction r generalizing ds with
  | nil => trivial
  | cons field rest ih =>
    cases ds with
    | nil =>
      simp only [readItems] at h
      split at h
      · split at h
        · rename_i v hv
          obtain ⟨later, hrest, hvs⟩ := bind_eq_ok.mp h
          cases hvs
          exact ⟨.inr (.inr hv), ih hds hrest⟩
        · cases h
      · cases h
    | cons d ds =>
      obtain ⟨hd, hds⟩ := List.forall_mem_cons.mp hds
      obtain ⟨v, hread, h⟩ := bind_eq_ok.mp h
      obtain ⟨later, hrest, hvs⟩ := bind_eq_ok.mp h
      cases hvs
      exact ⟨.inl ⟨d, hd, hread⟩, ih hds hrest⟩

/-- What a record holds that was read comes from the parts of the document, or stands for what is not there. -/
theorem yields_of_read {r : Record ρ} {room : Nat} {d : Document} {vs : ρ} (h : r.read room d = .ok vs) :
    ∃ inner, room = inner + 1 ∧ r.Yields inner d.parts vs := by
  cases room with
  | zero => cases d <;> cases h
  | succ inner =>
    refine ⟨inner, rfl, ?_⟩
    cases d with
    | array items ending => exact yields_of_readItems (fun _ hd => hd) h
    | object members ending =>
      obtain ⟨slots, hread, h⟩ := bind_eq_ok.mp h
      have hfilled : r.Filled inner (Document.object members ending).parts slots :=
        (filled_blank r inner _).members (fun m hm => List.mem_map_of_mem hm) hread
      cases ending with
      | broken => cases h
      | closed => exact hfilled.finish h
    | _ => cases h

end Record

end Chronicle
