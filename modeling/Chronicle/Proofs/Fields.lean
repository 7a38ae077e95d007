import Chronicle.Proofs.RoundTrips

/-!
# Fields: what is read of an object, told from its members

An object is read member by member, and what comes of it can be told from all of them at once: a record from what stands under the
names of its fields (`Record.read_object_iff`), and a table from what stands last under each name (`Document.table_get?`). Where the
members stand does not matter. The value of a document is looked up in the same way (`Document.at?_value?`).
-/

namespace Chronicle

/-! ## What is found in two places -/

section

variable {α β γ δ : Type} {R : α → β → Prop} {S : γ → δ → Prop} {x x' : Option α} {y y' : Option β}

theorem rel_imp {R' : α → β → Prop} (h : Option.Rel R x y) (himp : ∀ a b, R a b → R' a b) : Option.Rel R' x y := by
  cases h with
  | none => exact Option.Rel.none
  | some hab => exact Option.Rel.some (himp _ _ hab)

theorem exists_of_rel_some {a : α} (h : Option.Rel R (some a) y) : ∃ b, y = some b ∧ R a b := by
  cases h with
  | some hab => exact ⟨_, rfl, hab⟩

theorem eq_none_of_rel_none (h : Option.Rel R none y) : y = none := by
  cases h with
  | none => rfl

/-- What is found at a second step is related if it is from everything related that was found at the first. -/
theorem rel_bind {f : α → Option γ} {g : β → Option δ} (h : Option.Rel R x y)
    (hstep : ∀ a b, x = some a → R a b → Option.Rel S (f a) (g b)) : Option.Rel S (x.bind f) (y.bind g) := by
  cases h with
  | none => exact Option.Rel.none
  | some hab => exact hstep _ _ rfl hab

/-- What is made of related things is the same if it is of each two of them. -/
theorem map_eq_map_of_rel {f : α → γ} {g : β → γ} (h : Option.Rel R x y) (hmap : ∀ a b, R a b → f a = g b) :
    x.map f = y.map g := by
  cases h with
  | none => rfl
  | some hab => exact congrArg some (hmap _ _ hab)

/-- What is found in the one place or else in another is related if it is at both. -/
theorem rel_orElse (h : Option.Rel R x y) (h' : Option.Rel R x' y') : Option.Rel R (x <|> x') (y <|> y') := by
  cases h with
  | none => exact h'
  | some hab => exact Option.Rel.some hab

end

/-- What stands in a value at the end of a path of names. -/
def Json.at? : List String → Json → Option Json
  | [], v => some v
  | name :: path, v => (v.get? name).bind (at? path)

namespace Document

/-- What stands under a name, in the order of the text. -/
def named (name : String) (members : List (Option String × Document)) : List Document :=
  (members.filter (·.1 = some name)).map Prod.snd

/-- What stands under a name in an object; of several the last. -/
def get? (name : String) : Document → Option Document
  | .object members _ => (named name members).getLast?
  | _ => none

/-- What stands in a document at the end of a path of names. -/
def at? : List String → Document → Option Document
  | [], d => some d
  | name :: path, d => (d.get? name).bind (at? path)

/-- The fields of a record with the given names: the members of an object, or the items of an array by their place. -/
def fields (names : List String) : Document → List (Option String × Document)
  | .object members _ => members
  | .array items _ => (names.map some).zip items
  | _ => []

/-! ## Members of a name -/

theorem get?_object (name : String) (members : List (Option String × Document)) (ending : Ending) :
    (object members ending).get? name = (named name members).getLast? := rfl

theorem named_cons (name : String) (m : Option String × Document) (members : List (Option String × Document)) :
    named name (m :: members) = if m.1 = some name then m.2 :: named name members else named name members := by
  unfold named
  rw [List.filter_cons]
  by_cases hm : m.1 = some name
  · simp [hm]
  · simp [hm]

/-- What is found in an object under a name stands there. -/
theorem mem_of_get? {name : String} {members : List (Option String × Document)} {ending : Ending} {part : Document}
    (h : (object members ending).get? name = some part) : part ∈ named name members :=
  List.mem_of_getLast? h

theorem mem_named {name : String} {members : List (Option String × Document)} {d : Document} :
    d ∈ named name members ↔ (some name, d) ∈ members := by
  simp [named]

/-- What is found in a document is a part of it. -/
theorem mem_parts_of_get? {d part : Document} {name : String} (h : d.get? name = some part) : part ∈ d.parts := by
  cases d with
  | object members ending => exact List.mem_map_of_mem (f := Prod.snd) (mem_named.mp (mem_of_get? h))
  | _ => cases h

/-- Leaving out the members of one name leaves those of another. -/
theorem named_filter {name other : String} (h : name ≠ other) (members : List (Option String × Document)) :
    named name (members.filter (·.1 ≠ some other)) = named name members := by
  unfold named
  rw [List.filter_filter]
  congr 1
  refine List.filter_congr fun m _ => ?_
  by_cases hm : m.1 = some name
  · simp [hm, h]
  · simp [hm]

end Document

/-! ## Records -/

/-- A field has its value from all that stands under its name: one document that is read, or nothing where that may be. -/
def Field.Takes {α : Type} (field : Field α) (room : Nat) (parts : List Document) (v : α) : Prop :=
  (parts = [] ∧ field.absent = some v) ∨ ∃ d, parts = [d] ∧ field.read room d = .ok v

/-- The slot of a field is filled from all that stands under its name: from one document if it was empty, and left if there is
none. -/
def Field.Fills {α : Type} (field : Field α) (room : Nat) (slot : Option α) (parts : List Document) (filled : Option α) : Prop :=
  (parts = [] ∧ filled = slot) ∨ (slot = none ∧ ∃ d v, parts = [d] ∧ field.read room d = .ok v ∧ filled = some v)

/-- A slot that was empty holds at the end the value that the field has, if something stands for its absence. -/
theorem Field.exists_fills_iff {α : Type} {field : Field α} {room : Nat} {parts : List Document} {v : α} :
    (∃ filled, field.Fills room none parts filled ∧ (filled <|> field.absent) = some v) ↔ field.Takes room parts v := by
  constructor
  · rintro ⟨filled, ⟨hparts, rfl⟩ | ⟨-, d, w, hparts, hread, rfl⟩, hv⟩
    · exact Or.inl ⟨hparts, hv⟩
    · cases hv
      exact Or.inr ⟨d, hparts, hread⟩
  · rintro (⟨hparts, habsent⟩ | ⟨d, hparts, hread⟩)
    · exact ⟨none, Or.inl ⟨hparts, rfl⟩, habsent⟩
    · exact ⟨some v, Or.inr ⟨rfl, d, v, hparts, hread, rfl⟩, rfl⟩

namespace Record

open Document (named named_cons)

variable {ρ : Type}

/-- Something holds of every field. -/
def All (P : ∀ {α : Type}, Field α → Prop) : {ρ : Type} → Record ρ → Prop
  | _, .nil => True
  | _, .cons field rest => P field ∧ rest.All P

/-- Every field has its value from what stands under its name. -/
def Takes : {ρ : Type} → Record ρ → Nat → List (Option String × Document) → ρ → Prop
  | _, .nil, _, _, () => True
  | _, .cons field rest, room, members, (v, vs) =>
    field.Takes room (named field.name members) v ∧ rest.Takes room members vs

/-- Every document that stands under the name of a field can be read as its value. -/
def Readable (r : Record ρ) (room : Nat) (members : List (Option String × Document)) : Prop :=
  r.All fun field => ∀ d ∈ named field.name members, ∃ v, field.read room d = .ok v

/-- The members of an object are in order, those of the fields apart: every name means a text, and under names that no field has
stands what is whole. -/
def Skips (r : Record ρ) (members : List (Option String × Document)) : Prop :=
  ∀ m ∈ members, ∃ name, m.1 = some name ∧ (name ∈ r.names ∨ m.2.isWhole)

theorem All.imp {P Q : ∀ {α : Type}, Field α → Prop} {r : Record ρ} (h : r.All P)
    (himp : ∀ {α : Type} (field : Field α), field.name ∈ r.names → P field → Q field) : r.All Q := by
  induction r with
  | nil => trivial
  | cons field rest ih =>
    exact ⟨himp field List.mem_cons_self h.1, ih h.2 fun field hmem => himp field (List.mem_cons_of_mem _ hmem)⟩

theorem all_of_forall {P : ∀ {α : Type}, Field α → Prop} (h : ∀ {α : Type} (field : Field α), P field) (r : Record ρ) :
    r.All P := by
  induction r with
  | nil => trivial
  | cons field rest ih => exact ⟨h field, ih⟩

/-- Reading the members of an object reads those of the first field's name into its slot, and the others into the later slots. A
member of that name finds the slot empty and leaves it full for all that follow; one without a name is refused. -/
theorem foldlM_cons_iff {α : Type} {field : Field α} {rest : Record ρ} {room : Nat}
    {members : List (Option String × Document)} {slot filled : Option α} {slots later : rest.Slots} :
    members.foldlM ((Record.cons field rest).readMember room) (slot, slots) = .ok (filled, later) ↔
      field.Fills room slot (named field.name members) filled ∧
        (members.filter (·.1 ≠ some field.name)).foldlM (rest.readMember room) slots = .ok later := by
  induction members generalizing slot slots with
  | nil =>
    constructor
    · intro h
      cases h
      exact ⟨Or.inl ⟨rfl, rfl⟩, rfl⟩
    · rintro ⟨⟨-, rfl⟩ | ⟨-, d, v, hparts, -, -⟩, hlater⟩
      · cases hlater
        rfl
      · cases hparts
  | cons m members ih =>
    obtain ⟨key, d⟩ := m
    cases key with
    | none =>
      rw [List.foldlM_cons, List.filter_cons_of_pos (by simp), List.foldlM_cons]
      constructor
      · intro h
        cases h
      · rintro ⟨-, h⟩
        cases h
    | some name =>
      by_cases hname : name = field.name
      · subst hname
        have hfirst : (Record.cons field rest).readMember room (slot, slots) (some field.name, d) =
            if slot.isSome then .error (.duplicateField field.name) else (field.read room d).map fun v => (some v, slots) := by
          simp only [readMember, fill, if_true]
        rw [List.foldlM_cons, hfirst, bind_eq_ok, named_cons, if_pos rfl, List.filter_cons_of_neg (by simp)]
        constructor
        · rintro ⟨⟨slot', slots'⟩, hslot, h⟩
          obtain ⟨hfills, hlater⟩ := ih.mp h
          split at hslot
          · cases hslot
          · rename_i hempty
            obtain ⟨v, hread, hv⟩ := map_eq_ok.mp hslot
            cases hv
            refine ⟨Or.inr ⟨by simpa using hempty, d, v, ?_, hread, ?_⟩, hlater⟩
            · rcases hfills with ⟨hnone, -⟩ | ⟨hsome, -⟩
              · rw [hnone]
              · cases hsome
            · rcases hfills with ⟨-, hfilled⟩ | ⟨hsome, -⟩
              · exact hfilled
              · cases hsome
        · rintro ⟨⟨hparts, -⟩ | ⟨rfl, d', v, hparts, hread, rfl⟩, hlater⟩
          · cases hparts
          · obtain ⟨rfl, hnone⟩ := List.cons.inj hparts
            refine ⟨(some v, slots), ?_, ih.mpr ⟨Or.inl ⟨hnone, rfl⟩, hlater⟩⟩
            rw [if_neg (by simp), hread]
            rfl
      · have hfirst : (Record.cons field rest).readMember room (slot, slots) (some name, d) =
            (rest.readMember room slots (some name, d)).map fun later => (slot, later) :=
          readMember_cons hname room slot slots d
        rw [List.foldlM_cons, hfirst, named_cons, if_neg (by simpa using hname),
          List.filter_cons_of_pos (by simpa using hname), List.foldlM_cons]
        cases rest.readMember room slots (some name, d) with
        | error e =>
          constructor
          · intro h
            cases h
          · rintro ⟨-, h⟩
            cases h
        | ok slots' => exact ih

/-- Which value every field has depends only on what stands under the names of the fields. -/
theorem Takes.congr {r : Record ρ} {room : Nat} {members members' : List (Option String × Document)} {vs : ρ}
    (h : r.Takes room members vs) (hsame : ∀ name ∈ r.names, named name members = named name members') :
    r.Takes room members' vs := by
  induction r with
  | nil => trivial
  | cons field rest ih =>
    obtain ⟨hfield, hrest⟩ := List.forall_mem_cons.mp hsame
    refine ⟨?_, ih h.2 hrest⟩
    rw [← hfield]
    exact h.1

/-- Whether the fields can be read depends only on what stands under their names. -/
theorem Readable.congr {r : Record ρ} {room : Nat} {members members' : List (Option String × Document)}
    (h : r.Readable room members) (hsame : ∀ name ∈ r.names, named name members = named name members') :
    r.Readable room members' := by
  refine h.imp fun field hmem hread => ?_
  rw [← hsame field.name hmem]
  exact hread

/-- Members that belong to no field of the first name are in order for the later fields just if they are for all. -/
theorem skips_cons {α : Type} {field : Field α} {rest : Record ρ} {members : List (Option String × Document)} :
    (Record.cons field rest).Skips members ↔ rest.Skips (members.filter (·.1 ≠ some field.name)) := by
  constructor
  · intro h m hm
    obtain ⟨hm, hother⟩ := List.mem_filter.mp hm
    obtain ⟨name, hname, hmem | hwhole⟩ := h m hm
    · rcases List.mem_cons.mp hmem with rfl | hmem
      · simp [hname] at hother
      · exact ⟨name, hname, Or.inl hmem⟩
    · exact ⟨name, hname, Or.inr hwhole⟩
  · intro h m hm
    by_cases hfield : m.1 = some field.name
    · exact ⟨field.name, hfield, Or.inl List.mem_cons_self⟩
    · obtain ⟨name, hname, hmem | hwhole⟩ := h m (List.mem_filter.mpr ⟨hm, by simpa using hfield⟩)
      · exact ⟨name, hname, Or.inl (List.mem_cons_of_mem _ hmem)⟩
      · exact ⟨name, hname, Or.inr hwhole⟩

/-- Without fields, all that can be read is what is skipped. -/
theorem foldlM_nil_iff {room : Nat} {members : List (Option String × Document)} :
    members.foldlM (Record.nil.readMember room) () = .ok () ↔ Record.nil.Skips members := by
  induction members with
  | nil => exact ⟨fun _ => List.forall_mem_nil _, fun _ => rfl⟩
  | cons m members ih =>
    obtain ⟨key, d⟩ := m
    unfold Skips
    rw [List.foldlM_cons, bind_eq_ok, List.forall_mem_cons]
    cases key with
    | none =>
      constructor
      · rintro ⟨⟨⟩, hfirst, -⟩
        cases hfirst
      · rintro ⟨⟨name, hname, -⟩, -⟩
        cases hname
    | some name =>
      by_cases hwhole : d.isWhole
      · have hfirst : Record.nil.readMember room () (some name, d) = .ok () := by simp [readMember, fill, hwhole]
        constructor
        · rintro ⟨⟨⟩, -, h⟩
          exact ⟨⟨name, rfl, Or.inr hwhole⟩, ih.mp h⟩
        · rintro ⟨-, h⟩
          exact ⟨(), hfirst, ih.mpr h⟩
      · constructor
        · rintro ⟨⟨⟩, hfirst, -⟩
          simp [readMember, fill, hwhole] at hfirst
        · rintro ⟨⟨name', -, hmem | hwhole'⟩, -⟩
          · cases hmem
          · exact absurd hwhole' hwhole

/-- The members of an object give all fields their values just if they are in order and every field has its value from what
stands under its name. -/
theorem exists_slots_iff {r : Record ρ} (hnames : r.names.Nodup) {room : Nat} {members : List (Option String × Document)}
    {vs : ρ} : (∃ slots, members.foldlM (r.readMember room) r.blank = .ok slots ∧ r.finish slots = .ok vs) ↔
      r.Skips members ∧ r.Takes room members vs := by
  induction r generalizing members with
  | nil =>
    constructor
    · rintro ⟨⟨⟩, hread, -⟩
      exact ⟨foldlM_nil_iff.mp hread, trivial⟩
    · rintro ⟨hskips, -⟩
      exact ⟨(), foldlM_nil_iff.mpr hskips, rfl⟩
  | cons field rest ih =>
    obtain ⟨hname, hnames⟩ := List.nodup_cons.mp hnames
    obtain ⟨v, ws⟩ := vs
    have hothers : ∀ name ∈ rest.names, named name (members.filter (·.1 ≠ some field.name)) = named name members := by
      intro name hmem
      refine Document.named_filter ?_ members
      rintro rfl
      exact hname hmem
    rw [skips_cons]
    constructor
    · rintro ⟨⟨filled, later⟩, hread, hfinish⟩
      obtain ⟨hfills, hlater⟩ := foldlM_cons_iff.mp hread
      simp only [finish] at hfinish
      split at hfinish
      · rename_i v' hv
        obtain ⟨ws', hrest, hws⟩ := bind_eq_ok.mp hfinish
        cases hws
        obtain ⟨hskips, htakes⟩ := (ih hnames).mp ⟨later, hlater, hrest⟩
        exact ⟨hskips, Field.exists_fills_iff.mp ⟨filled, hfills, hv⟩, htakes.congr hothers⟩
      · cases hfinish
    · rintro ⟨hskips, hfield, hrest⟩
      obtain ⟨later, hlater, hfinish⟩ := (ih hnames).mpr ⟨hskips, hrest.congr fun name hmem => (hothers name hmem).symm⟩
      obtain ⟨filled, hfills, hv⟩ := Field.exists_fills_iff.mpr hfield
      refine ⟨(filled, later), foldlM_cons_iff.mpr ⟨hfills, hlater⟩, ?_⟩
      simp only [finish, hv, hfinish]
      rfl

/-- What is read of an object as a record: where it is closed and in order, the values that the fields have from what stands under
their names. -/
theorem read_object_iff {r : Record ρ} (hnames : r.names.Nodup) {room : Nat} {members : List (Option String × Document)}
    {ending : Ending} {vs : ρ} : r.read room (.object members ending) = .ok vs ↔
      ∃ inner, room = inner + 1 ∧ ending = .closed ∧ r.Skips members ∧ r.Takes inner members vs := by
  cases room with
  | zero =>
    constructor
    · intro h
      cases h
    · rintro ⟨inner, h, -⟩
      cases h
  | succ inner =>
    have hread : r.read (inner + 1) (.object members ending) = .ok vs ↔
        ending = .closed ∧ ∃ slots, members.foldlM (r.readMember inner) r.blank = .ok slots ∧ r.finish slots = .ok vs := by
      constructor
      · intro h
        obtain ⟨slots, hslots, h⟩ := bind_eq_ok.mp h
        cases ending with
        | broken => cases h
        | closed => exact ⟨rfl, slots, hslots, h⟩
      · rintro ⟨rfl, slots, hslots, hfinish⟩
        exact bind_eq_ok.mpr ⟨slots, hslots, hfinish⟩
    rw [hread, exists_slots_iff hnames]
    constructor
    · rintro ⟨hclosed, hskips, htakes⟩
      exact ⟨inner, rfl, hclosed, hskips, htakes⟩
    · rintro ⟨inner', hinner, hclosed, hskips, htakes⟩
      cases hinner
      exact ⟨hclosed, hskips, htakes⟩

theorem readable_of_takes {r : Record ρ} {room : Nat} {members : List (Option String × Document)} {vs : ρ}
    (h : r.Takes room members vs) : r.Readable room members := by
  induction r with
  | nil => trivial
  | cons field rest ih =>
    obtain ⟨hfield, hrest⟩ := h
    refine ⟨fun d hd => ?_, ih hrest⟩
    rcases hfield with ⟨hparts, -⟩ | ⟨d', hparts, hread⟩
    · rw [hparts] at hd
      cases hd
    · rw [hparts, List.mem_singleton] at hd
      subst hd
      exact ⟨_, hread⟩

/-- In an array that was read the field of each place can be read. -/
theorem readable_of_readItems {r : Record ρ} (hnames : r.names.Nodup) {room : Nat} {ending : Ending} {items : List Document}
    {vs : ρ} (h : r.readItems room ending items = .ok vs) : r.Readable room ((r.names.map some).zip items) := by
  induction r generalizing items with
  | nil => trivial
  | cons field rest ih =>
    obtain ⟨hname, hnames⟩ := List.nodup_cons.mp hnames
    cases items with
    | nil =>
      rw [List.zip_nil_right]
      exact all_of_forall (fun _ => List.forall_mem_nil _) _
    | cons d items =>
      obtain ⟨v, hread, h⟩ := bind_eq_ok.mp h
      obtain ⟨ws, hrest, -⟩ := bind_eq_ok.mp h
      have hnone : named field.name ((rest.names.map some).zip items) = [] := by
        refine List.eq_nil_iff_forall_not_mem.mpr fun d hd => ?_
        have hmem := (List.of_mem_zip (Document.mem_named.mp hd)).1
        exact hname (by simpa using hmem)
      show (Record.cons field rest).Readable room ((some field.name, d) :: (rest.names.map some).zip items)
      refine ⟨fun d' hd' => ?_, (ih hnames hrest).congr fun name hmem => ?_⟩
      · rw [named_cons, if_pos rfl, hnone, List.mem_singleton] at hd'
        subst hd'
        exact ⟨v, hread⟩
      · rw [named_cons, if_neg]
        intro heq
        cases heq
        exact hname hmem

/-- Whatever stands as a field in a record that was read, in either form, can be read as its value. -/
theorem readable_of_read {r : Record ρ} (hnames : r.names.Nodup) {room : Nat} {d : Document} {vs : ρ}
    (h : r.read room d = .ok vs) : ∃ inner, room = inner + 1 ∧ r.Readable inner (d.fields r.names) := by
  cases d with
  | object members ending =>
    obtain ⟨inner, hroom, -, -, htakes⟩ := (read_object_iff hnames).mp h
    exact ⟨inner, hroom, readable_of_takes htakes⟩
  | array items ending =>
    cases room with
    | zero => cases h
    | succ inner => exact ⟨inner, rfl, readable_of_readItems hnames h⟩
  | _ => cases h

end Record

/-- A field that has a value has it from what is found under its name, if anything is. -/
theorem Field.Takes.get? {α : Type} {field : Field α} {room : Nat} {members : List (Option String × Document)} {v : α}
    (h : field.Takes room (Document.named field.name members) v) (ending : Ending) :
    ((Document.object members ending).get? field.name = none ∧ field.absent = some v) ∨
      ∃ d, (Document.object members ending).get? field.name = some d ∧ field.read room d = .ok v := by
  rw [Document.get?_object]
  rcases h with ⟨hparts, habsent⟩ | ⟨d, hparts, hread⟩
  · exact Or.inl ⟨by rw [hparts]; rfl, habsent⟩
  · exact Or.inr ⟨d, by rw [hparts]; rfl, hread⟩

/-! ## Tables -/

namespace Document

/-- Under a name stands what belongs to the last member of that name, or what stood there before if there is none. -/
def Last {β : Type} (R : Document → β → Prop) (name : String) (members : List (Option String × Document))
    (before after : Option β) : Prop :=
  (named name members = [] ∧ after = before) ∨
    ∃ d v, (named name members).getLast? = some d ∧ after = some v ∧ R d v

/-- What belongs to a first member stands under its name before the others. -/
theorem Last.cons {β : Type} {R : Document → β → Prop} {name key : String} {members : List (Option String × Document)}
    {before between after : Option β} (h : Last R name members between after) {d : Document} {v : β}
    (hbetween : between = if name = key then some v else before) (hd : R d v) :
    Last R name ((some key, d) :: members) before after := by
  unfold Last
  rw [named_cons]
  rcases h with ⟨hnone, hafter⟩ | ⟨d', v', hlast, hafter, hd'⟩
  · rw [hbetween] at hafter
    by_cases hname : name = key
    · rw [if_pos hname] at hafter
      exact Or.inr ⟨d, v, by rw [if_pos (congrArg some hname.symm), hnone]; rfl, hafter, hd⟩
    · rw [if_neg hname] at hafter
      refine Or.inl ⟨?_, hafter⟩
      rw [if_neg fun heq => hname (Option.some.inj heq).symm, hnone]
  · right
    refine ⟨d', v', ?_, hafter, hd'⟩
    split
    · rw [List.getLast?_cons, hlast, Option.getD_some]
    · exact hlast

/-- What stands under a name at the end is what stands last under it among the members, if nothing stood there before. -/
theorem Last.rel {β : Type} {R : Document → β → Prop} {name : String} {members : List (Option String × Document)}
    {after : Option β} (h : Last R name members none after) (ending : Ending) :
    Option.Rel R ((object members ending).get? name) after := by
  rw [get?_object]
  rcases h with ⟨hnone, rfl⟩ | ⟨d, v, hlast, rfl, hd⟩
  · rw [hnone]
    exact Option.Rel.none
  · rw [hlast]
    exact Option.Rel.some hd

section

variable {α : Type} {value : Document → Except Fault α}

/-- What is found under a name, after the members of a table were read, was read of the last member of that name. -/
theorem last_of_foldlM {members : List (Option String × Document)} {m m' : KeyMap α}
    (h : members.foldlM (tableMember value) m = .ok m') (name : String) :
    Last (fun d v => value d = .ok v) name members (m.get? name) (m'.get? name) := by
  induction members generalizing m with
  | nil =>
    cases h
    exact Or.inl ⟨rfl, rfl⟩
  | cons member members ih =>
    rw [List.foldlM_cons] at h
    obtain ⟨first, hfirst, h⟩ := bind_eq_ok.mp h
    obtain ⟨key, d⟩ := member
    cases key with
    | none => cases hfirst
    | some key =>
      obtain ⟨v, hread, hinsert⟩ := bind_eq_ok.mp hfirst
      cases hinsert
      exact (ih h).cons (KeyMap.get?_insert m key v name) hread

/-- The members of a table can be read if their names mean texts and each can be read by itself. -/
theorem exists_foldlM_iff {members : List (Option String × Document)} {m : KeyMap α} :
    (∃ m', members.foldlM (tableMember value) m = .ok m') ↔
      ∀ member ∈ members, (∃ name, member.1 = some name) ∧ ∃ v, value member.2 = .ok v := by
  induction members generalizing m with
  | nil => exact ⟨fun _ => List.forall_mem_nil _, fun _ => ⟨m, rfl⟩⟩
  | cons member members ih =>
    obtain ⟨key, d⟩ := member
    rw [List.forall_mem_cons]
    constructor
    · rintro ⟨m', h⟩
      rw [List.foldlM_cons] at h
      obtain ⟨first, hfirst, hrest⟩ := bind_eq_ok.mp h
      cases key with
      | none => cases hfirst
      | some key =>
        obtain ⟨v, hread, -⟩ := bind_eq_ok.mp hfirst
        exact ⟨⟨⟨key, rfl⟩, v, hread⟩, ih.mp ⟨m', hrest⟩⟩
    · rintro ⟨⟨⟨name, rfl⟩, v, hread⟩, h⟩
      obtain ⟨m', h⟩ := ih.mpr h
      have hfirst : tableMember value m (some name, d) = .ok (m.insert name v) := bind_eq_ok.mpr ⟨v, hread, rfl⟩
      refine ⟨m', ?_⟩
      rw [List.foldlM_cons, hfirst]
      exact h

end

section

variable {α : Type} {value : Nat → Document → Except Fault α} {room : Nat}

/-- An object can be read as a table if it is closed, the names of its members mean texts, and each member can be read. -/
theorem exists_table_iff {members : List (Option String × Document)} {ending : Ending} :
    (∃ m, table room value (object members ending) = .ok m) ↔
      ∃ inner, room = inner + 1 ∧ ending = .closed ∧
        ∀ member ∈ members, (∃ name, member.1 = some name) ∧ ∃ v, value inner member.2 = .ok v := by
  constructor
  · rintro ⟨m, h⟩
    cases room with
    | zero => cases h
    | succ inner =>
      obtain ⟨m', hread, hclose⟩ := bind_eq_ok.mp h
      cases ending with
      | broken => cases hclose
      | closed => exact ⟨inner, rfl, rfl, exists_foldlM_iff.mp ⟨m', hread⟩⟩
  · rintro ⟨inner, rfl, rfl, h⟩
    obtain ⟨m, hread⟩ := exists_foldlM_iff.mpr h
    exact ⟨m, bind_eq_ok.mpr ⟨m, hread, rfl⟩⟩

/-- Every part of a document that was read as a table can be read. -/
theorem readable_of_table {d : Document} {m : KeyMap α} (h : table room value d = .ok m) :
    ∃ inner, room = inner + 1 ∧ ∀ part ∈ d.parts, ∃ v, value inner part = .ok v := by
  cases d with
  | object members ending =>
    obtain ⟨inner, hroom, -, hmembers⟩ := exists_table_iff.mp ⟨m, h⟩
    refine ⟨inner, hroom, fun part hpart => ?_⟩
    obtain ⟨member, hmember, rfl⟩ := List.mem_map.mp hpart
    exact (hmembers member hmember).2
  | _ => cases h

/-- What is found in a table that was read is what is found in its object, read. -/
theorem table_get? {d : Document} {m : KeyMap α} (h : table room value d = .ok m) :
    ∃ inner, room = inner + 1 ∧
      ∀ name, Option.Rel (fun part v => value inner part = .ok v) (d.get? name) (m.get? name) := by
  cases d with
  | object members ending =>
    cases room with
    | zero => cases h
    | succ inner =>
      obtain ⟨m', hread, hclose⟩ := bind_eq_ok.mp h
      cases ending with
      | broken => cases hclose
      | closed =>
        cases hclose
        exact ⟨inner, rfl, fun name => (last_of_foldlM hread name).rel .closed⟩
  | _ => cases h

end

/-! ## Values -/

theorem values?_mono {room room' : Nat} {items : List Document} {vs : List Json}
    (hitems : ∀ d ∈ items, ∀ v, d.value? room = some v → d.value? room' = some v) (h : values? room items = some vs) :
    values? room' items = some vs := by
  induction items generalizing vs with
  | nil => exact h
  | cons d items ih =>
    obtain ⟨hd, hitems⟩ := List.forall_mem_cons.mp hitems
    simp only [values?, Option.bind_eq_bind, Option.bind_eq_some_iff] at h ⊢
    obtain ⟨v, hv, ws, hws, hcons⟩ := h
    exact ⟨v, hd v hv, ws, ih hitems hws, hcons⟩

theorem members?_mono {room room' : Nat} {members : List (Option String × Document)} {read ms : List (String × Json)}
    (hmembers : ∀ m ∈ members, ∀ v, m.2.value? room = some v → m.2.value? room' = some v)
    (h : members? room members read = some ms) : members? room' members read = some ms := by
  induction members generalizing read with
  | nil => exact h
  | cons m members ih =>
    obtain ⟨hm, hmembers⟩ := List.forall_mem_cons.mp hmembers
    simp only [members?, Option.bind_eq_bind, Option.bind_eq_some_iff] at h ⊢
    obtain ⟨key, hkey, v, hv, h⟩ := h
    exact ⟨key, hkey, v, hm v hv, ih hmembers h⟩

/-- A document that has a value keeps it where more arrays and objects may stand inside one another. -/
theorem value?_mono {d : Document} {room room' : Nat} {v : Json} (h : d.value? room = some v) (hroom : room ≤ room') :
    d.value? room' = some v := by
  induction d generalizing room room' v with
  | hole | null | bool | int | float | text => exact h
  | array items ending ih =>
    simp only [value?, Option.ite_none_left_eq_some, Option.map_eq_some_iff] at h ⊢
    obtain ⟨hopen, vs, hvs, hv⟩ := h
    obtain ⟨hpos, hclosed⟩ := not_or.mp hopen
    refine ⟨not_or.mpr ⟨by omega, hclosed⟩, vs, ?_, hv⟩
    exact values?_mono (fun d hd w hw => ih d hd hw (Nat.sub_le_sub_right hroom 1)) hvs
  | object members ending ih =>
    simp only [value?, Option.ite_none_left_eq_some, Option.map_eq_some_iff] at h ⊢
    obtain ⟨hopen, ms, hms, hv⟩ := h
    obtain ⟨hpos, hclosed⟩ := not_or.mp hopen
    refine ⟨not_or.mpr ⟨by omega, hclosed⟩, ms, ?_, hv⟩
    exact members?_mono (fun m hm w hw => ih m hm hw (Nat.sub_le_sub_right hroom 1)) hms

/-- Of an object that has a value every member has a name and a value, with one level less. -/
theorem members_of_value? {members : List (Option String × Document)} {ending : Ending} {room : Nat} {v : Json}
    (h : (object members ending).value? room = some v) :
    ∃ inner, room = inner + 1 ∧ ending = .closed ∧
      ∀ m ∈ members, (∃ name, m.1 = some name) ∧ ∃ w, m.2.value? inner = some w := by
  simp only [value?, Option.ite_none_left_eq_some, Option.map_eq_some_iff] at h
  obtain ⟨hopen, ms, hms, -⟩ := h
  obtain ⟨hpos, hclosed⟩ := not_or.mp hopen
  refine ⟨room - 1, by omega, Decidable.not_not.mp hclosed, ?_⟩
  generalize ([] : List (String × Json)) = read at hms
  clear hopen hpos hclosed
  induction members generalizing read with
  | nil => exact List.forall_mem_nil _
  | cons m members ih =>
    simp only [members?, Option.bind_eq_bind, Option.bind_eq_some_iff] at hms
    obtain ⟨key, hkey, w, hw, hms⟩ := hms
    exact List.forall_mem_cons.mpr ⟨⟨⟨key, hkey⟩, w, hw⟩, ih _ hms⟩

/-- So has every item of an array. -/
theorem items_of_value? {items : List Document} {ending : Ending} {room : Nat} {v : Json}
    (h : (array items ending).value? room = some v) :
    ∃ inner, room = inner + 1 ∧ ending = .closed ∧ ∀ d ∈ items, ∃ w, d.value? inner = some w := by
  simp only [value?, Option.ite_none_left_eq_some, Option.map_eq_some_iff] at h
  obtain ⟨hopen, vs, hvs, -⟩ := h
  obtain ⟨hpos, hclosed⟩ := not_or.mp hopen
  refine ⟨room - 1, by omega, Decidable.not_not.mp hclosed, ?_⟩
  clear hopen hpos hclosed
  induction items generalizing vs with
  | nil => exact List.forall_mem_nil _
  | cons d items ih =>
    simp only [values?, Option.bind_eq_bind, Option.bind_eq_some_iff] at hvs
    obtain ⟨w, hw, ws, hws, -⟩ := hvs
    exact List.forall_mem_cons.mpr ⟨⟨w, hw⟩, ih ws hws⟩

theorem isWhole_array {items : List Document} {ending : Ending} :
    (array items ending).isWhole ↔ (∀ d ∈ items, d.isWhole) ∧ ending = .closed := by
  have hitems : areWhole items ↔ ∀ d ∈ items, d.isWhole := by
    induction items with
    | nil => simp [areWhole]
    | cons d items ih => simp [areWhole, ih]
  simp [isWhole, hitems]

theorem isWhole_object {members : List (Option String × Document)} {ending : Ending} :
    (object members ending).isWhole ↔ (∀ m ∈ members, m.2.isWhole) ∧ ending = .closed := by
  have hmembers : membersAreWhole members ↔ ∀ m ∈ members, m.2.isWhole := by
    induction members with
    | nil => simp [membersAreWhole]
    | cons m members ih => simp [membersAreWhole, ih]
  simp [isWhole, hmembers]

/-- What has a value is whole. -/
theorem isWhole_of_value? {d : Document} {room : Nat} {v : Json} (h : d.value? room = some v) : d.isWhole := by
  induction d generalizing room v with
  | hole => cases h
  | null | bool | int | float | text => rfl
  | array items ending ih =>
    obtain ⟨inner, -, hclosed, hitems⟩ := items_of_value? h
    refine isWhole_array.mpr ⟨fun d hd => ?_, hclosed⟩
    obtain ⟨w, hw⟩ := hitems d hd
    exact ih d hd hw
  | object members ending ih =>
    obtain ⟨inner, -, hclosed, hmembers⟩ := members_of_value? h
    refine isWhole_object.mpr ⟨fun m hm => ?_, hclosed⟩
    obtain ⟨-, w, hw⟩ := hmembers m hm
    exact ih m hm hw

/-- In the value of an object stands under a name the value of the last member of that name. -/
theorem lookup_members? {room : Nat} {members : List (Option String × Document)} {read ms : List (String × Json)}
    (h : members? room members read = some ms) (name : String) :
    Last (fun d v => d.value? room = some v) name members (read.lookup name) (ms.lookup name) := by
  induction members generalizing read with
  | nil =>
    cases h
    exact Or.inl ⟨rfl, rfl⟩
  | cons member members ih =>
    simp only [members?, Option.bind_eq_bind, Option.bind_eq_some_iff] at h
    obtain ⟨key, hkey, v, hvalue, h⟩ := h
    obtain ⟨key', d⟩ := member
    cases hkey
    exact (ih h).cons (KeyMap.lookup_insertEntry key v read name) hvalue

/-- What is found in the value of a document is the value of what is found in the document. -/
theorem get?_value? {d : Document} {room : Nat} {v : Json} (h : d.value? room = some v) (name : String) :
    Option.Rel (fun part w => part.value? room = some w) (d.get? name) (v.get? name) := by
  cases d with
  | object members ending =>
    obtain ⟨inner, rfl, ms, hms, rfl⟩ := value?_object h
    have hfound := (lookup_members? hms name).rel ending
    have hget : (Json.obj ms).get? name = ms.lookup name := rfl
    rw [hget]
    exact rel_imp hfound fun _ _ hvalue => value?_mono hvalue (Nat.le_succ inner)
  | hole => cases h
  | array items ending =>
    obtain ⟨inner, rfl, vs, -, rfl⟩ := value?_array h
    exact Option.Rel.none
  | float x | text x =>
    obtain ⟨w, -, rfl⟩ := Option.map_eq_some_iff.mp h
    exact Option.Rel.none
  | null | bool b | int n =>
    cases h
    exact Option.Rel.none

/-- Under a name that stands once in an object, its value has the value of what stands there. -/
theorem lookup_of_named {members : List (Option String × Document)} {ending : Ending} {room : Nat} {ms : List (String × Json)}
    (h : (object members ending).value? room = some (.obj ms)) {name : String} {d : Document} (hd : named name members = [d]) :
    ∃ w, ms.lookup name = some w ∧ d.value? room = some w := by
  have hfound := get?_value? h name
  rw [get?_object, hd, List.getLast?_singleton] at hfound
  exact exists_of_rel_some hfound

/-- Under a name that stands nowhere in an object, its value has nothing. -/
theorem lookup_of_named_nil {members : List (Option String × Document)} {ending : Ending} {room : Nat} {ms : List (String × Json)}
    (h : (object members ending).value? room = some (.obj ms)) {name : String} (hnone : named name members = []) :
    ms.lookup name = none := by
  have hfound := get?_value? h name
  rw [get?_object, hnone, List.getLast?_nil] at hfound
  exact eq_none_of_rel_none hfound

/-- What is read as a value is the value of the document. -/
theorem read_json_iff {d : Document} {room : Nat} {v : Json} : Codec.read room d = .ok v ↔ d.value? room = some v := by
  cases hvalue : d.value? room with
  | none =>
    simp only [Codec.read, hvalue]
    constructor
    · intro h
      cases h
    · intro h
      cases h
  | some w => simp only [Codec.read, hvalue, Except.ok.injEq, Option.some.injEq]

/-- What is found at the end of a path in the value of a document is the value of what is found there in the document. -/
theorem at?_value? {d : Document} {room : Nat} {v : Json} (h : d.value? room = some v) (path : List String) :
    Option.Rel (fun part w => part.value? room = some w) (d.at? path) (v.at? path) := by
  induction path generalizing d v with
  | nil => exact Option.Rel.some h
  | cons name path ih => exact rel_bind (get?_value? h name) fun _ _ _ hpart => ih hpart

end Document

end Chronicle
