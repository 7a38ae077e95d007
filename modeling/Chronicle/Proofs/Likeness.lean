import Mathlib.Data.List.Forall2
import Chronicle.Proofs.Fields
import Chronicle.Proofs.Tables

/-!
# Likeness: other documents that are read as the same

What an object is read as depends neither on the order of its members nor on those that nothing is read of. `SameMembers` relates
two objects in which alike documents stand under each of some names. Reading respects a likeness (`Respects`) if what is read of a
document is read of every legible one that is like it. It does so for a whole document if it does for the parts: for the members of
a table (`Respects.table`), for what may be `null` (`Respects.option`), and for the fields of a record (`Record.respects`).
-/

namespace Chronicle

/-! ## Pairs of lists -/

section

variable {α β : Type} {R : α → β → Prop} {l : List α} {l' : List β}

theorem forall₂_getLast? (h : List.Forall₂ R l l') : Option.Rel R l.getLast? l'.getLast? := by
  induction h with
  | nil => exact Option.Rel.none
  | @cons a b l l' hab _ ih =>
    rw [List.getLast?_cons, List.getLast?_cons]
    cases hl : l.getLast? <;> cases hl' : l'.getLast? <;> rw [hl, hl'] at ih <;> cases ih
    · exact Option.Rel.some hab
    · exact Option.Rel.some ‹_›

/-- What is related to one thing only, in two places where related things were found, is the same. -/
theorem eq_of_rel {γ : Type} {S : β → γ → Prop} {T : α → γ → Prop} {x : Option α} {x' : Option β} {y y' : Option γ}
    (hy' : Option.Rel S x' y') (hy : Option.Rel T x y) (hx : Option.Rel R x x')
    (h : ∀ b a c' c, S b c' → T a c → R a b → c' = c) : y' = y := by
  cases hx with
  | none =>
    cases hy'
    cases hy
    rfl
  | some hab =>
    cases hy' with
    | some hS =>
      cases hy with
      | some hT => rw [h _ _ _ _ hS hT hab]

theorem forall₂_exists_left (h : List.Forall₂ R l l') {b : β} (hb : b ∈ l') : ∃ a ∈ l, R a b := by
  induction h with
  | nil => cases hb
  | cons hab _ ih =>
    rcases List.mem_cons.mp hb with rfl | hb
    · exact ⟨_, List.mem_cons_self, hab⟩
    · obtain ⟨a, ha, hab⟩ := ih hb
      exact ⟨a, List.mem_cons_of_mem _ ha, hab⟩

end

namespace Document

/-- A document can be read, as what is wanted or else as a value. -/
def Legible {α : Type} (read : Nat → Document → Except Fault α) (room : Nat) (d : Document) : Prop :=
  (∃ v, read room d = .ok v) ∨ ∃ v, d.value? room = some v

/-- What is read of a document is read of every legible one that is like it. -/
def Respects {α : Type} (read : Nat → Document → Except Fault α) (alike : Document → Document → Prop) : Prop :=
  ∀ ⦃room d d' v⦄, read room d = .ok v → alike d d' → Legible read room d' → read room d' = .ok v

/-- Two objects have the same members of certain names if under each of these stand alike documents, one by one; in what order,
and what stands under other names, may differ. What is no object is only the same as itself. -/
def SameMembers (names : String → Prop) (alike : String → Document → Document → Prop) (d d' : Document) : Prop :=
  d = d' ∨ ∃ members ending members' ending', d = .object members ending ∧ d' = .object members' ending' ∧
    ∀ name, names name → List.Forall₂ (alike name) (named name members) (named name members')

/-- Two objects are the same record if they have the same members of the names of its fields. -/
def SameRecord (names : List String) : (String → Document → Document → Prop) → Document → Document → Prop :=
  SameMembers (· ∈ names)

/-- Two objects are the same table if they have the same members of all names. -/
def SameTable (alike : Document → Document → Prop) : Document → Document → Prop := SameMembers (fun _ => True) fun _ => alike

section

variable {α β : Type} {read : Nat → Document → Except Fault α} {alike : Document → Document → Prop}

theorem respects_eq : Respects read Eq := by
  rintro room d _ v hread rfl -
  exact hread

theorem Respects.map (h : Respects read alike) (f : α → β) : Respects (fun room d => f <$> read room d) alike := by
  intro room d d' w hread halike hlegible
  obtain ⟨v, hread, hw⟩ := map_eq_ok.mp hread
  refine map_eq_ok.mpr ⟨v, h hread halike ?_, hw⟩
  rcases hlegible with ⟨w', hread'⟩ | hvalue
  · obtain ⟨v', hread', -⟩ := map_eq_ok.mp hread'
    exact Or.inl ⟨v', hread'⟩
  · exact Or.inr hvalue

/-- One by one, what is read of a document is read of the one it is like. -/
theorem Respects.forall₂ (h : Respects read alike) {room : Nat} {parts parts' : List Document}
    (hparts : List.Forall₂ alike parts parts') (hlegible : ∀ d' ∈ parts', Legible read room d') :
    List.Forall₂ (fun d d' => ∀ v, read room d = .ok v → read room d' = .ok v) parts parts' := by
  induction hparts with
  | nil => exact List.Forall₂.nil
  | cons halike _ ih =>
    obtain ⟨hd, hrest⟩ := List.forall_mem_cons.mp hlegible
    exact List.Forall₂.cons (fun v hread => h hread halike hd) (ih hrest)

/-- What a text can be read as, any text can that is in order up to its end and has a document like that of the first. -/
theorem Respects.ofText {α : Type} [Codec α] {alike : Document → Document → Prop}
    (h : Respects (Codec.read (α := α)) alike) {text text' : String} {v : α} (hread : Codec.ofText text = .ok v)
    (halike : alike (Document.ofText text).1 (Document.ofText text').1)
    (hlegible : (∃ v' : α, Codec.ofText text' = .ok v') ∨ ∃ j : Json, Codec.ofText text' = .ok j) :
    Codec.ofText text' = .ok v := by
  obtain ⟨-, hread⟩ := Codec.ofText_eq_ok.mp hread
  rcases hlegible with ⟨v', hread'⟩ | ⟨j, hread'⟩
  · obtain ⟨hwhole, hread'⟩ := Codec.ofText_eq_ok.mp hread'
    exact Codec.ofText_eq_ok.mpr ⟨hwhole, h hread halike (Or.inl ⟨v', hread'⟩)⟩
  · obtain ⟨hwhole, hread'⟩ := Codec.ofText_eq_ok.mp hread'
    exact Codec.ofText_eq_ok.mpr ⟨hwhole, h hread halike (Or.inr ⟨j, read_json_iff.mp hread'⟩)⟩

/-! ## Tables -/

/-- A legible table is closed, its names mean texts, and its members are legible. -/
theorem Legible.table {room : Nat} {members : List (Option String × Document)} {ending : Ending}
    (h : Legible (fun room => table room read) room (object members ending)) :
    ∃ inner, room = inner + 1 ∧ ending = .closed ∧
      ∀ m ∈ members, (∃ name, m.1 = some name) ∧ Legible read inner m.2 := by
  rcases h with hread | ⟨v, hvalue⟩
  · obtain ⟨inner, hroom, hclosed, hmembers⟩ := exists_table_iff.mp hread
    exact ⟨inner, hroom, hclosed, fun m hm => ⟨(hmembers m hm).1, Or.inl (hmembers m hm).2⟩⟩
  · obtain ⟨inner, hroom, hclosed, hmembers⟩ := members_of_value? hvalue
    exact ⟨inner, hroom, hclosed, fun m hm => ⟨(hmembers m hm).1, Or.inr (hmembers m hm).2⟩⟩

/-- Reading a table respects the likeness of tables whose members are alike under every name, if reading a member respects
theirs. Every member of the second table is like one of the first, and can be read as that one; under every name both tables
have what was read of the last member. -/
theorem Respects.table (h : Respects read alike) : Respects (fun room => Document.table room read) (SameTable alike) := by
  rintro room d d' m hread (rfl | ⟨members, ending, members', ending', rfl, rfl, hsame⟩) hlegible
  · exact hread
  · obtain ⟨inner, rfl, -, hreadable⟩ := exists_table_iff.mp ⟨m, hread⟩
    obtain ⟨inner', hinner, hclosed, hlegible⟩ := hlegible.table
    cases hinner
    have hfollows : ∀ name, List.Forall₂ (fun d d' => ∀ v, read inner d = .ok v → read inner d' = .ok v)
        (named name members) (named name members') := fun name =>
      h.forall₂ (hsame name trivial) fun d' hd' => (hlegible _ (mem_named.mp hd')).2
    obtain ⟨m', hread'⟩ : ∃ m', Document.table (inner + 1) read (object members' ending') = .ok m' := by
      refine exists_table_iff.mpr ⟨inner, rfl, hclosed, fun member hmember => ?_⟩
      obtain ⟨⟨name, hname⟩, -⟩ := hlegible member hmember
      have hnamed : member.2 ∈ named name members' := by
        rw [mem_named, ← hname]
        exact hmember
      obtain ⟨d, hd, hd'⟩ := forall₂_exists_left (hfollows name) hnamed
      obtain ⟨-, v, hv⟩ := hreadable _ (mem_named.mp hd)
      exact ⟨⟨name, hname⟩, v, hd' v hv⟩
    have hsame : m' = m := by
      refine KeyMap.ext_get? fun name => ?_
      obtain ⟨_, ⟨⟩, hfound⟩ := table_get? hread
      obtain ⟨_, ⟨⟩, hfound'⟩ := table_get? hread'
      refine eq_of_rel (hfound' name) (hfound name) (forall₂_getLast? (hfollows name)) fun d' d w v hd' hd hfollow => ?_
      exact Except.ok.inj (hd'.symm.trans (hfollow v hd))
    rw [← hsame]
    exact hread'

end

/-- What is `null` is like nothing but `null`, among tables. -/
theorem sameTable_null_iff {alike : Document → Document → Prop} {d d' : Document} (h : SameTable alike d d') :
    d = .null ↔ d' = .null := by
  rcases h with rfl | ⟨members, ending, members', ending', rfl, rfl, -⟩
  · exact Iff.rfl
  · constructor
    · intro h
      cases h
    · intro h
      cases h

/-- Reading what may also be `null` respects a likeness in which `null` is like nothing but itself. -/
theorem Respects.option {α : Type} [Codec α] {alike : Document → Document → Prop}
    (h : Respects (Codec.read (α := α)) alike) (hnull : ∀ d d', alike d d' → (d = .null ↔ d' = .null)) :
    Respects (Codec.read (α := Option α)) alike := by
  intro room d d' v hread halike hlegible
  by_cases hd : d = .null
  · have hd' : d' = .null := (hnull d d' halike).mp hd
    rw [hd', ← hd]
    exact hread
  · have hd' : d' ≠ .null := fun hd' => hd ((hnull d d' halike).mpr hd')
    unfold Legible at hlegible
    rw [Codec.Faithful.read_option hd] at hread
    rw [Codec.Faithful.read_option hd'] at hlegible ⊢
    exact h.map some hread halike hlegible

end Document

/-! ## Records -/

namespace Record

open Document (named Legible Respects SameRecord)

variable {ρ : Type}

theorem All.and {P Q : ∀ {α : Type}, Field α → Prop} {r : Record ρ} (hP : r.All P) (hQ : r.All Q) :
    r.All fun field => P field ∧ Q field := by
  induction r with
  | nil => trivial
  | cons field rest ih => exact ⟨⟨hP.1, hQ.1⟩, ih hP.2 hQ.2⟩

/-- Fields have the values they had if what stands under their names is read, one by one, as what stood there before. -/
theorem Takes.imp {r : Record ρ} {room : Nat} {members members' : List (Option String × Document)} {vs : ρ}
    (h : r.Takes room members vs)
    (hfollows : r.All fun field => List.Forall₂ (fun d d' => ∀ v, field.read room d = .ok v → field.read room d' = .ok v)
      (named field.name members) (named field.name members')) : r.Takes room members' vs := by
  induction r with
  | nil => trivial
  | cons field rest ih =>
    obtain ⟨hfield, hrest⟩ := hfollows
    refine ⟨?_, ih h.2 hrest⟩
    rcases h.1 with ⟨hparts, habsent⟩ | ⟨d, hparts, hread⟩
    · rw [hparts] at hfield
      cases hfield' : named field.name members' with
      | nil => exact Or.inl ⟨rfl, habsent⟩
      | cons d' rest' =>
        rw [hfield'] at hfield
        cases hfield
    · rw [hparts] at hfield
      obtain ⟨d', rest', hd', hrest', hparts'⟩ := List.forall₂_cons_left_iff.mp hfield
      cases hrest'
      exact Or.inr ⟨d', hparts', hd' _ hread⟩

/-- A legible record is closed and in order, and what stands under the names of the fields is legible. -/
theorem legible_object {r : Record ρ} (hnames : r.names.Nodup) {room : Nat} {members : List (Option String × Document)}
    {ending : Ending} (h : Legible r.read room (.object members ending)) :
    ∃ inner, room = inner + 1 ∧ ending = .closed ∧ r.Skips members ∧
      r.All fun field => ∀ d ∈ named field.name members, Legible field.read inner d := by
  rcases h with ⟨vs, hread⟩ | ⟨v, hvalue⟩
  · obtain ⟨inner, hroom, hclosed, hskips, htakes⟩ := (read_object_iff hnames).mp hread
    refine ⟨inner, hroom, hclosed, hskips, ?_⟩
    exact (readable_of_takes htakes).imp fun field _ hreadable d hd => Or.inl (hreadable d hd)
  · obtain ⟨inner, hroom, hclosed, hmembers⟩ := Document.members_of_value? hvalue
    refine ⟨inner, hroom, hclosed, fun m hm => ?_, all_of_forall (fun field d hd => ?_) r⟩
    · obtain ⟨⟨name, hname⟩, w, hw⟩ := hmembers m hm
      exact ⟨name, hname, Or.inr (Document.isWhole_of_value? hw)⟩
    · exact Or.inr (hmembers _ (Document.mem_named.mp hd)).2

/-- Reading a record respects the likeness of objects with the same fields, if reading each field respects that of its documents. -/
theorem respects {r : Record ρ} (hnames : r.names.Nodup) {alike : String → Document → Document → Prop}
    (hfields : r.All fun field => Respects field.read (alike field.name)) :
    Respects r.read (SameRecord r.names alike) := by
  rintro room d d' vs hread (rfl | ⟨members, ending, members', ending', rfl, rfl, hsame⟩) hlegible
  · exact hread
  · obtain ⟨inner, rfl, -, -, htakes⟩ := (read_object_iff hnames).mp hread
    obtain ⟨inner', hinner, hclosed, hskips, hlegible⟩ := legible_object hnames hlegible
    cases hinner
    refine (read_object_iff hnames).mpr ⟨inner, rfl, hclosed, hskips, htakes.imp ?_⟩
    refine (hfields.and hlegible).imp ?_
    rintro α field hmem ⟨hfield, hlegible⟩
    exact hfield.forall₂ (hsame field.name hmem) hlegible

end Record

end Chronicle
