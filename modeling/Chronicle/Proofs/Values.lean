import Chronicle.Json.Codec
import Chronicle.Proofs.Tables

/-!
# Values: what holds everywhere inside a JSON value

A value that was read differs from a value that was made: its whole numbers fit 64 bits and the names of its objects ascend.
`Plain` says this of a value and that it holds no double; `Printable` leaves the order of the names open, since a record keeps
its fields in the order of its type. `Json.arranged` puts the names of a value in order. The document of a value has the value in
order as its value, if it may nest as deep as the value does (`Document.value?_arranged`); for a plain value this is the value
itself (`Document.value?_ofJson`). What a document has as its value is sorted and nests no deeper than it may. No two values
have one document (`Document.ofJson_inj`).
-/

namespace Chronicle

namespace Json

/-! ## Everything inside a value -/

/-- Induction over a value: what is shown of an array or object may use that it holds of all that stands in it. -/
@[elab_as_elim, induction_eliminator]
theorem inside_induction {motive : Json → Prop} (null : motive .null) (bool : ∀ b, motive (.bool b))
    (int : ∀ n, motive (.int n)) (float : ∀ x, motive (.float x)) (str : ∀ s, motive (.str s))
    (arr : ∀ items, (∀ v ∈ items, motive v) → motive (.arr items))
    (obj : ∀ members, (∀ m ∈ members, motive m.2) → motive (.obj members)) (v : Json) : motive v :=
  @Json.rec motive (fun items => ∀ v ∈ items, motive v) (fun members => ∀ m ∈ members, motive m.2) (fun m => motive m.2)
    null bool int float str arr obj (List.forall_mem_nil _) (fun _ _ hv hrest => List.forall_mem_cons.mpr ⟨hv, hrest⟩)
    (List.forall_mem_nil _) (fun _ _ hm hrest => List.forall_mem_cons.mpr ⟨hm, hrest⟩) (fun _ _ hv => hv) v

mutual

/-- Whether something holds of a value and of all that stands in it. -/
def all (p : Json → Bool) : Json → Bool
  | .arr items => p (.arr items) && allItems p items
  | .obj members => p (.obj members) && allMembers p members
  | v => p v

/-- Whether something holds of all that stands in an array. -/
def allItems (p : Json → Bool) : List Json → Bool
  | [] => true
  | v :: rest => all p v && allItems p rest

/-- Whether something holds of all that stands in an object. -/
def allMembers (p : Json → Bool) : List (String × Json) → Bool
  | [] => true
  | (_, v) :: rest => all p v && allMembers p rest

end

theorem allItems_iff (p : Json → Bool) (items : List Json) : allItems p items ↔ ∀ v ∈ items, v.all p := by
  induction items with
  | nil => simp [allItems]
  | cons v rest ih => simp [allItems, ih]

theorem allMembers_iff (p : Json → Bool) (members : List (String × Json)) :
    allMembers p members ↔ ∀ m ∈ members, m.2.all p := by
  induction members with
  | nil => simp [allMembers]
  | cons m rest ih => simp [allMembers, ih]

theorem all_arr (p : Json → Bool) (items : List Json) :
    (Json.arr items).all p ↔ p (.arr items) ∧ ∀ v ∈ items, v.all p := by
  simp [all, ← allItems_iff]

theorem all_obj (p : Json → Bool) (members : List (String × Json)) :
    (Json.obj members).all p ↔ p (.obj members) ∧ ∀ m ∈ members, m.2.all p := by
  rw [all, Bool.and_eq_true, allMembers_iff]

/-- Whether a whole number fits 64 bits, signed or unsigned. -/
def InRange (n : Int) : Prop := -(UInt64.size / 2 : Nat) ≤ n ∧ n < UInt64.size

instance (n : Int) : Decidable (InRange n) := inferInstanceAs (Decidable (_ ∧ _))

/-- No double stands in the value. -/
def FloatFree (v : Json) : Prop := v.all fun
  | .float _ => false
  | _ => true

/-- All whole numbers of the value fit 64 bits. -/
def Fits (v : Json) : Prop := v.all fun
  | .int n => InRange n
  | _ => true

/-- The names of every object in the value ascend strictly. -/
def Sorted (v : Json) : Prop := v.all fun
  | .obj members => (members.map Prod.fst).Pairwise (· < ·)
  | _ => true

instance (v : Json) : Decidable v.FloatFree := inferInstanceAs (Decidable (_ = true))
instance (v : Json) : Decidable v.Fits := inferInstanceAs (Decidable (_ = true))
instance (v : Json) : Decidable v.Sorted := inferInstanceAs (Decidable (_ = true))

/-- A value whose text reads back number by number. -/
structure Printable (v : Json) : Prop where
  floatFree : v.FloatFree
  fits : v.Fits

/-- A value as it is read from a text, without doubles. -/
structure Plain (v : Json) : Prop extends Printable v where
  sorted : v.Sorted

@[simp] theorem sorted_arr (items : List Json) : (Json.arr items).Sorted ↔ ∀ v ∈ items, v.Sorted := by
  simp [Sorted, all_arr]

@[simp] theorem sorted_obj (members : List (String × Json)) :
    (Json.obj members).Sorted ↔ KeyMap.Ascending members ∧ ∀ m ∈ members, m.2.Sorted := by
  simp [Sorted, all_obj, KeyMap.Ascending]

@[simp] theorem fits_arr (items : List Json) : (Json.arr items).Fits ↔ ∀ v ∈ items, v.Fits := by
  simp [Fits, all_arr]

@[simp] theorem fits_obj (members : List (String × Json)) : (Json.obj members).Fits ↔ ∀ m ∈ members, m.2.Fits := by
  simp [Fits, all_obj]

@[simp] theorem fits_int (n : Int) : (Json.int n).Fits ↔ InRange n := by simp [Fits, all]

@[simp] theorem printable_int (n : Int) : (Json.int n).Printable ↔ InRange n :=
  ⟨fun h => (fits_int n).mp h.fits, fun h => ⟨rfl, (fits_int n).mpr h⟩⟩

@[simp] theorem printable_null : Json.null.Printable := ⟨rfl, rfl⟩

@[simp] theorem printable_bool (b : Bool) : (Json.bool b).Printable := ⟨rfl, rfl⟩

@[simp] theorem printable_str (s : String) : (Json.str s).Printable := ⟨rfl, rfl⟩

theorem not_printable_float (x : Float) : ¬ (Json.float x).Printable := fun h => nomatch h.floatFree

@[simp] theorem printable_arr (items : List Json) : (Json.arr items).Printable ↔ ∀ v ∈ items, v.Printable := by
  constructor
  · intro ⟨hfree, hfits⟩ v hv
    exact ⟨((all_arr _ _).mp hfree).2 v hv, (fits_arr items).mp hfits v hv⟩
  · intro h
    exact ⟨(all_arr _ _).mpr ⟨rfl, fun v hv => (h v hv).floatFree⟩, (fits_arr items).mpr fun v hv => (h v hv).fits⟩

@[simp] theorem printable_obj (members : List (String × Json)) :
    (Json.obj members).Printable ↔ ∀ m ∈ members, m.2.Printable := by
  constructor
  · intro ⟨hfree, hfits⟩ m hm
    exact ⟨((all_obj _ _).mp hfree).2 m hm, (fits_obj members).mp hfits m hm⟩
  · intro h
    exact ⟨(all_obj _ _).mpr ⟨rfl, fun m hm => (h m hm).floatFree⟩, (fits_obj members).mpr fun m hm => (h m hm).fits⟩

/-! ## Members in order -/

mutual

/-- The value with the members of all objects in ascending order of their names, as it is read from a text: of several members
with one name the last stays. -/
def arranged : Json → Json
  | .arr items => .arr (arrangedItems items)
  | .obj members => .obj (KeyMap.ofList (arrangedMembers members)).entries
  | v => v

/-- The items of an array, each in order. -/
def arrangedItems : List Json → List Json
  | [] => []
  | v :: rest => arranged v :: arrangedItems rest

/-- The members of an object, the value of each in order. -/
def arrangedMembers : List (String × Json) → List (String × Json)
  | [] => []
  | (name, v) :: rest => (name, arranged v) :: arrangedMembers rest

end

theorem arrangedItems_eq_map (items : List Json) : arrangedItems items = items.map arranged := by
  induction items with
  | nil => rfl
  | cons v rest ih => rw [arrangedItems, ih, List.map_cons]

theorem arrangedMembers_eq_map (members : List (String × Json)) :
    arrangedMembers members = members.map fun m => (m.1, m.2.arranged) := by
  induction members with
  | nil => rfl
  | cons m rest ih => rw [arrangedMembers, ih, List.map_cons]

/-- A value whose members are in order stays as it is. -/
theorem arranged_of_sorted {v : Json} (h : v.Sorted) : v.arranged = v := by
  induction v with
  | null | bool | int | float | str => rfl
  | arr items ih =>
    have hitems : ∀ v ∈ items, v.arranged = v := fun v hv => ih v hv ((sorted_arr items).mp h v hv)
    rw [arranged, arrangedItems_eq_map, List.map_congr_left hitems, List.map_id']
  | obj members ih =>
    obtain ⟨hasc, hsorted⟩ := (sorted_obj members).mp h
    have hmembers : ∀ m ∈ members, (m.1, m.2.arranged) = m := fun m hm => Prod.ext rfl (ih m hm (hsorted m hm))
    rw [arranged, arrangedMembers_eq_map, List.map_congr_left hmembers, List.map_id', KeyMap.entries_ofList hasc]

/-! ## How deep a value nests -/

mutual

/-- How many arrays and objects of a value stand inside one another, itself included. -/
def nesting : Json → Nat
  | .arr items => nestingItems items + 1
  | .obj members => nestingMembers members + 1
  | _ => 0

/-- How deep the items of an array nest. -/
def nestingItems : List Json → Nat
  | [] => 0
  | v :: rest => max (nesting v) (nestingItems rest)

/-- How deep the members of an object nest. -/
def nestingMembers : List (String × Json) → Nat
  | [] => 0
  | (_, v) :: rest => max (nesting v) (nestingMembers rest)

end

theorem nestingItems_le {items : List Json} {n : Nat} : nestingItems items ≤ n ↔ ∀ v ∈ items, v.nesting ≤ n := by
  induction items with
  | nil => simp [nestingItems]
  | cons v rest ih => rw [nestingItems, Nat.max_le, ih, List.forall_mem_cons]

theorem nestingMembers_le {members : List (String × Json)} {n : Nat} :
    nestingMembers members ≤ n ↔ ∀ m ∈ members, m.2.nesting ≤ n := by
  induction members with
  | nil => simp [nestingMembers]
  | cons m rest ih => rw [nestingMembers, Nat.max_le, ih, List.forall_mem_cons]

/-- An array nests as deep as one allows if one more level is allowed than any item needs. -/
theorem nesting_arr_le {items : List Json} {room : Nat} :
    (Json.arr items).nesting ≤ room ↔ ∃ inner, room = inner + 1 ∧ ∀ v ∈ items, v.nesting ≤ inner := by
  simp only [nesting, ← nestingItems_le]
  cases room with
  | zero => simp
  | succ inner => simp

/-- An object nests as deep as one allows if one more level is allowed than any member needs. -/
theorem nesting_obj_le {members : List (String × Json)} {room : Nat} :
    (Json.obj members).nesting ≤ room ↔ ∃ inner, room = inner + 1 ∧ ∀ m ∈ members, m.2.nesting ≤ inner := by
  simp only [nesting, ← nestingMembers_le]
  cases room with
  | zero => simp
  | succ inner => simp

/-- A member of an object nests less deep than the object. -/
theorem nesting_lt_obj {members : List (String × Json)} {m : String × Json} (h : m ∈ members) :
    m.2.nesting < (Json.obj members).nesting :=
  Nat.lt_succ_of_le (nestingMembers_le.mp (Nat.le_refl _) m h)

end Json

/-! ## Values and their documents -/

/-- Lists with the same images are the same if what stands in the first is told by its image. -/
theorem eq_of_map_eq {α β : Type} {f : α → β} {l l' : List α} (h : ∀ a ∈ l, ∀ b, f a = f b → a = b)
    (hmap : l.map f = l'.map f) : l = l' := by
  induction l generalizing l' with
  | nil => exact (List.map_eq_nil_iff.mp hmap.symm).symm
  | cons a rest ih =>
    obtain ⟨ha, hrest⟩ := List.forall_mem_cons.mp h
    obtain ⟨b, rest', rfl, hb, hothers⟩ := List.map_eq_cons_iff.mp hmap.symm
    rw [ha b hb.symm, ih hrest hothers.symm]

namespace Document

/-- The values of the documents of the items of an array. -/
theorem values?_arranged {room : Nat} {items : List Json}
    (h : ∀ v ∈ items, (ofJson v).value? room = some v.arranged) :
    values? room (ofItems items) = some (Json.arrangedItems items) := by
  induction items with
  | nil => rfl
  | cons v rest ih =>
    obtain ⟨hv, hrest⟩ := List.forall_mem_cons.mp h
    simp [ofItems, values?, Json.arrangedItems, hv, ih hrest]

/-- The values of the documents of the members of an object go into the table of those read before them. -/
theorem members?_arranged {room : Nat} {members : List (String × Json)}
    (h : ∀ m ∈ members, (ofJson m.2).value? room = some m.2.arranged) (read : KeyMap Json) :
    members? room (ofMembers members) read.entries =
      some ((Json.arrangedMembers members).foldl (fun m e => m.insert e.1 e.2) read).entries := by
  induction members generalizing read with
  | nil => rfl
  | cons m rest ih =>
    obtain ⟨hm, hrest⟩ := List.forall_mem_cons.mp h
    simp only [ofMembers, members?, hm, Option.bind_eq_bind, Option.bind_some]
    exact ih hrest (read.insert m.1 m.2.arranged)

/-- The value of the document of a value is that value in order, if it may nest as deep. -/
theorem value?_arranged {v : Json} {room : Nat} (hroom : v.nesting ≤ room) :
    (ofJson v).value? room = some v.arranged := by
  induction v generalizing room with
  | null | bool | int | float | str => rfl
  | arr items ih =>
    obtain ⟨inner, rfl, hinner⟩ := Json.nesting_arr_le.mp hroom
    have hitems := values?_arranged fun v hv => ih v hv (hinner v hv)
    simp [ofJson, value?, Json.arranged, hitems]
  | obj members ih =>
    obtain ⟨inner, rfl, hinner⟩ := Json.nesting_obj_le.mp hroom
    have hmembers : members? inner (ofMembers members) [] =
        some (KeyMap.ofList (Json.arrangedMembers members)).entries :=
      members?_arranged (fun m hm => ih m hm (hinner m hm)) KeyMap.empty
    simp [ofJson, value?, Json.arranged, hmembers]

/-- A sorted value is the value of its document, if that may nest as deep. -/
theorem value?_ofJson {v : Json} {room : Nat} (hsorted : v.Sorted) (hroom : v.nesting ≤ room) :
    (ofJson v).value? room = some v := by
  rw [value?_arranged hroom, Json.arranged_of_sorted hsorted]

/-- Whatever the order of its members, a value has a document with some value, if that may nest as deep. -/
theorem isSome_value?_ofJson {v : Json} {room : Nat} (hroom : v.nesting ≤ room) :
    ((ofJson v).value? room).isSome := by
  rw [value?_arranged hroom]
  rfl

theorem ofItems_eq_map (items : List Json) : ofItems items = items.map ofJson := by
  induction items with
  | nil => rfl
  | cons v rest ih => rw [ofItems, ih, List.map_cons]

theorem ofMembers_eq_map (members : List (String × Json)) :
    ofMembers members = members.map fun m => (some m.1, ofJson m.2) := by
  induction members with
  | nil => rfl
  | cons m rest ih => rw [ofMembers, ih, List.map_cons]

/-- A value is told by its document. -/
theorem ofJson_inj {v w : Json} : ofJson v = ofJson w ↔ v = w := by
  refine ⟨fun h => ?_, congrArg ofJson⟩
  induction v generalizing w with
  | null | bool | int | float | str => cases w <;> simp_all [ofJson]
  | arr items ih =>
    cases w with
    | arr items' =>
      have hitems : items.map ofJson = items'.map ofJson := by
        rw [← ofItems_eq_map, ← ofItems_eq_map, (Document.array.inj h).1]
      rw [eq_of_map_eq (fun v hv w => ih v hv) hitems]
    | _ => simp [ofJson] at h
  | obj members ih =>
    cases w with
    | obj members' =>
      have hmembers : members.map (fun m => (some m.1, ofJson m.2)) = members'.map fun m => (some m.1, ofJson m.2) := by
        rw [← ofMembers_eq_map, ← ofMembers_eq_map, (Document.object.inj h).1]
      have hmember : ∀ m ∈ members, ∀ m' : String × Json, (some m.1, ofJson m.2) = (some m'.1, ofJson m'.2) → m = m' := by
        intro m hm m' heq
        obtain ⟨hname, hvalue⟩ := Prod.mk.inj heq
        exact Prod.ext (Option.some.inj hname) (ih m hm hvalue)
      rw [eq_of_map_eq hmember hmembers]
    | _ => simp [ofJson] at h

/-- Induction over a document: what is shown of an array or object may use that it holds of all that stands in it. -/
@[elab_as_elim, induction_eliminator]
theorem inside_induction {motive : Document → Prop} (hole : motive .hole) (null : motive .null)
    (bool : ∀ b, motive (.bool b)) (int : ∀ n, motive (.int n)) (float : ∀ value, motive (.float value))
    (text : ∀ content, motive (.text content))
    (array : ∀ items ending, (∀ d ∈ items, motive d) → motive (.array items ending))
    (object : ∀ members ending, (∀ m ∈ members, motive m.2) → motive (.object members ending))
    (d : Document) : motive d :=
  @Document.rec motive (fun items => ∀ d ∈ items, motive d) (fun members => ∀ m ∈ members, motive m.2) (fun m => motive m.2)
    hole null bool int float text array object
    (List.forall_mem_nil _) (fun _ _ hd hrest => List.forall_mem_cons.mpr ⟨hd, hrest⟩)
    (List.forall_mem_nil _) (fun _ _ hm hrest => List.forall_mem_cons.mpr ⟨hm, hrest⟩) (fun _ _ hd => hd) d

/-- Only a closed array has a value, and only where one more level is allowed. -/
theorem value?_array {room : Nat} {items : List Document} {ending : Ending} {v : Json}
    (h : (array items ending).value? room = some v) :
    ∃ inner, room = inner + 1 ∧ ∃ vs, values? inner items = some vs ∧ .arr vs = v := by
  simp only [value?, Option.ite_none_left_eq_some, Option.map_eq_some_iff] at h
  obtain ⟨hopen, vs, hvs, rfl⟩ := h
  exact ⟨room - 1, by omega, vs, hvs, rfl⟩

/-- Only a closed object has a value, and only where one more level is allowed. -/
theorem value?_object {room : Nat} {members : List (Option String × Document)} {ending : Ending} {v : Json}
    (h : (object members ending).value? room = some v) :
    ∃ inner, room = inner + 1 ∧ ∃ ms, members? inner members [] = some ms ∧ .obj ms = v := by
  simp only [value?, Option.ite_none_left_eq_some, Option.map_eq_some_iff] at h
  obtain ⟨hopen, ms, hms, rfl⟩ := h
  exact ⟨room - 1, by omega, ms, hms, rfl⟩

mutual

/-- All whole numbers of the document fit 64 bits. -/
def fits : Document → Bool
  | .int n => Json.InRange n
  | .array items _ => itemsFit items
  | .object members _ => membersFit members
  | _ => true

/-- All whole numbers of the items fit 64 bits. -/
def itemsFit : List Document → Bool
  | [] => true
  | d :: rest => fits d && itemsFit rest

/-- All whole numbers of the members fit 64 bits. -/
def membersFit : List (Option String × Document) → Bool
  | [] => true
  | (_, d) :: rest => fits d && membersFit rest

end

@[simp] theorem fits_array {items : List Document} {ending : Ending} :
    (array items ending).fits ↔ ∀ d ∈ items, d.fits := by
  rw [fits]
  induction items with
  | nil => simp [itemsFit]
  | cons d rest ih => simp [itemsFit, ih]

@[simp] theorem fits_object {members : List (Option String × Document)} {ending : Ending} :
    (object members ending).fits ↔ ∀ m ∈ members, m.2.fits := by
  rw [fits]
  induction members with
  | nil => simp [membersFit]
  | cons m rest ih => simp [membersFit, ih]

/-- The parts of an array or object. -/
def parts : Document → List Document
  | .array items _ => items
  | .object members _ => members.map Prod.snd
  | _ => []

theorem fits_of_mem_parts {d part : Document} (h : d.fits) (hpart : part ∈ d.parts) : part.fits := by
  cases d with
  | array items ending => exact fits_array.mp h part hpart
  | object members ending =>
    obtain ⟨m, hm, rfl⟩ := List.mem_map.mp hpart
    exact fits_object.mp h m hm
  | _ => cases hpart

/-- Every item of the value of an array is the value of an item. -/
theorem exists_of_mem_values? {room : Nat} {items : List Document} {vs : List Json} (h : values? room items = some vs) :
    ∀ v ∈ vs, ∃ d ∈ items, d.value? room = some v := by
  induction items generalizing vs with
  | nil =>
    cases h
    exact List.forall_mem_nil _
  | cons d rest ih =>
    simp only [values?, Option.bind_eq_bind, Option.bind_eq_some_iff] at h
    obtain ⟨w, hw, ws, hws, hcons⟩ := h
    cases hcons
    refine List.forall_mem_cons.mpr ⟨⟨d, List.mem_cons_self, hw⟩, fun v hv => ?_⟩
    obtain ⟨d', hd', hv⟩ := ih hws v hv
    exact ⟨d', List.mem_cons_of_mem d hd', hv⟩

/-- Every member of the value of an object was read before or is the value of a member. -/
theorem exists_of_mem_members? {room : Nat} {members : List (Option String × Document)} {read ms : List (String × Json)}
    (h : members? room members read = some ms) :
    ∀ m ∈ ms, m ∈ read ∨ ∃ d ∈ members, d.2.value? room = some m.2 := by
  induction members generalizing read with
  | nil =>
    cases h
    exact fun m hm => .inl hm
  | cons d rest ih =>
    simp only [members?, Option.bind_eq_bind, Option.bind_eq_some_iff] at h
    obtain ⟨name, -, v, hv, h⟩ := h
    intro m hm
    rcases ih h m hm with hmem | ⟨d', hd', hm⟩
    · rcases KeyMap.mem_insertEntry hmem with rfl | hread
      · exact .inr ⟨d, List.mem_cons_self, hv⟩
      · exact .inl hread
    · exact .inr ⟨d', List.mem_cons_of_mem d hd', hm⟩

/-- Reading the members of an object keeps them ascending. -/
theorem ascending_members? {room : Nat} {members : List (Option String × Document)} {read ms : List (String × Json)}
    (h : members? room members read = some ms) (hasc : KeyMap.Ascending read) : KeyMap.Ascending ms := by
  induction members generalizing read with
  | nil =>
    cases h
    exact hasc
  | cons d rest ih =>
    simp only [members?, Option.bind_eq_bind, Option.bind_eq_some_iff] at h
    obtain ⟨name, -, v, -, h⟩ := h
    exact ih h (KeyMap.ascending_insertEntry name v hasc)

/-- The value of a document is sorted, nests no deeper than it may, and its whole numbers fit if those of the document do. -/
theorem value?_spec {room : Nat} {d : Document} {v : Json} (h : d.value? room = some v) :
    v.Sorted ∧ v.nesting ≤ room ∧ (d.fits → v.Fits) := by
  induction d generalizing room v with
  | hole => cases h
  | null | bool =>
    cases h
    exact ⟨rfl, Nat.zero_le _, fun _ => rfl⟩
  | int n =>
    cases h
    exact ⟨rfl, Nat.zero_le _, fun hfits => (Json.fits_int n).mpr (of_decide_eq_true hfits)⟩
  | float | text =>
    obtain ⟨x, -, rfl⟩ := Option.map_eq_some_iff.mp h
    exact ⟨rfl, Nat.zero_le _, fun _ => rfl⟩
  | array items ending ih =>
    obtain ⟨inner, rfl, vs, hvs, rfl⟩ := value?_array h
    have hall : ∀ v ∈ vs, v.Sorted ∧ v.nesting ≤ inner ∧ ((array items ending).fits → v.Fits) := by
      intro v hv
      obtain ⟨d, hd, hv⟩ := exists_of_mem_values? hvs v hv
      obtain ⟨hsorted, hinner, hfits⟩ := ih d hd hv
      exact ⟨hsorted, hinner, fun h => hfits (fits_array.mp h d hd)⟩
    exact ⟨(Json.sorted_arr vs).mpr fun v hv => (hall v hv).1,
      Json.nesting_arr_le.mpr ⟨inner, rfl, fun v hv => (hall v hv).2.1⟩,
      fun h => (Json.fits_arr vs).mpr fun v hv => (hall v hv).2.2 h⟩
  | object members ending ih =>
    obtain ⟨inner, rfl, ms, hms, rfl⟩ := value?_object h
    have hall : ∀ m ∈ ms, m.2.Sorted ∧ m.2.nesting ≤ inner ∧ ((object members ending).fits → m.2.Fits) := by
      intro m hm
      obtain ⟨d, hd, hv⟩ := (exists_of_mem_members? hms m hm).resolve_left List.not_mem_nil
      obtain ⟨hsorted, hinner, hfits⟩ := ih d hd hv
      exact ⟨hsorted, hinner, fun h => hfits (fits_object.mp h d hd)⟩
    exact ⟨(Json.sorted_obj ms).mpr ⟨ascending_members? hms .nil, fun m hm => (hall m hm).1⟩,
      Json.nesting_obj_le.mpr ⟨inner, rfl, fun m hm => (hall m hm).2.1⟩,
      fun h => (Json.fits_obj ms).mpr fun m hm => (hall m hm).2.2 h⟩

end Document

namespace Json

/-- Putting the members in order leaves them in order, all the way down. -/
theorem sorted_arranged (v : Json) : v.arranged.Sorted :=
  (Document.value?_spec (Document.value?_arranged (Nat.le_refl v.nesting))).1

end Json

end Chronicle
