import Chronicle.Json.Codec

/-!
# Records: objects with known members

A record type is written as an object whose members are its fields, in their order. It is read from an object with the fields
in any order, where members of other names are skipped, or from an array of the fields in their order.

A `Record ρ` lists the fields of a record type whose values are the nested pairs `ρ`. While an object is read every field has a
slot, which a member of its name fills.
-/

namespace Chronicle

/-- A field of a record. -/
structure Field (α : Type) where
  name : String
  /-- The member that is written, if one is. -/
  write : α → Option Json
  read : (room : Nat) → Document → Except Fault α
  /-- What an object without the member holds, if that is allowed. -/
  absent : Option α
  /-- What an array that ends before the field holds, if that is allowed. -/
  omitted : Option α

namespace Field

variable {α : Type} [Codec α]

/-- A field that is always written and has to be there. -/
def required (name : String) : Field α where
  name
  write v := some (Codec.write v)
  read := Codec.read
  absent := Codec.absent
  omitted := none

/-- A field that is always written and has a default. -/
def defaulted (name : String) (default : α) : Field α where
  name
  write v := some (Codec.write v)
  read := Codec.read
  absent := some default
  omitted := some default

/-- A field that is written only if it holds something. -/
def optional (name : String) : Field (Option α) where
  name
  write v := v.map Codec.write
  read := Codec.read
  absent := some none
  omitted := some none

end Field

/-- The fields of a record type, in their order. -/
inductive Record : Type → Type 1 where
  | nil : Record Unit
  | cons {α ρ : Type} (field : Field α) (rest : Record ρ) : Record (α × ρ)

namespace Record

/-- The members a record is written with. -/
def members {ρ : Type} : Record ρ → ρ → List (String × Json)
  | .nil, () => []
  | .cons field rest, (v, vs) =>
    match field.write v with
    | some j => (field.name, j) :: rest.members vs
    | none => rest.members vs

/-- The values read so far, field by field. -/
@[reducible] def Slots {ρ : Type} : Record ρ → Type
  | .nil => Unit
  | .cons (α := α) _ rest => Option α × rest.Slots

/-- No field is read yet. -/
def blank {ρ : Type} : (r : Record ρ) → r.Slots
  | .nil => ()
  | .cons _ rest => (none, rest.blank)

/-- Fills the slot of a field from a member of its name, `none` if no field has it. A name that comes again is a fault of its
own, whatever follows it. -/
def fill {ρ : Type} (room : Nat) (name : String) (d : Document) : (r : Record ρ) → r.Slots → Option (Except Fault r.Slots)
  | .nil, _ => none
  | .cons field rest, slots =>
    if name = field.name then
      some (if slots.1.isSome then .error (.duplicateField name)
        else (field.read room d).map fun v => (some v, slots.2))
    else (rest.fill room name d slots.2).map fun filled => filled.map fun later => (slots.1, later)

/-- Reads one member of an object. A member that no field claims only has to be in order. -/
def readMember {ρ : Type} (r : Record ρ) (room : Nat) (slots : r.Slots) (member : Option String × Document) :
    Except Fault r.Slots :=
  match member.1 with
  | none => .error .malformed
  | some name =>
    match r.fill room name member.2 slots with
    | some filled => filled
    | none => if member.2.isWhole then .ok slots else .error .malformed

/-- The values of all fields at the end of an object. The first field that is missing is at fault. -/
def finish {ρ : Type} : (r : Record ρ) → r.Slots → Except Fault ρ
  | .nil, _ => .ok ()
  | .cons field rest, slots =>
    match slots.1 <|> field.absent with
    | some v => do return (v, ← rest.finish slots.2)
    | none => .error (.missingField field.name)

/-- Reads the fields one after another from the items of an array. -/
def readItems {ρ : Type} (room : Nat) (ending : Ending) : Record ρ → List Document → Except Fault ρ
  | .nil, [] => Document.close ending ()
  | .nil, _ :: _ => .error .malformed
  | .cons field rest, d :: ds => do return (← field.read room d, ← rest.readItems room ending ds)
  | .cons field rest, [] =>
    if ending = .closed then
      match field.omitted with
      | some v => do return (v, ← rest.readItems room ending [])
      | none => .error .invalidLength
    else .error .malformed

/-- Reads a record from either of its forms. -/
def read {ρ : Type} (r : Record ρ) (room : Nat) : Document → Except Fault ρ
  | .object members ending =>
    Document.enter room fun room =>
      (members.foldlM (r.readMember room) r.blank).bind fun slots =>
        (Document.close ending slots).bind r.finish
  | .array items ending => Document.enter room fun room => r.readItems room ending items
  | d => .error d.mismatch

/-- The codec of a type whose values are the records `r`. -/
@[reducible] def codec {ρ α : Type} (r : Record ρ) (fields : α → ρ) (make : ρ → α) : Codec α where
  write v := .obj (r.members (fields v))
  read room d := make <$> r.read room d

end Record

end Chronicle
