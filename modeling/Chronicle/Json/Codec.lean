import Chronicle.Json.Document
import Chronicle.Json.Printer

/-!
# Codecs: types with a written form

A type with a `Codec` can be written as a JSON value and read from a document. Reading goes through the document in the order
of the text and ends at the first fault; what was written before a fault, or stands in a member that is skipped, does not
matter. Arrays and objects may stand at most 127 deep inside one another; reading carries the number that may still be opened.
-/

namespace Chronicle

/-- Why a text could not be read as a value of some type. -/
inductive Fault where
  /-- A member that is needed is not there. -/
  | missingField (name : String)
  /-- A member is there twice. -/
  | duplicateField (name : String)
  /-- No case of a type has this name; `known` are the names of its cases. -/
  | unknownVariant (name : String) (known : List String)
  /-- The value has none of the forms the named type may take. -/
  | noMatchingForm (type : String)
  /-- A value of another kind was expected. -/
  | invalidType
  /-- The kind is right, the value is out of range. -/
  | invalidValue
  /-- An array that stands for a record is too short. -/
  | invalidLength
  /-- The text is no JSON, nests too deep, or spells a number, an id or a time that does not exist. -/
  | malformed
deriving Repr, DecidableEq

/-- The wording of a fault. -/
def Fault.message : Fault → String
  | .missingField name => "missing field `" ++ name ++ "`"
  | .duplicateField name => "duplicate field `" ++ name ++ "`"
  | .unknownVariant name known =>
    "unknown variant `" ++ name ++ "`, expected one of " ++ ", ".intercalate (known.map fun k => "`" ++ k ++ "`")
  | .noMatchingForm type => "data did not match any variant of untagged enum " ++ type
  | .invalidType => "invalid type"
  | .invalidValue => "invalid value"
  | .invalidLength => "invalid length"
  | .malformed => "malformed"

/-- How the values of a type are written and read. -/
class Codec (α : Type) where
  write : α → Json
  /-- Reads a document in which `room` arrays and objects may stand inside one another. -/
  read : (room : Nat) → Document → Except Fault α
  /-- What a record without a member of this type holds, if that is allowed. -/
  absent : Option α := none

/-- How many arrays and objects a text may nest. -/
def maxNesting : Nat := 127

/-- Reads a text that holds one value and nothing else. -/
def Codec.ofText {α : Type} [Codec α] (text : String) : Except Fault α := do
  let (document, whole) := Document.ofText text
  let v ← Codec.read maxNesting document
  if whole then .ok v else .error .malformed

/-- Reads a JSON value as a value of another type. -/
def Codec.ofJson {α : Type} [Codec α] (v : Json) : Except Fault α := Codec.read maxNesting (.ofJson v)

/-- The text of a value. -/
def Codec.toText {α : Type} [Codec α] (v : α) : String := (Codec.write v).render

namespace Document

/-- The fault of a document that is not of the kind wanted: a scalar that says nothing is malformed, whatever was wanted. -/
def mismatch : Document → Fault
  | .hole | .text none | .float none => .malformed
  | _ => .invalidType

/-- Opens an array or object, if that is still allowed. -/
def enter {α : Type} (room : Nat) (inside : Nat → Except Fault α) : Except Fault α :=
  match room with
  | 0 => .error .malformed
  | room + 1 => inside room

/-- Closes an array or object. -/
def close {α : Type} (ending : Ending) (v : α) : Except Fault α :=
  if ending = .closed then .ok v else .error .malformed

/-- Reads a string. -/
def string : Document → Except Fault String
  | .text (some s) => .ok s
  | d => .error d.mismatch

/-- Reads a truth value. -/
def truth : Document → Except Fault Bool
  | .bool b => .ok b
  | d => .error d.mismatch

/-- Reads `null`. -/
def unit : Document → Except Fault Unit
  | .null => .ok ()
  | d => .error d.mismatch

/-- Reads a whole number from `low` up to, but not including, `high`. -/
def whole (low high : Int) : Document → Except Fault Int
  | .int n => if low ≤ n ∧ n < high then .ok n else .error .invalidValue
  | d => .error d.mismatch

/-- Reads the items of an array. -/
def items {α : Type} (room : Nat) (item : Nat → Document → Except Fault α) : Document → Except Fault (List α)
  | .array ds ending => enter room fun room => do close ending (← ds.mapM (item room))
  | d => .error d.mismatch

/-- Reads one member of an object that is a table. -/
def tableMember {α : Type} (value : Document → Except Fault α) (m : KeyMap α) (member : Option String × Document) :
    Except Fault (KeyMap α) :=
  match member.1 with
  | some name => do return m.insert name (← value member.2)
  | none => .error .malformed

/-- Reads an object as a table; of several members with one name the last stays. -/
def table {α : Type} (room : Nat) (value : Nat → Document → Except Fault α) : Document → Except Fault (KeyMap α)
  | .object members ending => enter room fun room => do close ending (← members.foldlM (tableMember (value room)) ∅)
  | d => .error d.mismatch

end Document

instance : Codec Json where
  write v := v
  read room d := match d.value? room with
    | some v => .ok v
    | none => .error .malformed

instance : Codec String where
  write := .str
  read _ := Document.string

instance : Codec Bool where
  write := .bool
  read _ := Document.truth

instance : Codec Unit where
  write _ := .null
  read _ := Document.unit

instance : Codec UInt8 where
  write n := .int n.toNat
  read _ d := do return UInt8.ofNat (← d.whole 0 UInt8.size).toNat

instance : Codec UInt32 where
  write n := .int n.toNat
  read _ d := do return UInt32.ofNat (← d.whole 0 UInt32.size).toNat

instance : Codec UInt64 where
  write n := .int n.toNat
  read _ d := do return UInt64.ofNat (← d.whole 0 UInt64.size).toNat

instance : Codec Int64 where
  write n := .int n.toInt
  read _ d := do return Int64.ofInt (← d.whole Int64.minValue.toInt (Int64.maxValue.toInt + 1))

instance {α : Type} [Codec α] : Codec (Option α) where
  write
    | some v => Codec.write v
    | none => .null
  read room
    | .null => .ok none
    | d => some <$> Codec.read room d
  absent := some none

instance {α : Type} [Codec α] : Codec (List α) where
  write vs := .arr (vs.map Codec.write)
  read room := Document.items room Codec.read

instance {α : Type} [Codec α] : Codec (KeyMap α) where
  write m := .obj (m.entries.map fun e => (e.1, Codec.write e.2))
  read room := Document.table room Codec.read

end Chronicle
