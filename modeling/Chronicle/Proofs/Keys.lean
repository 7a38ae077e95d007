import Chronicle.EventKey
import Chronicle.Proofs.RoundTrips

/-!
# Keys: what the key of an event says of it

A key is a name that the event bears, or the text of a value. `Bears` lists the forms in which a name can be sent: as a text, as a
JSON text, as the type of an object, and each of these borrowed or as an option (`Bears.key_eq`). A JSON event that bears no
name is known by its own text (`Json.key_of_nameless`), and an object whose type is no name by the text of that type
(`Json.key_of_type`). The text of a value tells the value, so events without a name have one key only if they are the same
(`Json.key_inj`).
-/

namespace Chronicle

namespace Json

/-- An event bears no name if it is no text and, if it is an object, has no type or the type `null`. -/
def Nameless : Json → Prop
  | .str _ => False
  | .obj members => members.lookup "type" = none ∨ members.lookup "type" = some .null
  | _ => True

/-- The key of an event without a name is its own text. -/
theorem key_of_nameless {e : Json} (h : e.Nameless) : e.key = e.render := by
  cases e with
  | str s => exact absurd h id
  | obj members => rcases h with h | h <;> simp only [key, h]
  | _ => rfl

/-- The key of an object whose type is neither a text nor `null` is the text of the type. -/
theorem key_of_type {members : List (String × Json)} {type : Json} (h : members.lookup "type" = some type)
    (hnull : type ≠ .null) (htext : ∀ s, type ≠ .str s) : (Json.obj members).key = type.render := by
  simp only [key, h]

/-- The key of an object whose type is a text is that text. -/
theorem key_of_name {members : List (String × Json)} {name : String} (h : members.lookup "type" = some (.str name)) :
    (Json.obj members).key = name := by
  simp only [key, h]

/-- Events without a name have one key only if they are the same. -/
theorem key_inj {e e' : Json} (he : e.Nameless) (he' : e'.Nameless) (hprint : e.Printable) (hprint' : e'.Printable) :
    e.key = e'.key ↔ e = e' := by
  rw [key_of_nameless he, key_of_nameless he', render_inj hprint hprint']

/-- A name may well be the text of an event that bears none. -/
example : (Json.str "true").key = (Json.bool true).key := by decide

end Json

/-- The forms in which a name is sent as an event. -/
inductive Bears (name : String) : {E : Type} → [EventKey E] → E → Prop where
  | text : Bears name name
  | value : Bears name (Json.str name)
  | typed {members : List (String × Json)} (h : members.lookup "type" = some (.str name)) : Bears name (Json.obj members)
  | borrowed {E : Type} [EventKey E] {e : E} (h : Bears name e) : Bears name (Borrowed.mk e)
  | option {E : Type} [EventKey E] {e : E} (h : Bears name e) : Bears name (some e)

/-- In whichever form a name is sent, it is the key. -/
theorem Bears.key_eq {name : String} {E : Type} [EventKey E] {e : E} (h : Bears name e) : key e = name := by
  induction h with
  | text | value => rfl
  | typed htype => exact Json.key_of_name htype
  | borrowed _ ih | option _ ih => exact ih

end Chronicle
