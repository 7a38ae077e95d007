import Chronicle.Json.Codec

/-!
# Event keys

An event is looked up in a transition table under its key. A text is its own key, and an event that is borrowed or optional has
the key it would have by itself. A JSON event has the text of its `type` as key; without a type, or with the type `null`, its
own text stands for it, and a type that is no text gives its text.
-/

namespace Chronicle

/-- The key of no event: of a root node and of the event `null`. -/
def noEventKey : String := "null"

/-- The key of a state that was forced by hand. No table may use it. -/
def overrideKey : String := "__override"

/-- Types whose values are looked up in a transition table. -/
class EventKey (E : Type) where
  /-- The key an event is looked up under. -/
  key : E → String

export EventKey (key)

instance : EventKey String where
  key s := s

instance {E : Type} [EventKey E] : EventKey (Option E) where
  key
    | some e => key e
    | none => noEventKey

/-- An event that belongs to someone else and is only looked at. -/
structure Borrowed (E : Type) where
  event : E

instance {E : Type} [EventKey E] : EventKey (Borrowed E) where
  key b := key b.event

/-- The key of a JSON event. -/
def Json.key : Json → String
  | .null => noEventKey
  | .str s => s
  | .obj members =>
    match members.lookup "type" with
    | some (.str s) => s
    | some .null | none => (Json.obj members).render
    | some type => type.render
  | v => v.render

instance : EventKey Json where
  key := Json.key

end Chronicle
