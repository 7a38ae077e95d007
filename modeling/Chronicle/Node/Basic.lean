import Chronicle.Node.Id
import Chronicle.Node.Timestamp
import Chronicle.Trigger
import Chronicle.Json.Record

/-!
# Nodes: the points of a history

A node says which state a machine was in, the context it carried, what caused it and which node it was derived from. The
parent is an index into the history that stores the node; it is there for audit, and moving about in a history never follows it.
-/

namespace Chronicle

/-- One point of a history. -/
structure Node (C E : Type) where
  state : String
  context : C
  trigger : Trigger E
  timestamp : Timestamp
  parent : Option Nat
  id : Option NodeId
deriving DecidableEq, BEq

namespace Node

variable {C E : Type}

/-- A node that nothing caused and that is derived from none. -/
def root (state : String) (context : C) (timestamp : Timestamp) : Node C E :=
  { state, context, trigger := .none, timestamp, parent := none, id := none }

/-- The node with an id. -/
def withId (n : Node C E) (id : NodeId) : Node C E := { n with id := some id }

/-- Whether the node is derived from none. -/
def isRoot (n : Node C E) : Bool := n.parent.isNone

/-- How an index is shown. -/
def indexText (index : Nat) : String := "#" ++ String.ofList (Nat.toDigits 10 index)

/-- An index is written as a number; one of 64 bits can be read. -/
instance indexCodec : Codec Nat where
  write n := .int n
  read _ d := do return (← d.whole 0 UInt64.size).toNat

/-- The members of a node. -/
def record (C E : Type) [Codec C] [Codec E] :
    Record (String × C × Trigger E × Timestamp × Option Nat × Option NodeId × Unit) :=
  .cons (.required "state_value") <| .cons (.required "context") <| .cons (.required "event") <|
    .cons (.required "timestamp") <| .cons (.required "parent") <| .cons (.required "id") .nil

instance [Codec C] [Codec E] : Codec (Node C E) :=
  (record C E).codec (fun n => (n.state, n.context, n.trigger, n.timestamp, n.parent, n.id, ()))
    fun (state, context, trigger, timestamp, parent, id, ()) => { state, context, trigger, timestamp, parent, id }

end Node

/-- What tells one written node from another: its id and the time it was written at. -/
structure Stamp where
  id : NodeId
  time : Timestamp
deriving DecidableEq

/-- The stamp of the given number; different numbers have different ids. -/
def Stamp.ofNat (n : Nat) : Stamp := ⟨.ofNat n, .epoch⟩

end Chronicle
