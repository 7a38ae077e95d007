import Chronicle.EventKey

/-!
# Triggers: what caused a node

A trigger is written as an object whose member `kind` names the case and whose member `event` holds the event, if there is one.
It is read from these members in either order, with members of other names skipped, or from the array of the two. The kind is a
name; as a member it may also be an object around that name. An event that comes before its kind is first read as it stands
and understood once the kind is known.
-/

namespace Chronicle

/-- What caused a node to exist. -/
inductive Trigger (E : Type) where
  /-- No event: the root of a history. -/
  | none
  /-- A state forced by hand. -/
  | override
  /-- An event that was looked up in the transition table. -/
  | event (e : E)
deriving DecidableEq, Repr

namespace Trigger

variable {E : Type}

/-- Whether the state was forced by hand. -/
def isOverride : Trigger E → Bool
  | .override => true
  | _ => false

/-- Whether nothing caused the node. -/
def isNone : Trigger E → Bool
  | .none => true
  | _ => false

/-- The event of a trigger. -/
def event? : Trigger E → Option E
  | .event e => some e
  | _ => Option.none

/-- Triggers are equal if they are of one kind and their events are equal. -/
def beq [BEq E] : Trigger E → Trigger E → Bool
  | .none, .none => true
  | .override, .override => true
  | .event a, .event b => a == b
  | _, _ => false

instance [BEq E] : BEq (Trigger E) := ⟨beq⟩

instance [EventKey E] : EventKey (Trigger E) where
  key
    | .none => noEventKey
    | .override => overrideKey
    | .event e => EventKey.key e

/-- The kinds of triggers. -/
inductive Kind where
  | none
  | override
  | event
deriving DecidableEq, Repr

/-- The names of the kinds. -/
def Kind.name : Kind → String
  | .none => "none"
  | .override => "override"
  | .event => "event"

/-- All kinds. -/
def Kind.all : List Kind := [.none, .override, .event]

/-- The kind of a name. -/
def Kind.ofName (name : String) : Except Fault Kind :=
  match Kind.all.find? fun k => k.name = name with
  | some k => .ok k
  | Option.none => .error (.unknownVariant name (Kind.all.map Kind.name))

/-- Reads the kind from a member: its name, or an object with the name as only member and `null` as its value. -/
def readKind (room : Nat) : Document → Except Fault Kind
  | .text (some name) => Kind.ofName name
  | .object ((some name, d) :: rest) ending =>
    Document.enter room fun _ => do
      let kind ← Kind.ofName name
      d.unit
      if rest.isEmpty ∧ ending = .closed then .ok kind else .error .malformed
  | _ => .error .malformed

/-- Reads what stands under `event` once the kind is known. -/
def readContent [Codec E] (room : Nat) (kind : Kind) (d : Document) : Except Fault (Trigger E) :=
  match kind with
  | .none => do d.unit; return .none
  | .override => do d.unit; return .override
  | .event => .event <$> Codec.read room d

/-- The trigger of a kind if nothing stands under `event`. -/
def withoutContent [Codec E] : Kind → Except Fault (Trigger E)
  | .none => .ok .none
  | .override => .ok .override
  | .event =>
    match (Codec.absent : Option E) with
    | some e => .ok (.event e)
    | Option.none => .error (.missingField "event")

/-- What has been read of the members. -/
inductive Progress (E : Type) where
  | nothing
  | kind (k : Kind)
  /-- The event came first: its document is in order and waits for the kind. -/
  | content (d : Document)
  | both (t : Trigger E)

/-- Reads one member. -/
def readMember [Codec E] (room : Nat) (progress : Progress E) (member : Option String × Document) :
    Except Fault (Progress E) :=
  match member.1 with
  | Option.none => .error .malformed
  | some "kind" =>
    match progress with
    | .nothing => .kind <$> readKind room member.2
    | .content d => do return .both (← readContent room (← readKind room member.2) d)
    | .kind _ | .both _ => .error (.duplicateField "kind")
  | some "event" =>
    match progress with
    | .nothing => if (member.2.value? room).isSome then .ok (.content member.2) else .error .malformed
    | .kind k => .both <$> readContent room k member.2
    | .content _ | .both _ => .error (.duplicateField "event")
  | some _ => if member.2.isWhole then .ok progress else .error .malformed

/-- The trigger at the end of the members. -/
def finish [Codec E] : Progress E → Except Fault (Trigger E)
  | .nothing | .content _ => .error (.missingField "kind")
  | .kind k => withoutContent k
  | .both t => .ok t

/-- Reads a trigger from either of its forms. -/
def read [Codec E] (room : Nat) : Document → Except Fault (Trigger E)
  | .object members ending =>
    Document.enter room fun room => do
      let progress ← members.foldlM (readMember room) .nothing
      finish (← Document.close ending progress)
  | .array items ending =>
    Document.enter room fun room =>
      match items with
      | [] => do Document.close ending (); .error .invalidLength
      | kind :: rest => do
        let kind ← Kind.ofName (← kind.string)
        match rest with
        | [] => do Document.close ending (); .error .invalidLength
        | content :: more => do
          let t ← readContent room kind content
          if more.isEmpty then Document.close ending t else .error .malformed
  | d => .error d.mismatch

/-- The written form. -/
def write [Codec E] : Trigger E → Json
  | .none => .obj [("kind", .str Kind.none.name)]
  | .override => .obj [("kind", .str Kind.override.name)]
  | .event e => .obj [("kind", .str Kind.event.name), ("event", Codec.write e)]

instance [Codec E] : Codec (Trigger E) where
  write := write
  read := read

end Trigger

end Chronicle
