import Chronicle.Json.Token
import Chronicle.Json.Value

/-!
# Documents: what a text says, as far as it says it

A `Document` is the tree a text spells, kept close to the text: members keep their order and may repeat, and a string or a
numeral that means nothing has its place all the same. A text that breaks off or goes wrong somewhere still has a document,
with a hole where a value should stand and a mark on every array or object that was not closed. Whoever reads a document from
left to right therefore meets a mistake of the text at the place where it stands, after everything that the text said before
it. A JSON value has a document too, one without mistakes.

`Assembly` builds the document from the tokens, one at a time; the arrays and objects part way through are held as frames.
-/

namespace Chronicle

/-- How an array or an object ends in the text. -/
inductive Ending where
  | closed
  /-- The text breaks off or goes wrong before the closing bracket. -/
  | broken
deriving Repr, DecidableEq

/-- What a text says. -/
inductive Document where
  /-- No value stands where one should. -/
  | hole
  | null
  | bool (b : Bool)
  | int (n : Int)
  /-- Any other number; `none` is a numeral beyond every double. -/
  | float (value : Option Float)
  /-- A string; `none` is one that spells no text. -/
  | text (content : Option String)
  | array (items : List Document) (ending : Ending)
  | object (members : List (Option String × Document)) (ending : Ending)
deriving Repr

namespace Document

instance : Inhabited Document := ⟨.hole⟩

mutual

/-- Whether the document has no hole and all of it is closed. -/
def isWhole : Document → Bool
  | .hole => false
  | .null | .bool _ | .int _ | .float _ | .text _ => true
  | .array items ending => areWhole items && ending = .closed
  | .object members ending => membersAreWhole members && ending = .closed

/-- Whether every item is whole. -/
def areWhole : List Document → Bool
  | [] => true
  | d :: rest => isWhole d && areWhole rest

/-- Whether the value of every member is whole. -/
def membersAreWhole : List (Option String × Document) → Bool
  | [] => true
  | (_, d) :: rest => isWhole d && membersAreWhole rest

end

mutual

/-- The value a document spells, if it is whole, every string of it means a text, every number of it is one, and at most `room`
arrays and objects of it stand inside one another. The last of several members with one name stays. -/
def value? (room : Nat) : Document → Option Json
  | .hole => none
  | .null => some .null
  | .bool b => some (.bool b)
  | .int n => some (.int n)
  | .float value => value.map .float
  | .text content => content.map .str
  | .array items ending =>
    if room = 0 ∨ ending ≠ .closed then none else (values? (room - 1) items).map .arr
  | .object members ending =>
    if room = 0 ∨ ending ≠ .closed then none else (members? (room - 1) members []).map .obj

/-- The values of the items of an array. -/
def values? (room : Nat) : List Document → Option (List Json)
  | [] => some []
  | d :: rest => do
    let v ← value? room d
    let vs ← values? room rest
    return v :: vs

/-- The members of an object, written into those read before them. -/
def members? (room : Nat) : List (Option String × Document) → List (String × Json) → Option (List (String × Json))
  | [], read => some read
  | (key, d) :: rest, read => do
    let k ← key
    let v ← value? room d
    members? room rest (KeyMap.insertEntry k v read)

end

/-- The document of a numeral. -/
def ofNumeral (n : Numeral) : Document :=
  match n.int? with
  | some m => .int m
  | none => .float n.float?

mutual

/-- The document of a value, which is whole. -/
def ofJson : Json → Document
  | .null => .null
  | .bool b => .bool b
  | .int n => .int n
  | .float x => .float (some x)
  | .str s => .text (some s)
  | .arr items => .array (ofItems items) .closed
  | .obj members => .object (ofMembers members) .closed

/-- The documents of the items of an array. -/
def ofItems : List Json → List Document
  | [] => []
  | v :: rest => ofJson v :: ofItems rest

/-- The documents of the members of an object. -/
def ofMembers : List (String × Json) → List (Option String × Document)
  | [] => []
  | (name, v) :: rest => (some name, ofJson v) :: ofMembers rest

end

end Document

/-- An array or object that waits for a value: what stands in it already, newest first. -/
inductive Assembly.Frame where
  | items (done : List Document)
  | member (done : List (Option String × Document)) (name : Option String)
deriving Repr

/-- A document part way through: what may come next, and the frames that wait, innermost first. -/
inductive Assembly where
  /-- A value. -/
  | value (frames : List Assembly.Frame)
  /-- The first item of an array, or its end. -/
  | firstItem (frames : List Assembly.Frame)
  /-- A comma, or the end of the array. -/
  | afterItem (done : List Document) (frames : List Assembly.Frame)
  /-- The first name of an object, or its end. -/
  | firstName (frames : List Assembly.Frame)
  /-- The name of one more member. -/
  | nextName (done : List (Option String × Document)) (frames : List Assembly.Frame)
  /-- The colon after a name. -/
  | colon (done : List (Option String × Document)) (name : Option String) (frames : List Assembly.Frame)
  /-- A comma, or the end of the object. -/
  | afterMember (done : List (Option String × Document)) (frames : List Assembly.Frame)
  /-- Nothing: the document stands, and `whole` says whether the text was in order. -/
  | finished (document : Document) (whole : Bool)
deriving Repr

namespace Assembly

/-- Puts a value into the innermost frame. -/
def put (d : Document) : List Frame → Assembly
  | [] => .finished d true
  | .items done :: frames => .afterItem (d :: done) frames
  | .member done name :: frames => .afterMember ((name, d) :: done) frames

/-- The document around a part that is not whole: everything around it stays open. -/
def surround (d : Document) : List Frame → Document
  | [] => d
  | .items done :: frames => surround (.array (d :: done).reverse .broken) frames
  | .member done name :: frames => surround (.object ((name, d) :: done).reverse .broken) frames

/-- The document if nothing more comes. -/
def document : Assembly → Document
  | .value frames => surround .hole frames
  | .firstItem frames => surround (.array [] .broken) frames
  | .afterItem done frames => surround (.array done.reverse .broken) frames
  | .firstName frames => surround (.object [] .broken) frames
  | .nextName done frames => surround (.object done.reverse .broken) frames
  | .colon done name frames => surround (.object ((name, .hole) :: done).reverse .broken) frames
  | .afterMember done frames => surround (.object done.reverse .broken) frames
  | .finished document _ => document

/-- Gives up: the text is not in order from here on. -/
def giveUp (a : Assembly) : Assembly := .finished a.document false

/-- Takes a token where a value should stand. -/
def takeValue (frames : List Frame) : Token → Assembly
  | .openArray => .firstItem frames
  | .openObject => .firstName frames
  | .null => put .null frames
  | .bool b => put (.bool b) frames
  | .number n => put (.ofNumeral n) frames
  | .text content => put (.text content) frames
  | .closeArray | .closeObject | .colon | .comma => giveUp (.value frames)

/-- Takes one token. -/
def step (a : Assembly) (t : Token) : Assembly :=
  match a, t with
  | .value frames, t => takeValue frames t
  | .firstItem frames, .closeArray => put (.array [] .closed) frames
  | .firstItem frames, t => takeValue (.items [] :: frames) t
  | .afterItem done frames, .comma => .value (.items done :: frames)
  | .afterItem done frames, .closeArray => put (.array done.reverse .closed) frames
  | .firstName frames, .closeObject => put (.object [] .closed) frames
  | .firstName frames, .text name => .colon [] name frames
  | .nextName done frames, .text name => .colon done name frames
  | .colon done name frames, .colon => .value (.member done name :: frames)
  | .afterMember done frames, .comma => .nextName done frames
  | .afterMember done frames, .closeObject => put (.object done.reverse .closed) frames
  | a, _ => a.giveUp

/-- Ends the text: the document, and whether the text was in order. -/
def finish (a : Assembly) : Document × Bool :=
  match a with
  | .finished document whole => (document, whole)
  | a => (a.document, false)

/-- Assembles tokens. -/
def run (tokens : List Token) : Document × Bool := (tokens.foldl step (.value [])).finish

end Assembly

/-- The document of a text, and whether the text is in order: one value with nothing after it. -/
def Document.ofText (text : String) : Document × Bool :=
  let scan := Scan.run text.toList
  let (document, whole) := Assembly.run scan.tokens.reverse
  (document, whole && scan.whole)

end Chronicle
