import Chronicle.Json.Codec

/-!
# Node ids

A node id is a number of 128 bits, held as its 32 hexadecimal digits. It is written in lower case with hyphens after the 8th,
12th, 16th and 20th digit, and read in either case: so, without hyphens, in braces, or after `urn:uuid:`, itself in either case.
-/

namespace Chronicle

/-- A node id. -/
structure NodeId where
  digits : List (Fin 16)
  length_eq : digits.length = 32
deriving DecidableEq

namespace NodeId

/-- The id of the given number: different numbers below `2 ^ 128` have different ids. -/
def ofNat (n : Nat) : NodeId where
  digits := (List.range 32).map fun i => Fin.ofNat 16 (n / Nat.pow 16 (31 - i))
  length_eq := by simp

/-- The sizes of the groups between hyphens. -/
def groups : List Nat := [8, 4, 4, 4, 12]

/-- Writes digits in groups with hyphens between them. -/
def grouped : List Nat → List (Fin 16) → List Char
  | [], _ => []
  | [size], ds => (ds.take size).map fun d => Nat.digitChar d.val
  | size :: more, ds => (ds.take size).map (fun d => Nat.digitChar d.val) ++ '-' :: grouped more (ds.drop size)

/-- The written form. -/
def text (id : NodeId) : String := String.ofList (grouped groups id.digits)

/-- Reads the given number of digits. -/
def takeDigits : Nat → List Char → Option (List (Fin 16) × List Char)
  | 0, cs => some ([], cs)
  | _ + 1, [] => none
  | n + 1, c :: cs => do
    let d ← Token.hexDigit? c
    let (ds, rest) ← takeDigits n cs
    return (Fin.ofNat 16 d :: ds, rest)

/-- Reads digits in groups with hyphens between them, up to the end of the text. -/
def ofGroups : List Nat → List Char → Option (List (Fin 16))
  | [], cs => if cs.isEmpty then some [] else none
  | [size], cs => do
    let (ds, rest) ← takeDigits size cs
    if rest.isEmpty then some ds else none
  | size :: more, cs => do
    let (ds, rest) ← takeDigits size cs
    match rest with
    | '-' :: rest => do return ds ++ (← ofGroups more rest)
    | _ => none

/-- What may stand before the digits, in either case. -/
def scheme : String := "urn:uuid:"

/-- The text without the parts that may stand around the digits. -/
def unwrap (cs : List Char) : List Char :=
  match cs with
  | '{' :: inner => if inner.getLast? = some '}' then inner.dropLast else cs
  | _ => if (cs.take scheme.length).map Char.toLower = scheme.toList then cs.drop scheme.length else cs

/-- Reads an id in one of its forms. -/
def ofText? (s : String) : Option NodeId := do
  let cs := s.toList
  let ds ← if cs.length = 32 then ofGroups [32] cs else ofGroups groups (unwrap cs)
  if h : ds.length = 32 then some ⟨ds, h⟩ else none

instance : Codec NodeId where
  write id := .str id.text
  read _ d := do
    match ofText? (← d.string) with
    | some id => .ok id
    | none => .error .malformed

end NodeId

end Chronicle
