import Chronicle.Json.Value
import Chronicle.Json.Shortest

/-!
# The text of a JSON value

The compact text: no blanks, the members of an object in the order they stand in, and in strings an escape only for the quote,
the backslash and the control characters below U+0020.
-/

namespace Chronicle

namespace Json

/-- A character of a string as the text spells it. -/
def escape (c : Char) : List Char :=
  if c = '"' then ['\\', '"']
  else if c = '\\' then ['\\', '\\']
  else if c = '\x08' then ['\\', 'b']
  else if c = '\t' then ['\\', 't']
  else if c = '\n' then ['\\', 'n']
  else if c = '\x0c' then ['\\', 'f']
  else if c = '\r' then ['\\', 'r']
  else if c.toNat < 32 then ['\\', 'u', '0', '0', Nat.digitChar (c.toNat / 16), Nat.digitChar (c.toNat % 16)]
  else [c]

/-- A string between quotes. -/
def quoted (s : String) : List Char := '"' :: (s.toList.flatMap escape ++ ['"'])

/-- The digits of a whole number, after a minus sign if it is negative. -/
def intText (n : Int) : List Char :=
  if n < 0 then '-' :: Nat.toDigits 10 n.natAbs else Nat.toDigits 10 n.natAbs

/-- A decimal is written positionally while its first digit stands at an exponent from -5 to 15, and then has at least one
fraction digit; otherwise its first digit, a point if there are more, and the exponent with its sign. -/
def decimalText (d : Decimal) : List Char :=
  let digits := d.text
  let first := d.firstExponent
  if -5 ≤ first ∧ first ≤ 15 then
    if 0 ≤ d.exponent then digits ++ List.replicate d.exponent.toNat '0' ++ ['.', '0']
    else if 0 ≤ first then digits.take (first.toNat + 1) ++ '.' :: digits.drop (first.toNat + 1)
    else '0' :: '.' :: (List.replicate (-first - 1).toNat '0' ++ digits)
  else
    let mantissa := match digits with
      | [] => []
      | [d] => [d]
      | d :: more => d :: '.' :: more
    let sign := if first < 0 then '-' else '+'
    mantissa ++ 'e' :: sign :: Nat.toDigits 10 first.natAbs

/-- A double: the shortest decimal that reads back. -/
def floatText (x : Float) : List Char :=
  let bits := x.toBits.toNat
  let magnitude := bits % (UInt64.size / 2)
  let body := if magnitude = 0 then ['0', '.', '0'] else decimalText (.shortest (.ofBits magnitude))
  if magnitude < bits then '-' :: body else body

mutual

/-- The characters of the text of a value. -/
def chars : Json → List Char
  | .null => ['n', 'u', 'l', 'l']
  | .bool true => ['t', 'r', 'u', 'e']
  | .bool false => ['f', 'a', 'l', 's', 'e']
  | .int n => intText n
  | .float x => floatText x
  | .str s => quoted s
  | .arr items => '[' :: (charsItems items ++ [']'])
  | .obj members => '{' :: (charsMembers members ++ ['}'])

/-- The items of an array, with commas between them. -/
def charsItems : List Json → List Char
  | [] => []
  | [v] => chars v
  | v :: w :: rest => chars v ++ ',' :: charsItems (w :: rest)

/-- The members of an object, with commas between them. -/
def charsMembers : List (String × Json) → List Char
  | [] => []
  | [(k, v)] => quoted k ++ ':' :: chars v
  | (k, v) :: m :: rest => quoted k ++ ':' :: (chars v ++ ',' :: charsMembers (m :: rest))

end

/-- The text of a value. -/
def render (v : Json) : String := String.ofList (chars v)

end Json

end Chronicle
