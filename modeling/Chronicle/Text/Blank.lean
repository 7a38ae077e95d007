/-!
# Blank text

The characters of the Unicode property White_Space, and the texts that hold no other character.
-/

namespace Chronicle

namespace Text

/-- The ranges of the property White_Space, first and last code point. -/
def whiteSpace : List (Nat × Nat) :=
  [(0x09, 0x0D), (0x20, 0x20), (0x85, 0x85), (0xA0, 0xA0), (0x1680, 0x1680), (0x2000, 0x200A), (0x2028, 0x2029),
    (0x202F, 0x202F), (0x205F, 0x205F), (0x3000, 0x3000)]

/-- Whether a character is white space. -/
def isSpace (c : Char) : Bool := whiteSpace.any fun r => r.1 ≤ c.toNat && c.toNat ≤ r.2

/-- Whether nothing is left of a text once it is trimmed. -/
def isBlank (s : String) : Bool := s.toList.all isSpace

/-- The table holds twenty-five characters. -/
example : (whiteSpace.map fun r => r.2 + 1 - r.1).sum = 25 := by decide

end Text

end Chronicle
