import Chronicle.Json.Numeral

/-!
# Tokens of a JSON text

A text is read one character at a time: `Scan.step` takes the state of reading and the next character, and a text is the fold of
the step. The scan stops at the first character that no token of the language can hold; the tokens before it stand.

A string that escapes half of a surrogate pair is a token without content: its spelling is that of a string, yet no text is
meant by it. What is skipped may hold such strings, what is read may not.
-/

namespace Chronicle

/-- A token of a JSON text. -/
inductive Token where
  | openArray
  | closeArray
  | openObject
  | closeObject
  | colon
  | comma
  | null
  | bool (b : Bool)
  | number (n : Numeral)
  /-- A string, `none` if it escapes half of a surrogate pair. -/
  | text (content : Option String)
deriving Repr, DecidableEq

namespace Token

/-- The characters between tokens. -/
def isBlank (c : Char) : Bool := c = ' ' || c = '\n' || c = '\t' || c = '\r'

/-- The value of a decimal digit. -/
def digit? (c : Char) : Option Nat := if '0' ≤ c ∧ c ≤ '9' then some (c.toNat - 48) else none

/-- The value of a hexadecimal digit of either case. -/
def hexDigit? (c : Char) : Option Nat :=
  if '0' ≤ c ∧ c ≤ '9' then some (c.toNat - 48)
  else if 'a' ≤ c ∧ c ≤ 'f' then some (c.toNat - 87)
  else if 'A' ≤ c ∧ c ≤ 'F' then some (c.toNat - 55)
  else none

/-- How far a numeral has been read. -/
inductive Phase where
  /-- After the minus sign. -/
  | sign
  /-- After a zero that stands first: no digit may follow. -/
  | zero
  | whole
  | point
  | fraction
  /-- After the letter of the exponent. -/
  | mark
  | markSign
  | exponent
deriving Repr, DecidableEq

/-- Whether a numeral may end here. -/
def Phase.complete : Phase → Bool
  | .zero | .whole | .fraction | .exponent => true
  | .sign | .point | .mark | .markSign => false

/-- What the next character does to a numeral. -/
inductive Growth where
  | grown (phase : Phase) (n : Numeral)
  /-- The numeral ended before the character. -/
  | ended
  /-- No numeral goes on like this. -/
  | broken
deriving Repr, DecidableEq

/-- The numeral with one more digit of its exponent. -/
def withExponentDigit (n : Numeral) (d : Nat) : Numeral :=
  { n with exponent := n.exponent.map fun e => (e.1, e.2 ++ [d]) }

/-- Reads one more character of a numeral. -/
def grow (phase : Phase) (n : Numeral) (c : Char) : Growth :=
  match phase, digit? c with
  | .sign, some 0 => .grown .zero { n with whole := [0] }
  | .sign, some d => .grown .whole { n with whole := [d] }
  | .zero, some _ => .broken
  | .whole, some d => .grown .whole { n with whole := n.whole ++ [d] }
  | .point, some d | .fraction, some d => .grown .fraction { n with fraction := n.fraction ++ [d] }
  | .mark, some d | .markSign, some d | .exponent, some d => .grown .exponent (withExponentDigit n d)
  | .mark, none =>
    if c = '+' then .grown .markSign n
    else if c = '-' then .grown .markSign { n with exponent := some (true, []) }
    else .broken
  | phase, none =>
    if (phase = .zero ∨ phase = .whole) ∧ c = '.' then .grown .point n
    else if phase.complete ∧ phase ≠ .exponent ∧ (c = 'e' ∨ c = 'E') then
      .grown .mark { n with exponent := some (false, []) }
    else if phase.complete then .ended
    else .broken

/-- A string as far as it has been read: its characters (newest first), whether all its escapes meant a character, and the first
half of a surrogate pair if the second is due. -/
structure Spelling where
  chars : List Char
  sound : Bool
  half : Option Nat
deriving Repr, DecidableEq

/-- The string without a character. -/
def Spelling.start : Spelling := ⟨[], true, none⟩

/-- The string with one more character; a half pair before it stays half. -/
def Spelling.push (s : Spelling) (c : Char) : Spelling :=
  ⟨c :: s.chars, s.sound && s.half.isNone, none⟩

/-- The string with one more code unit that was escaped by its number. -/
def Spelling.pushUnit (s : Spelling) (unit : Nat) : Spelling :=
  match s.half with
  | some high =>
    if 0xDC00 ≤ unit ∧ unit ≤ 0xDFFF then
      ⟨Char.ofNat (0x10000 + (high - 0xD800) * 0x400 + (unit - 0xDC00)) :: s.chars, s.sound, none⟩
    else ⟨s.chars, false, none⟩
  | none =>
    if 0xDC00 ≤ unit ∧ unit ≤ 0xDFFF then ⟨s.chars, false, none⟩
    else if 0xD800 ≤ unit ∧ unit ≤ 0xDBFF then ⟨s.chars, s.sound, some unit⟩
    else s.push (Char.ofNat unit)

/-- What the string says once it is closed. -/
def Spelling.content (s : Spelling) : Option String :=
  if s.sound && s.half.isNone then some (String.ofList s.chars.reverse) else none

/-- The character an escape by letter means. -/
def unescape? (c : Char) : Option Char :=
  if c = '"' ∨ c = '\\' ∨ c = '/' then some c
  else if c = 'b' then some '\x08'
  else if c = 'f' then some '\x0c'
  else if c = 'n' then some '\n'
  else if c = 'r' then some '\r'
  else if c = 't' then some '\t'
  else none

end Token

/-- What is being read. -/
inductive Scan.Mode where
  /-- Between two tokens. -/
  | between
  /-- Inside a word of which the given letters are still to come. -/
  | word (rest : List Char) (token : Token)
  | numeral (phase : Token.Phase) (n : Numeral)
  | text (s : Token.Spelling)
  /-- After a backslash. -/
  | escape (s : Token.Spelling)
  /-- After backslash and `u`: the hexadecimal digits read so far and their value. -/
  | unit (s : Token.Spelling) (digits : Nat) (value : Nat)
  /-- At a character that no token can hold. -/
  | stopped
deriving Repr, DecidableEq

/-- The state of reading a text: what is being read, and the tokens read so far, newest first. -/
structure Scan where
  mode : Scan.Mode
  tokens : List Token
deriving Repr, DecidableEq

namespace Scan

open Token

/-- Nothing read yet. -/
def start : Scan := ⟨.between, []⟩

/-- The scan after one more token. -/
def emit (s : Scan) (t : Token) : Scan := ⟨.between, t :: s.tokens⟩

/-- The scan in another mode. -/
def go (s : Scan) (mode : Mode) : Scan := { s with mode }

/-- Reads a character at which a token may begin. -/
def begin (s : Scan) (c : Char) : Scan :=
  if isBlank c then s.go .between
  else if c = '[' then s.emit .openArray
  else if c = ']' then s.emit .closeArray
  else if c = '{' then s.emit .openObject
  else if c = '}' then s.emit .closeObject
  else if c = ':' then s.emit .colon
  else if c = ',' then s.emit .comma
  else if c = '"' then s.go (.text .start)
  else if c = 'n' then s.go (.word ['u', 'l', 'l'] .null)
  else if c = 't' then s.go (.word ['r', 'u', 'e'] (.bool true))
  else if c = 'f' then s.go (.word ['a', 'l', 's', 'e'] (.bool false))
  else if c = '-' then s.go (.numeral .sign ⟨true, [], [], none⟩)
  else match grow .sign ⟨false, [], [], none⟩ c with
    | .grown phase n => s.go (.numeral phase n)
    | .ended | .broken => s.go .stopped

/-- Reads one character. -/
def step (s : Scan) (c : Char) : Scan :=
  match s.mode with
  | .between => s.begin c
  | .word rest token =>
    match rest with
    | [] => s.go .stopped
    | [last] => if c = last then s.emit token else s.go .stopped
    | next :: more => if c = next then s.go (.word more token) else s.go .stopped
  | .numeral phase n =>
    match grow phase n c with
    | .grown phase n => s.go (.numeral phase n)
    | .ended => (s.emit (.number n)).begin c
    | .broken => s.go .stopped
  | .text t =>
    if c = '"' then s.emit (.text t.content)
    else if c = '\\' then s.go (.escape t)
    else if c.toNat < 32 then s.go .stopped
    else s.go (.text (t.push c))
  | .escape t =>
    if c = 'u' then s.go (.unit t 0 0)
    else match unescape? c with
      | some d => s.go (.text (t.push d))
      | none => s.go .stopped
  | .unit t digits value =>
    match hexDigit? c with
    | some d =>
      if digits = 3 then s.go (.text (t.pushUnit (16 * value + d)))
      else s.go (.unit t (digits + 1) (16 * value + d))
    | none => s.go .stopped
  | .stopped => s

/-- Ends the text: a numeral may be the last token. -/
def finish (s : Scan) : Scan :=
  match s.mode with
  | .numeral phase n => if phase.complete then s.emit (.number n) else s.go .stopped
  | .between => s
  | _ => s.go .stopped

/-- Reads a whole text. -/
def run (cs : List Char) : Scan := (cs.foldl step start).finish

/-- Whether the text was tokens from its beginning to its end. -/
def whole (s : Scan) : Bool := s.mode = .between

end Scan

end Chronicle
