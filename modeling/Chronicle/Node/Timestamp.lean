import Chronicle.Json.Codec
import Chronicle.Text.Blank

/-!
# Timestamps

A timestamp is a moment of universal time, to the nanosecond, held as a date, the second of the day and the nanoseconds. In a
leap second, which follows second 59 of a minute, the nanoseconds run on from a thousand million.

It is written as `YYYY-MM-DDTHH:MM:SS`, a fraction of three, six or nine digits if one is needed, and `Z`. It is read with any
offset: `Z`, `UTC` or signed hours and minutes. Blanks may stand between the parts, leading zeros may be left off, and of the
fraction nine digits count.
-/

namespace Chronicle

/-- A day of the calendar. -/
structure Date where
  year : Int
  month : Nat
  day : Nat
deriving DecidableEq, Repr

namespace Date

/-- Whether a year has 366 days. -/
def isLeap (year : Int) : Bool := year % 4 = 0 && (year % 100 ≠ 0 || year % 400 = 0)

/-- The number of days of a month. -/
def daysIn (year : Int) (month : Nat) : Nat :=
  if month = 2 then if isLeap year then 29 else 28
  else if month = 4 ∨ month = 6 ∨ month = 9 ∨ month = 11 then 30
  else 31

/-- Whether there is such a day, within the years that are counted. -/
def Exists (d : Date) : Prop :=
  -262143 ≤ d.year ∧ d.year ≤ 262142 ∧ 1 ≤ d.month ∧ d.month ≤ 12 ∧ 1 ≤ d.day ∧ d.day ≤ daysIn d.year d.month

instance (d : Date) : Decidable d.Exists := by unfold Exists; infer_instance

/-- The day after. -/
def tomorrow (d : Date) : Date :=
  if d.day < daysIn d.year d.month then { d with day := d.day + 1 }
  else if d.month < 12 then { d with month := d.month + 1, day := 1 }
  else ⟨d.year + 1, 1, 1⟩

/-- The day before. -/
def yesterday (d : Date) : Date :=
  if 1 < d.day then { d with day := d.day - 1 }
  else if 1 < d.month then { d with month := d.month - 1, day := daysIn d.year (d.month - 1) }
  else ⟨d.year - 1, 12, 31⟩

/-- The number of days from the first of January of the year 1 to a day, both counted. -/
def ordinal (d : Date) : Int :=
  let past := d.year - 1
  365 * past + past / 4 - past / 100 + past / 400 +
    (List.range (d.month - 1)).foldl (fun days m => days + daysIn d.year (m + 1)) 0 + d.day

end Date

/-- A moment of universal time. -/
structure Timestamp where
  date : Date
  /-- The second of the day. -/
  second : Nat
  nano : Nat
  date_exists : date.Exists
  second_lt : second < 86400
  nano_lt : nano < 1000000000 ∨ second % 60 = 59 ∧ nano < 2000000000
deriving DecidableEq

namespace Timestamp

/-- The moment of the given parts, if there is one. -/
def ofParts? (date : Date) (second nano : Nat) : Option Timestamp :=
  if h : date.Exists ∧ second < 86400 ∧ (nano < 1000000000 ∨ second % 60 = 59 ∧ nano < 2000000000) then
    some ⟨date, second, nano, h.1, h.2.1, h.2.2⟩
  else none

/-- The beginning of the year 1970. -/
def epoch : Timestamp := ⟨⟨1970, 1, 1⟩, 0, 0, by decide, by decide, by decide⟩

/-- The milliseconds since the beginning of the year 1970, rounded down. -/
def milliseconds (t : Timestamp) : Int :=
  ((t.date.ordinal - epoch.date.ordinal) * 86400 + t.second) * 1000 + t.nano / 1000000

/-! ## Writing -/

/-- A number with zeros before it, up to a width. -/
def padded (width n : Nat) : List Char :=
  let digits := Nat.toDigits 10 n
  List.replicate (width - digits.length) '0' ++ digits

/-- A year: four digits, and a sign if it is negative or needs more. -/
def yearText (year : Int) : List Char :=
  if 0 ≤ year ∧ year ≤ 9999 then padded 4 year.natAbs
  else (if year < 0 then '-' else '+') :: padded 4 year.natAbs

/-- The fraction of a second: nothing, or the fewest of three, six and nine digits. -/
def fractionText (nano : Nat) : List Char :=
  if nano = 0 then []
  else if nano % 1000000 = 0 then '.' :: padded 3 (nano / 1000000)
  else if nano % 1000 = 0 then '.' :: padded 6 (nano / 1000)
  else '.' :: padded 9 nano

/-- The characters of the written form. -/
def chars (t : Timestamp) : List Char :=
  let leap := if t.nano < 1000000000 then 0 else 1
  yearText t.date.year ++ '-' :: (padded 2 t.date.month ++ '-' :: (padded 2 t.date.day ++ 'T' ::
    (padded 2 (t.second / 3600) ++ ':' :: (padded 2 (t.second / 60 % 60) ++ ':' ::
      (padded 2 (t.second % 60 + leap) ++ (fractionText (t.nano % 1000000000) ++ ['Z']))))))

/-- The written form. -/
def text (t : Timestamp) : String := String.ofList t.chars

/-! ## Reading -/

/-- The text without the blanks at its beginning. -/
def trimStart (cs : List Char) : List Char := cs.dropWhile Text.isSpace

/-- The digits at the beginning of a text, at most `width` of them, and the rest. -/
def digits : (width : Nat) → List Char → List Nat × List Char
  | 0, cs => ([], cs)
  | _ + 1, [] => ([], [])
  | width + 1, c :: cs =>
    match Token.digit? c with
    | some d => let (ds, rest) := digits width cs; (d :: ds, rest)
    | none => ([], c :: cs)

/-- Reads a number of at least one and at most `width` digits. -/
def number (width : Nat) (cs : List Char) : Option (Nat × List Char) :=
  match digits width cs with
  | ([], _) => none
  | (ds, rest) => some (Numeral.ofDigits 0 ds, rest)

/-- Reads a number of at most two digits after blanks. -/
def part (cs : List Char) : Option (Nat × List Char) := number 2 (trimStart cs)

/-- Reads a year after blanks: with a sign it may have any number of digits. -/
def year (cs : List Char) : Option (Int × List Char) :=
  match trimStart cs with
  | '-' :: cs => (number cs.length cs).map fun (n, rest) => (-(n : Int), rest)
  | '+' :: cs => (number cs.length cs).map fun (n, rest) => ((n : Int), rest)
  | cs => (number 4 cs).map fun (n, rest) => ((n : Int), rest)

/-- Reads a mark after blanks. -/
def mark (c : Char) (cs : List Char) : Option (List Char) :=
  match trimStart cs with
  | d :: rest => if d = c then some rest else none
  | [] => none

/-- Reads the nanoseconds of a fraction, if there is one. -/
def fraction (cs : List Char) : Option (Nat × List Char) :=
  match cs with
  | '.' :: cs =>
    match digits 9 cs with
    | ([], _) => none
    | (ds, rest) => some (Numeral.ofDigits 0 ds * Nat.pow 10 (9 - ds.length), rest.dropWhile fun c => (Token.digit? c).isSome)
  | cs => some (0, cs)

/-- Reads two digits. -/
def pair : List Char → Option (Nat × List Char)
  | c :: d :: rest => do return (10 * (← Token.digit? c) + (← Token.digit? d), rest)
  | _ => none

/-- Reads the offset from universal time, in seconds. -/
def offset (cs : List Char) : Option (Int × List Char) :=
  match cs with
  | 'Z' :: rest | 'z' :: rest => some (0, rest)
  | sign :: rest => do
    if (cs.take 3).map Char.toUpper = ['U', 'T', 'C'] then return (0, cs.drop 3)
    let negative ← if sign = '+' then some false else if sign = '-' ∨ sign = '−' then some true else none
    let (hours, rest) ← pair rest
    let (minutes, rest) ← pair (rest.dropWhile fun c => c = ':' || Text.isSpace c)
    if 60 ≤ minutes then none
    let seconds : Int := hours * 3600 + minutes * 60
    if 86400 ≤ seconds then none
    return (if negative then -seconds else seconds, rest)
  | [] => none

/-- The moment at which clocks with the given offset show the given time. -/
def atOffset (date : Date) (second nano : Nat) (offset : Int) : Option Timestamp :=
  let utc := (second : Int) - offset
  if ¬ date.Exists then none
  else if utc < 0 then ofParts? date.yesterday (utc + 86400).toNat nano
  else if 86400 ≤ utc then ofParts? date.tomorrow (utc - 86400).toNat nano
  else ofParts? date utc.toNat nano

/-- Reads a timestamp. -/
def ofChars? (cs : List Char) : Option Timestamp := do
  let (year, cs) ← year cs
  let (month, cs) ← part (← mark '-' cs)
  let (day, cs) ← part (← mark '-' cs)
  let cs ← match cs with
    | 't' :: rest | 'T' :: rest | ' ' :: rest => some rest
    | _ => none
  let (hour, cs) ← part cs
  let (minute, cs) ← part (← mark ':' cs)
  let (second, cs) ← part (← mark ':' cs)
  let (nano, cs) ← fraction cs
  let (offset, cs) ← offset (trimStart cs)
  if 23 < hour ∨ 59 < minute ∨ 60 < second ∨ trimStart cs ≠ [] then none
  if second = 60 then atOffset ⟨year, month, day⟩ (hour * 3600 + minute * 60 + 59) (1000000000 + nano) offset
  else atOffset ⟨year, month, day⟩ (hour * 3600 + minute * 60 + second) nano offset

/-- Reads a timestamp. -/
def ofText? (s : String) : Option Timestamp := ofChars? s.toList

instance : Codec Timestamp where
  write t := .str t.text
  read _ d := do
    match ofText? (← d.string) with
    | some t => .ok t
    | none => .error .malformed

end Timestamp

end Chronicle
