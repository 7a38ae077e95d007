/-!
# Shortest decimals

A positive double is `m * 2 ^ q` with natural `m`. The decimals that read back as it fill an interval around it, whose ends
belong to it exactly if `m` is even. Among them `Decimal.shortest` takes one with the fewest digits, and of those the nearest
one to the double (of two equally near ones the one with the even last digit). The search is exact: every comparison is one of
natural numbers.
-/

namespace Chronicle

/-- The decimal `digits * 10 ^ exponent`. -/
structure Decimal where
  digits : Nat
  exponent : Int
deriving Repr, DecidableEq

namespace Decimal

/-- A positive double, as `significand * 2 ^ exponent`. -/
structure Binary where
  significand : Nat
  exponent : Int
  /-- The next double below is only half a step away. -/
  leastOfBinade : Bool
deriving Repr, DecidableEq

/-- The parts of a finite double, its sign apart. -/
def Binary.ofBits (bits : Nat) : Binary :=
  let fraction : Nat := bits % Nat.pow 2 52
  let field : Nat := bits / Nat.pow 2 52 % Nat.pow 2 11
  if field = 0 then ⟨fraction, -1074, false⟩
  else ⟨Nat.pow 2 52 + fraction, (field : Int) - 1075, fraction = 0 && 1 < field⟩

/-- A nonnegative fraction: `numerator / denominator`. -/
structure Ratio where
  numerator : Nat
  denominator : Nat
deriving Repr, DecidableEq

/-- The fraction `n * 2 ^ q`. -/
def Ratio.scaled (n : Nat) (q : Int) : Ratio :=
  if 0 ≤ q then ⟨n * Nat.pow 2 q.toNat, 1⟩ else ⟨n, Nat.pow 2 (-q).toNat⟩

/-- The fraction divided by `10 ^ e`. -/
def Ratio.shift (r : Ratio) (e : Int) : Ratio :=
  if 0 ≤ e then ⟨r.numerator, r.denominator * Nat.pow 10 e.toNat⟩ else ⟨r.numerator * Nat.pow 10 (-e).toNat, r.denominator⟩

/-- The largest whole number not above the fraction. -/
def Ratio.floor (r : Ratio) : Nat := r.numerator / r.denominator

/-- Whether the fraction is below another. -/
def Ratio.lt (r s : Ratio) : Bool := r.numerator * s.denominator < s.numerator * r.denominator

/-- Whether the fraction is not above another. -/
def Ratio.le (r s : Ratio) : Bool := r.numerator * s.denominator ≤ s.numerator * r.denominator

/-- The exponent of the first digit of a positive fraction: `10 ^ e ≤ r < 10 ^ (e + 1)`. -/
def Ratio.magnitude (r : Ratio) : Int :=
  if r.denominator ≤ r.numerator then ((Nat.toDigits 10 r.floor).length : Int) - 1
  else
    let e := ((Nat.toDigits 10 (r.denominator / r.numerator)).length : Int) - 1
    if r.numerator * Nat.pow 10 e.toNat = r.denominator then -e else -(e + 1)

/-- The decimals that read back as a double. -/
structure Interval where
  low : Ratio
  value : Ratio
  high : Ratio
  closed : Bool

/-- The interval of a double reaches half way to its neighbours. -/
def Binary.interval (b : Binary) : Interval where
  low := .scaled (4 * b.significand - if b.leastOfBinade then 1 else 2) (b.exponent - 2)
  value := .scaled b.significand b.exponent
  high := .scaled (4 * b.significand + 2) (b.exponent - 2)
  closed := b.significand % 2 = 0

/-- Whether `d * 10 ^ k` reads back as the double. -/
def Interval.holds (i : Interval) (d : Nat) (k : Int) : Bool :=
  let low := i.low.shift k
  let high := i.high.shift k
  if i.closed then low.le ⟨d, 1⟩ && Ratio.le ⟨d, 1⟩ high else low.lt ⟨d, 1⟩ && Ratio.lt ⟨d, 1⟩ high

/-- The better of the two neighbours of the double on the grid of the multiples of `10 ^ k`, if one reads back. -/
def Interval.onGrid (i : Interval) (k : Int) : Option Nat :=
  let scaled := i.value.shift k
  let d := scaled.floor
  let middle : Ratio := ⟨2 * d + 1, 2⟩
  match i.holds d k, i.holds (d + 1) k with
  | true, true =>
    if scaled.lt middle then some d else if middle.lt scaled then some (d + 1)
    else some (if d % 2 = 0 then d else d + 1)
  | true, false => some d
  | false, true => some (d + 1)
  | false, false => none

/-- A decimal without the zeros at its end. -/
def trim (digits : Nat) (exponent : Int) : Decimal :=
  if 0 < digits ∧ digits % 10 = 0 then trim (digits / 10) (exponent + 1) else ⟨digits, exponent⟩
termination_by digits
decreasing_by omega

/-- The shortest decimal that reads back as a positive double: seventeen digits always suffice. -/
def shortest (b : Binary) : Decimal :=
  let i := b.interval
  let e := i.value.magnitude
  let hit := (List.range 17).findSome? fun (n : Nat) => (i.onGrid (e - n)).map fun d => (d, e - n)
  match hit with
  | some (d, k) => trim d k
  | none => trim (i.value.shift (e - 17)).floor (e - 17)

/-- The digits of the decimal, first to last. -/
def text (d : Decimal) : List Char := Nat.toDigits 10 d.digits

/-- The exponent of its first digit. -/
def firstExponent (d : Decimal) : Int := d.exponent + (d.text.length - 1 : Nat)

end Decimal

end Chronicle
