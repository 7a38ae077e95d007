/-!
# Numerals: numbers as a text spells them

A numeral keeps the digits of a text. Its value is a whole number if it has neither point nor exponent and fits 64 bits (`-0`
does not: there is no negative zero among the whole numbers), and otherwise a double. A double is read from the leading digits
that fit an unsigned 64-bit number, by one multiplication or division with a power of ten; one that would be infinite has no
value.
-/

namespace Chronicle

/-- The number whose digits are those of `start` followed by the given ones, first digit first. -/
def Numeral.ofDigits (start : Nat) (digits : List Nat) : Nat := digits.foldl (fun n d => 10 * n + d) start

/-- A number as a text spells it: sign, digits before the point, digits after it (none if there is no point), and the sign and
digits of the exponent. -/
structure Numeral where
  negative : Bool
  whole : List Nat
  fraction : List Nat
  exponent : Option (Bool × List Nat)
deriving Repr, DecidableEq

namespace Numeral

/-- The leading digits of a numeral as far as they fit 64 bits, and the power of ten they count. -/
structure Leading where
  significand : Nat
  exponent : Int
deriving Repr, DecidableEq

/-- Takes up digits before the point; once one does not fit, it and those after it only count as places. -/
def Leading.whole (significand : Nat) : List Nat → Leading
  | [] => ⟨significand, 0⟩
  | d :: rest =>
    if 10 * significand + d < UInt64.size then Leading.whole (10 * significand + d) rest
    else ⟨significand, (rest.length : Int) + 1⟩

/-- Takes up digits after the point; once one does not fit, it and those after it are dropped. -/
def Leading.fraction (l : Leading) : List Nat → Leading
  | [] => l
  | d :: rest =>
    if 10 * l.significand + d < UInt64.size then Leading.fraction ⟨10 * l.significand + d, l.exponent - 1⟩ rest
    else l

/-- The power of ten as a double. -/
def powerOfTen (n : Nat) : Float := Float.ofScientific 1 false n

/-- The largest exponent whose power of ten is a double. -/
def maxExponent : Int := 308

/-- A double times `10 ^ e` for `e < 0`, divided by the largest power of ten until what is left is one. -/
def scaleDown (x : Float) (e : Int) : Float :=
  if -maxExponent ≤ e then x / powerOfTen (-e).toNat
  else if x == 0 then x
  else scaleDown (x / powerOfTen maxExponent.toNat) (e + maxExponent)
termination_by (-e).toNat
decreasing_by simp only [maxExponent] at *; omega

/-- A double times `10 ^ e`, unless that is infinite. -/
def scale (x : Float) (e : Int) : Option Float :=
  if e < 0 then some (scaleDown x e)
  else if e ≤ maxExponent then
    let y := x * powerOfTen e.toNat
    if y.isInf then none else some y
  else if x == 0 then some x
  else none

/-- The exponent that is written. -/
def writtenExponent (n : Numeral) : Int :=
  match n.exponent with
  | none => 0
  | some (negative, digits) => if negative then -(ofDigits 0 digits : Int) else ofDigits 0 digits

/-- The double a numeral stands for. -/
def float? (n : Numeral) : Option Float :=
  let l := (Leading.whole 0 n.whole).fraction n.fraction
  (scale l.significand.toUInt64.toFloat (l.exponent + n.writtenExponent)).map fun x => if n.negative then -x else x

/-- The whole number a numeral stands for: without point and exponent, within 64 bits, and not `-0`. -/
def int? (n : Numeral) : Option Int :=
  let m := ofDigits 0 n.whole
  if n.fraction ≠ [] ∨ n.exponent.isSome then none
  else if n.negative then if 0 < m ∧ m ≤ UInt64.size / 2 then some (-(m : Int)) else none
  else if m < UInt64.size then some m else none

end Numeral

end Chronicle
