import Arborist.Decimal.Basic

/-!
# The double nearest to a decimal

Reading a decimal rounds it to the nearest double, a tie going to the double with an even last bit.
The quotient that is rounded is exact, so nothing depends on intermediate precision.
-/

namespace Arborist

/-- The whole number nearest to the fraction `num / den`, ties going to the even one. -/
def nearestQuotient (num den : Nat) : Nat :=
  let q := num / den
  let r := num % den
  if 2 * r < den then q
  else if den < 2 * r then q + 1
  else q + q % 2

namespace Binary

def leastExponent : Int := -1074

/-- The exponent at which the positive fraction `num / den` keeps 53 bits, or `leastExponent` for a
fraction too small for that. -/
def exponentFor (num den : Nat) : Int :=
  let estimate : Int := (num.log2 : Int) - den.log2 - 52
  let fits := fun e : Int =>
    let (n, d) := scaled 2 num (-e)
    n < Nat.pow 2 53 * (d * den)
  let e := if fits (estimate - 1) then estimate - 1 else estimate
  max leastExponent e

/-- Units and exponent of the double nearest to the positive fraction `num / den`.  Units of `2 ^
53` stand for the first double of the next exponent, which `Binary.toFloat` knows. -/
def ofFraction (negative : Bool) (num den : Nat) : Binary :=
  let e := exponentFor num den
  let (n, d) := scaled 2 num (-e)
  ⟨negative, nearestQuotient n (d * den), e⟩

def infinityBits : Nat := 0x7FF0000000000000

/-- The double with these units and exponent, or an infinity if it is too large for one.
Consecutive bit patterns are consecutive doubles, so units that carry over need no case of their
own. -/
def toFloat (b : Binary) : Float :=
  let bits := min infinityBits ((b.exponent - leastExponent).toNat * Nat.pow 2 52 + b.units)
  Float.ofBits (UInt64.ofNat (if b.negative then Nat.pow 2 63 + bits else bits))

def ofFloat (x : Float) : Binary :=
  let bits := x.toBits.toNat
  let biased := bits / Nat.pow 2 52 % Nat.pow 2 11
  let fraction := bits % Nat.pow 2 52
  let negative := decide (Nat.pow 2 63 ≤ bits)
  if biased = 0 then ⟨negative, fraction, leastExponent⟩
  else ⟨negative, Nat.pow 2 52 + fraction, leastExponent + (biased - 1 : Nat)⟩

end Binary

namespace Decimal

def greaterPower (d : Decimal) : Nat := d.units.log2 / 3 + 1

/-- The double nearest to a decimal.  Decimals from `10 ^ 310` on are infinite as doubles, and those
below `10 ^ -330` are zero.  All others are fractions of numbers not much longer than the decimal
itself, which `Binary.ofFraction` can divide. -/
def toFloat (d : Decimal) : Float :=
  if d.units = 0 then Binary.toFloat ⟨d.negative, 0, Binary.leastExponent⟩
  else if 310 ≤ d.exponent then
    Binary.toFloat ⟨d.negative, Binary.infinityBits, Binary.leastExponent⟩
  else if d.exponent + d.greaterPower ≤ -330 then
    Binary.toFloat ⟨d.negative, 0, Binary.leastExponent⟩
  else
    let (num, den) := scaled 10 d.units d.exponent
    (Binary.ofFraction d.negative num den).toFloat

end Decimal
end Arborist
