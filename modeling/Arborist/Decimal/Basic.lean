/-!
# Decimal numbers

A decimal is a sign, a whole number of units and the power of ten that one unit stands for.  The
sign is kept apart from the units because zero has two signs.

Binary numbers meet decimals through `Binary`, a whole number times a power of two: the finite
doubles are those with at most 53 bits of units and an exponent of at least -1074.
-/

namespace Arborist

/-- The number `units * 10 ^ exponent`, with a sign of its own, so that there are two zeros.  A
`Binary` is the same with powers of two. -/
structure Decimal where
  negative : Bool
  units : Nat
  exponent : Int
  deriving DecidableEq, Repr

structure Binary where
  negative : Bool
  units : Nat
  exponent : Int
  deriving DecidableEq, Repr

/-- A fraction of whole numbers that equals `base ^ exponent * units`, as its numerator and its
denominator.  The denominator is `1` unless `exponent` is negative. -/
def scaled (base units : Nat) (exponent : Int) : Nat × Nat :=
  match exponent with
  | .ofNat n => (units * base.pow n, 1)
  | .negSucc n => (units, base.pow (n + 1))

namespace Decimal

def digits (d : Decimal) : List Char :=
  Nat.toDigits 10 d.units

def scientificExponent (d : Decimal) : Int :=
  d.exponent + (d.digits.length - 1 : Nat)

end Decimal
end Arborist
