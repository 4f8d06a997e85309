import Arborist.Decimal.Nearest

/-!
# The shortest decimal that reads back

Every finite double is the nearest double of a whole interval of numbers.  Its shortest decimal is
the point of that interval on the coarsest decimal grid that has one, and of two such points the one
nearer to the double.  Of two that are equally near it is the even one.
-/

namespace Arborist.Binary

/-- Four times the bounds of the interval of numbers that read as a positive double, in its own
units.  Below a power of two the neighbour is half as far away. -/
def bounds (b : Binary) : Nat × Nat :=
  let gap := if b.units = Nat.pow 2 52 ∧ leastExponent < b.exponent then 1 else 2
  (4 * b.units - gap, 4 * b.units + 2)

/-- Whether the fraction `num / den` of the double's quarter units lies in the interval of `bounds`.
The bounds belong to it if the units are even, because a tie then goes to the double. -/
def admits (b : Binary) (num den : Nat) : Bool :=
  let (low, high) := b.bounds
  if b.units % 2 = 0 then low * den ≤ num && num ≤ high * den
  else low * den < num && num < high * den

/-- The point of the grid of multiples of `10 ^ g` that reads as the double and is nearest to it, as
a number of such steps.  A tie goes to the even multiple. -/
def onGrid? (b : Binary) (g : Int) : Option Nat :=
  -- `c * 10 ^ g` is `c * (tn * fd) / (td * fn)` quarter units
  let (tn, td) := scaled 10 1 g
  let (fn, fd) := scaled 2 1 (b.exponent - 2)
  let num := tn * fd
  let den := td * fn
  let value := 4 * b.units * den
  let below := value / num
  let above := below + 1
  let twice := 2 * (value - below * num)
  let nearer := if twice < num ∨ (twice = num ∧ below % 2 = 0) then below else above
  let farther := if nearer = below then above else below
  if b.admits (nearer * num) den then some nearer
  else if b.admits (farther * num) den then some farther
  else none

def gridAbove (b : Binary) : Int :=
  ((b.units.log2 : Int) + b.exponent + 1) * 30103 / 100000 + 2

/-- The shortest decimal that reads back as a finite double.  The grids are tried from `gridAbove`
on, each ten times as fine as the one before; seventeen digits always do. -/
def shortest (b : Binary) : Decimal :=
  if b.units = 0 then ⟨b.negative, 0, 0⟩
  else
    let hit := (List.range 24).findSome? fun (i : Nat) =>
      let g := b.gridAbove - (i : Int)
      (b.onGrid? g).map fun c => Decimal.mk b.negative c g
    hit.getD ⟨b.negative, 0, 0⟩

end Arborist.Binary
