import Arborist.Decimal.Shortest

/-!
# Decimals as text

A layout says which numbers are written positionally and how an exponent is written otherwise.
-/

namespace Arborist

/-- How a decimal is written.  Numbers whose `scientificExponent` lies between `leastPositional` and
`greatestPositional` are written positionally, always with a digit after the point; all others with
`mark` and a signed exponent. -/
structure DecimalLayout where
  leastPositional : Int
  greatestPositional : Int
  mark : String
  deriving Repr

namespace Decimal

def positional (d : Decimal) : String :=
  let ds := d.digits
  match d.scientificExponent with
  | .negSucc n => "0." ++ String.ofList (List.replicate n '0' ++ ds)
  | .ofNat n =>
    let whole := ds.take (n + 1) ++ List.replicate (n + 1 - ds.length) '0'
    let rest := ds.drop (n + 1)
    String.ofList whole ++ "." ++ (if rest.isEmpty then "0" else String.ofList rest)

def scientific (mark : String) (d : Decimal) : String :=
  let rest := d.digits.drop 1
  let e := d.scientificExponent
  String.ofList (d.digits.take 1) ++ (if rest.isEmpty then "" else "." ++ String.ofList rest)
    ++ mark ++ (if e < 0 then "-" else "+") ++ toString e.natAbs

def render (layout : DecimalLayout) (d : Decimal) : String :=
  let e := d.scientificExponent
  let body :=
    if layout.leastPositional ≤ e ∧ e ≤ layout.greatestPositional then d.positional
    else d.scientific layout.mark
  if d.negative then "-" ++ body else body

end Decimal
end Arborist
