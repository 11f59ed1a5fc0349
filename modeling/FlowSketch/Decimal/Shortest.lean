/-!
# FlowSketch.Decimal.Shortest

**The fewest digits that read back.** A positive float stands for all real numbers that round to it.
Among the decimals in that neighbourhood the shortest is wanted, and of those the one nearest to
the float; a tie goes up. The search runs in exact integer arithmetic: for one digit, two digits and
so on up to seventeen, only the two neighbours of the float on the grid of decimals with that many
digits can lie in the neighbourhood, since every other point of the grid is further away on the same
side.
-/

namespace FlowSketch

/-- The decimal number `digits * 10 ^ exponent`. -/
structure Decimal where
  digits : Nat
  exponent : Int
deriving DecidableEq, Repr, Inhabited

namespace Decimal

/-- The real numbers that round to one float, all over one denominator: those between `low / unit`
and `high / unit`, the ends included if `closed`. The float itself is `value / unit`. -/
structure Neighbourhood where
  low : Nat
  value : Nat
  high : Nat
  unit : Nat
  closed : Bool
deriving DecidableEq, Repr, Inhabited

namespace Neighbourhood

/-- The neighbourhood of the float `mantissa * 2 ^ exponent`. It reaches half way to the float's
neighbours, of which the lower one is only half as far if the mantissa is the least of its binade
(`narrow`). The ends round to even mantissas. -/
def ofBinary (mantissa : Nat) (exponent : Int) (narrow : Bool) : Neighbourhood :=
  let up := Nat.pow 2 (exponent - 2).toNat
  { low := (4 * mantissa - if narrow then 1 else 2) * up
    value := 4 * mantissa * up
    high := (4 * mantissa + 2) * up
    unit := Nat.pow 2 (2 - exponent).toNat
    closed := mantissa % 2 == 0 }

/-- Does the neighbourhood hold the number `n`? -/
def holds (nb : Neighbourhood) (n : Nat) : Bool :=
  if nb.closed then nb.low ≤ n * nb.unit && n * nb.unit ≤ nb.high
  else nb.low < n * nb.unit && n * nb.unit < nb.high

/-- The neighbourhood measured in multiples of `10 ^ exponent`. -/
def rescale (nb : Neighbourhood) (exponent : Int) : Neighbourhood :=
  let up := Nat.pow 10 (-exponent).toNat
  { nb with
    low := nb.low * up
    value := nb.value * up
    high := nb.high * up
    unit := nb.unit * Nat.pow 10 exponent.toNat }

/-- The whole number nearest to the float among those the neighbourhood holds, the greater of two
that are equally near. -/
def nearest? (nb : Neighbourhood) : Option Nat :=
  let below := nb.value / nb.unit
  let above := below + 1
  match nb.holds below, nb.holds above with
  | true, true => some (if 2 * (nb.value - below * nb.unit) < nb.unit then below else above)
  | true, false => some below
  | false, true => some above
  | false, false => none

end Neighbourhood

/-! ### The place of the leading digit -/

/-- The number of decimal digits, none for zero. -/
def digitCount (n : Nat) : Nat :=
  if h : n = 0 then 0 else digitCount (n / 10) + 1
termination_by n
decreasing_by omega

/-- The `e` for which a positive fraction lies between `10 ^ (e - 1)`, which it may equal, and
`10 ^ e`. Below one it is read off the reciprocal, rounded up. -/
def magnitude (numerator denominator : Nat) : Int :=
  if denominator ≤ numerator then digitCount (numerator / denominator)
  else -(digitCount ((denominator - 1) / numerator) : Int) + 1

/-! ### The search -/

/-- Seventeen digits tell any two floats apart. -/
def mostDigits : Nat := 17

/-- The shortest decimal in a neighbourhood, and of those the nearest to the float. -/
def shortest (nb : Neighbourhood) : Decimal :=
  let top := magnitude nb.value nb.unit
  let grid (count : Nat) : Option Decimal :=
    let exponent := top - (count + 1 : Nat)
    (nb.rescale exponent).nearest?.map fun digits => { digits, exponent }
  ((List.range mostDigits).findSome? grid).getD { digits := 0, exponent := 0 }

end Decimal

end FlowSketch
