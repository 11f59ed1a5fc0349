import FlowSketch.Binary64

/-!
# FlowSketch.LogOnePlus

**The logarithm of one plus a number.** For an `x` near zero the sum `1 + x` has lost most digits of
`x`, and its logarithm with them. Here the logarithm is found from `x` itself, to within one unit in
the last place.

* A tiny `x` is its own logarithm up to the square term.
* For an `x` whose `1 + x` lies between about `√½` and `√2` the logarithm is an expansion in
  `s = x / (2 + x)`, since `ln (1 + x) = ln (1 + s) - ln (1 - s)` has odd powers of `s` only.
* Any other `1 + x` is `2 ^ k * (1 + f)` with `1 + f` in that range, and its logarithm is
  `k * ln 2 + ln (1 + f)`. What rounding took from the sum is carried along.

The order in which the terms are added decides the last bit and is part of the definition.
-/

namespace FlowSketch.LogOnePlus

/-! ### The expansion -/

/-- The expansion `ln (1 + f) = f - (square - rest)`: about half the square of `f`, less the terms of
higher order. -/
structure Expansion where
  square : Float
  rest : Float

/-- The terms beyond the second power in `z = s * s`, a polynomial of the seventh degree whose
coefficients spread the error evenly over the range. -/
def series (z : Float) : Float :=
  let z2 := z * z
  let z4 := z2 * z2
  let z6 := z4 * z2
  z * 0.6666666666666735 +
    z2 * (0.3999999999940942 + z * 0.2857142874366239) +
    z4 * (0.22222198432149784 + z * 0.1818357216161805) +
    z6 * (0.15313837699209373 + z * 0.14798198605116586)

/-- The expansion of any `f` in the range. -/
def expansion (f : Float) : Expansion :=
  let half := 0.5 * f * f
  let s := f / (2.0 + f)
  { square := half, rest := s * (half + series (s * s)) }

/-- The expansion of an `f` so small that the cubic term ends it. -/
def shortExpansion (f : Float) : Expansion :=
  { square := 0.5 * f * f * (1.0 - 0.6666666666666666 * f), rest := 0.0 }

/-! ### Reduction -/

/-- The sum `1 + x` as `2 ^ power * (1 + f)`, together with what rounding took from the sum, in
proportion to it. -/
structure Reduced where
  power : Int
  f : Float
  correction : Float

/-- The significand from which on the next power of two is taken: the square root of two, cut after
twenty binary places. -/
def turn : Float := 1482910.0 / 1048576.0

/-- The reduction of a sum with an `x` that is not small. -/
def reduce (x : Float) : Reduced :=
  let sum := 1.0 + x
  let fields := Binary64.ofFloat sum
  let lost := if 0 < fields.power then 1.0 - (sum - x) else x - (sum - 1.0)
  let correction := lost / sum
  let m := fields.significand
  if m < turn then { power := fields.power, f := m - 1.0, correction }
  else { power := fields.power + 1, f := m / 2.0 - 1.0, correction }

/-- The logarithm of two in two parts, of which the upper one has so few places that its small
multiples are exact. -/
def ln2High : Float := 0.6931471803691238

/-- The lower part of the logarithm of two. -/
def ln2Low : Float := 1.9082149292705877e-10

/-- The logarithm of a reduced sum. -/
def Reduced.log (r : Reduced) : Float :=
  let e :=
    if r.f ≥ -1.5 / 1048576.0 && r.f < 1.0 / 1048576.0 then shortExpansion r.f else expansion r.f
  if r.power = 0 then r.f - (e.square - e.rest)
  else
    let k := Float.ofInt r.power
    k * ln2High - ((e.square - (e.rest + (k * ln2Low + r.correction))) - r.f)

/-! ### All arguments -/

/-- Two to the power of `-29`: below it the square term is the last one that shows. -/
def tiny : Float := 1.862645149230957e-9

/-- Two to the power of `-54`: below it not even the square term shows. -/
def negligible : Float := 5.551115123125783e-17

/-- The ends of the range in which no reduction is needed. -/
def leastDirect : Float := -1228484.0 / 4194304.0

/-- The upper end of the range in which no reduction is needed. -/
def mostDirect : Float := 1737338.0 / 4194304.0

/-- The logarithm of one plus `x`, given a logarithm for the arguments that have no use for care:
sums that are not positive and those in which the one no longer counts. -/
def logOnePlus (ln : Float → Float) (x : Float) : Float :=
  if !(x > -1.0 && x < 9007199254740992.0) then ln (1.0 + x)
  else if x > -negligible && x < negligible then x
  else if x > -tiny && x < tiny then x - x * x * 0.5
  else if x > leastDirect && x < mostDirect then
    let e := expansion x
    x - (e.square - e.rest)
  else (reduce x).log

end FlowSketch.LogOnePlus
