import FlowSketch.Binary64
import FlowSketch.Decimal.Shortest

/-!
# FlowSketch.Decimal.Positional

**The text of a float.** A float is written with the fewest digits that read back, always in
positional notation: never with an exponent, with a point only before a fraction, and with a zero
before the point if nothing else stands there. Zero keeps its sign; an infinity is `inf`, and what is
not a number is `NaN` without a sign.
-/

namespace FlowSketch.Decimal

/-- The decimal digits of a number as characters, most significant first. -/
def digitChars (n : Nat) : List Char :=
  (Nat.repr n).toList

/-- A digit string without the zeros at its end. -/
def dropTrailingZeros (digits : List Char) : List Char :=
  (digits.reverse.dropWhile (· == '0')).reverse

/-- A decimal in positional notation. -/
def positional (d : Decimal) : List Char :=
  let digits := digitChars d.digits
  if 0 ≤ d.exponent then digits ++ List.replicate d.exponent.toNat '0'
  else
    let places := (-d.exponent).toNat
    let padded := List.replicate (places + 1 - digits.length) '0' ++ digits
    let whole := padded.take (padded.length - places)
    match dropTrailingZeros (padded.drop (padded.length - places)) with
    | [] => whole
    | fraction => whole ++ '.' :: fraction

/-! ### Floats -/

/-- The neighbourhood of a positive finite float. A float with exponent field zero has no hidden
bit; the least mantissa of a binade has a nearer neighbour below, except in the lowest binade. -/
def neighbourhood (b : Binary64) : Neighbourhood :=
  if b.exponent = 0 then .ofBinary b.fraction (-1074) false
  else
    .ofBinary (Nat.pow 2 52 + b.fraction) ((b.exponent : Int) - 1075)
      (b.fraction == 0 && b.exponent != 1)

/-- The text of a number without its sign. -/
def magnitudeText (b : Binary64) : List Char :=
  if b.isSpecial then ['i', 'n', 'f']
  else if b.exponent = 0 ∧ b.fraction = 0 then ['0']
  else (shortest (neighbourhood b)).positional

/-- The text of a float by its fields. -/
def fieldsText (b : Binary64) : String :=
  if b.isSpecial ∧ b.fraction ≠ 0 then "NaN"
  else if b.negative then String.ofList ('-' :: magnitudeText b)
  else String.ofList (magnitudeText b)

/-- The text of a float. -/
def floatText (x : Float) : String :=
  fieldsText (.ofFloat x)

end FlowSketch.Decimal
