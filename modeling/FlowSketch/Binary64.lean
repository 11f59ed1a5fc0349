/-!
# FlowSketch.Binary64

**The fields of a float.** A float is a sign, an exponent of eleven bits and a fraction of 52 bits, in
this order from the top. An exponent field that is neither zero nor all ones stands for the power of
two that is 1023 less, and the fraction for the binary places of a significand in `[1, 2)`.
-/

namespace FlowSketch

/-- The fields of a float's bits. -/
structure Binary64 where
  negative : Bool
  exponent : Nat
  fraction : Nat
deriving DecidableEq, Repr, Inhabited

namespace Binary64

/-- The fields in a word of bits. -/
def ofBits (bits : UInt64) : Binary64 where
  negative := (bits >>> 63) == 1
  exponent := ((bits >>> 52) &&& 0x7ff).toNat
  fraction := (bits &&& 0xfffffffffffff).toNat

/-- The fields of a float. -/
def ofFloat (x : Float) : Binary64 :=
  ofBits x.toBits

/-- Is the exponent field all ones, so that the float is infinite or not a number? -/
def isSpecial (b : Binary64) : Bool :=
  b.exponent == 2047

/-- The power of two below a positive normal float. -/
def power (b : Binary64) : Int :=
  (b.exponent : Int) - 1023

/-- The significand of a normal float, in `[1, 2)`. -/
def significand (b : Binary64) : Float :=
  Float.ofBits (0x3ff0000000000000 ||| UInt64.ofNat b.fraction)

end Binary64

end FlowSketch
