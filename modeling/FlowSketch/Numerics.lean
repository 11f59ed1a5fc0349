import FlowSketch.LogOnePlus

/-!
# FlowSketch.Numerics

**The real functions a sketch relies on.** Everything else in the library is exact integer work, so
the four functions that are not are gathered in one record and passed to the operations that use
them: logarithm and exponential, the logarithm near one, and the scaling of a count by a factor.
`Numerics.machine` is the record of the running program. A property that needs a fact about a real
function, such as that scaling by a factor below one lowers every count, takes that fact as a
hypothesis on the record.
-/

namespace FlowSketch

/-- The real functions of a sketch. -/
structure Numerics where
  /-- The natural logarithm. -/
  ln : Float → Float
  /-- The exponential function. -/
  exp : Float → Float
  /-- The natural logarithm of one plus the argument, accurate for tiny arguments. -/
  lnOnePlus : Float → Float
  /-- A count times a factor, rounded down. -/
  scale : Float → UInt64 → UInt64

namespace Numerics

/-- A count times a factor on floats. The way back cuts the fraction off and stays within the words:
what is negative or not a number becomes zero, what is too large the largest word. -/
def scaleWord (factor : Float) (count : UInt64) : UInt64 :=
  (count.toFloat * factor).toUInt64

/-- The real functions of the machine. -/
def machine : Numerics where
  ln := Float.log
  exp := Float.exp
  lnOnePlus := LogOnePlus.logOnePlus Float.log
  scale := scaleWord

end Numerics

/-- The least natural number at or above a float. What is negative or not a number gives zero; what
lies beyond the 64-bit words gives at least the largest of them. -/
def ceilNat (x : Float) : Nat :=
  let whole := x.toUInt64
  if whole.toFloat < x then whole.toNat + 1 else whole.toNat

end FlowSketch
