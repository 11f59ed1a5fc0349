import FlowSketch.Decimal.Positional
import FlowSketch.Numerics
import FlowSketch.Shape

/-!
# FlowSketch.Accuracy

**The parameters of a sketch and the grid they ask for.** A sketch is configured by the number of
keys to report and by two accuracies, the error scale `epsilon` and the failure probability `delta`.
They determine the shape of the grid: `⌈ln (1 / delta)⌉` rows, at least one, of `⌈e / epsilon⌉`
columns. `Accuracy.shape` checks the parameters in a fixed order and derives the shape;
`ParameterError` names the first check that failed.
-/

namespace FlowSketch

/-- What a user asks of a sketch. -/
structure Accuracy where
  /-- The number of keys to report. -/
  k : Nat
  /-- The error scale; smaller means wider rows. -/
  epsilon : Float
  /-- The failure probability; smaller means more rows. -/
  delta : Float
deriving Repr, Inhabited

/-! ### Errors -/

/-- Why a parameter is refused. -/
inductive ParameterError where
  /-- No key would be reported. -/
  | noKeys
  /-- More keys than a 32-bit field counts. -/
  | tooManyKeys (k : Nat)
  /-- The error scale is not strictly between zero and one. -/
  | epsilonOutside (epsilon : Float)
  /-- The failure probability is not strictly between zero and one. -/
  | deltaOutside (delta : Float)
  /-- More rows than a 32-bit field counts. -/
  | tooManyRows (delta : Float)
  /-- More columns than a 32-bit field counts. -/
  | rowTooWide (epsilon : Float)
  /-- More cells than a 64-bit word counts. -/
  | gridTooLarge (epsilon : Float)
deriving Repr, Inhabited

namespace ParameterError

/-- The name of the refused parameter. -/
def parameter : ParameterError → String
  | noKeys | tooManyKeys _ => "k"
  | epsilonOutside _ | rowTooWide _ | gridTooLarge _ => "epsilon"
  | deltaOutside _ | tooManyRows _ => "delta"

/-- The refused value as text. -/
def value : ParameterError → String
  | noKeys => "0"
  | tooManyKeys k => Nat.repr k
  | epsilonOutside x | rowTooWide x | gridTooLarge x | deltaOutside x | tooManyRows x =>
      Decimal.floatText x

/-- The condition that the value fails. -/
def constraint : ParameterError → String
  | noKeys => "must be > 0"
  | tooManyKeys _ => "must fit in 32 bits"
  | epsilonOutside _ | deltaOutside _ => "must be in (0, 1)"
  | tooManyRows _ => "too small: row count must fit in 32 bits"
  | rowTooWide _ => "too small: row width must fit in 32 bits"
  | gridTooLarge _ => "too small: grid does not fit in memory"

/-- The sentence about a parameter that has a value against a constraint. -/
def sentence (parameter value constraint : String) : String :=
  "invalid parameter '" ++ parameter ++ "' = " ++ value ++ ": " ++ constraint

/-- The message of the error. -/
def message (e : ParameterError) : String :=
  sentence e.parameter e.value e.constraint

end ParameterError

/-! ### The shape of the grid -/

namespace Accuracy

/-- The base of the natural logarithm. -/
def euler : Float := 2.718281828459045

/-- Is a float strictly between zero and one? What is not a number is not. -/
def isFraction (x : Float) : Bool :=
  x > 0.0 && x < 1.0

/-- The number of rows for a failure probability. -/
def rows (num : Numerics) (delta : Float) : Nat :=
  max 1 (ceilNat (num.ln (1.0 / delta)))

/-- The number of columns for an error scale. -/
def columns (epsilon : Float) : Nat :=
  ceilNat (euler / epsilon)

/-- The shape of the grid that the parameters ask for, or the first reason to refuse them. -/
def shape (num : Numerics) (a : Accuracy) : Except ParameterError Shape :=
  if a.k = 0 then .error .noKeys
  else if maxWord32 < a.k then .error (.tooManyKeys a.k)
  else if !isFraction a.epsilon then .error (.epsilonOutside a.epsilon)
  else if !isFraction a.delta then .error (.deltaOutside a.delta)
  else
    let depth := rows num a.delta
    let width := columns a.epsilon
    if maxWord32 < depth then .error (.tooManyRows a.delta)
    else if maxWord32 < width then .error (.rowTooWide a.epsilon)
    else if UInt64.size ≤ depth * width then .error (.gridTooLarge a.epsilon)
    else .ok { depth, width }

end Accuracy

end FlowSketch
