import FlowSketch.Accuracy
import FlowSketch.Cell

/-!
# FlowSketch.Wire.Error

**Why bytes are refused.** An encoding is refused for one of four reasons: it ends too early, it goes
on too long, its header cannot be the header of a sketch, or what follows contradicts itself. The
message of an error opens with its reason and goes on with the finding.
-/

namespace FlowSketch

/-- Why a header is refused. -/
inductive HeaderError where
  /-- No sketch has these parameters. -/
  | parameter (cause : ParameterError)
  /-- The shape is not the one that the parameters ask for. -/
  | shape (found expected : Shape) (epsilon delta : Float)
deriving Repr, Inhabited

/-- The finding in words. -/
def HeaderError.finding : HeaderError → String
  | parameter cause => cause.message
  | shape found expected epsilon delta =>
      "dimensions " ++ Nat.repr found.depth ++ "x" ++ Nat.repr found.width ++
        " do not match epsilon=" ++ Decimal.floatText epsilon ++
        ", delta=" ++ Decimal.floatText delta ++
        " (expected " ++ Nat.repr expected.depth ++ "x" ++ Nat.repr expected.width ++ ")"

/-- What contradicts itself after the header. -/
inductive Corruption where
  /-- A cell has a count and no owner, or an owner and no count. -/
  | halfEmptyCell (index : Nat) (cell : Cell)
  /-- More keys are listed than the sketch reports. -/
  | tooManyKeys (count k : Nat)
  /-- A listed key has no count. -/
  | zeroEstimate
  /-- The listed keys do not go from heavy to light. -/
  | notDescending
  /-- A key is listed twice. -/
  | duplicateKey
deriving DecidableEq, Repr, Inhabited

/-- The finding in words. -/
def Corruption.finding : Corruption → String
  | halfEmptyCell index cell =>
      "cell " ++ Nat.repr index ++ " has fingerprint " ++ Nat.repr cell.fingerprint.toNat ++
        " with counter " ++ Nat.repr cell.counter.toNat
  | tooManyKeys count k => Nat.repr count ++ " tracked keys exceed k=" ++ Nat.repr k
  | zeroEstimate => "tracked key with zero estimate"
  | notDescending => "tracked keys not in descending order"
  | duplicateKey => "duplicate tracked key"

/-- Why bytes are refused. -/
inductive DecodeError where
  /-- The bytes end before a field does, which would take `expected` bytes. -/
  | bufferTooShort (expected found : Nat)
  /-- The encoding ends after `expected` bytes, before the bytes do. -/
  | lengthMismatch (expected found : Nat)
  /-- The header is no header of a sketch. -/
  | invalidHeader (cause : HeaderError)
  /-- What follows the header contradicts itself. -/
  | corrupted (cause : Corruption)
deriving Repr, Inhabited

namespace DecodeError

/-- The sentence about bytes that end too early. -/
def tooShortSentence (expected found : Nat) : String :=
  "buffer too short: expected " ++ Nat.repr expected ++ ", found " ++ Nat.repr found

/-- The sentence about bytes that go on too long. -/
def mismatchSentence (expected found : Nat) : String :=
  "length mismatch: expected " ++ Nat.repr expected ++ " bytes, found " ++ Nat.repr found

/-- The sentence about a finding in a header. -/
def headerSentence (finding : String) : String :=
  "invalid header: " ++ finding

/-- The sentence about a finding after the header. -/
def corruptionSentence (finding : String) : String :=
  "corrupted data: " ++ finding

/-- The message of the error. -/
def message : DecodeError → String
  | bufferTooShort expected found => tooShortSentence expected found
  | lengthMismatch expected found => mismatchSentence expected found
  | invalidHeader cause => headerSentence cause.finding
  | corrupted cause => corruptionSentence cause.finding

end DecodeError

end FlowSketch
