/-!
# FlowSketch.Xoshiro

**The random stream** (xoshiro256++). A generator is four words of state; `next` yields a word and
the following state, `unit` a float in `[0, 1)`. A seed of one word is spread over the state by a
linear congruential generator whose output is permuted (`Spreader`). Equal seeds give equal
streams, and the stream is a value that its owner threads through every draw.
-/

namespace FlowSketch

namespace Random

/-- Rotation of a 64-bit word to the left by `1` to `63` bits. -/
def rotate64 (x count : UInt64) : UInt64 :=
  (x <<< count) ||| (x >>> (64 - count))

/-- Rotation of a 32-bit word to the right by `0` to `31` bits. -/
def rotateRight32 (x count : UInt32) : UInt32 :=
  (x >>> count) ||| (x <<< (32 - count))

end Random

/-! ### Spreading a seed -/

/-- The state of the generator that spreads a seed. -/
abbrev Spreader := UInt64

namespace Spreader

/-- The linear congruential step. -/
def advance (s : Spreader) : Spreader :=
  s * 6364136223846793005 + 11634580027462260723

/-- The word that a state shows: its upper bits, xored and rotated by the uppermost five. -/
def output (s : Spreader) : UInt32 :=
  Random.rotateRight32 (((s >>> 18) ^^^ s) >>> 27).toUInt32 (s >>> 59).toUInt32

/-- Two outputs in a row as one word, the first in the lower half. -/
def pair (s : Spreader) : UInt64 × Spreader :=
  let first := advance s
  let second := advance first
  ((output first).toUInt64 ||| ((output second).toUInt64 <<< 32), second)

end Spreader

/-! ### The generator -/

/-- A xoshiro256++ generator. -/
structure Xoshiro where
  s0 : UInt64
  s1 : UInt64
  s2 : UInt64
  s3 : UInt64
deriving DecidableEq, Repr, Inhabited

namespace Xoshiro

/-- The generator started from a seed: eight outputs of the spreader, in order. -/
def ofSeed (seed : UInt64) : Xoshiro :=
  let (s0, spread) := Spreader.pair seed
  let (s1, spread) := Spreader.pair spread
  let (s2, spread) := Spreader.pair spread
  let (s3, _) := Spreader.pair spread
  ⟨s0, s1, s2, s3⟩

/-- The next word of the stream. -/
def next (g : Xoshiro) : UInt64 × Xoshiro :=
  let word := Random.rotate64 (g.s0 + g.s3) 23 + g.s0
  let s2 := g.s2 ^^^ g.s0
  let s3 := g.s3 ^^^ g.s1
  (word, ⟨g.s0 ^^^ s3, g.s1 ^^^ s2, s2 ^^^ (g.s1 <<< 17), Random.rotate64 s3 45⟩)

/-- The next float of the stream: the upper 53 bits of a word as a fraction of `2 ^ 53`, so a
multiple of `2 ^ -53` in `[0, 1)`. -/
def unit (g : Xoshiro) : Float × Xoshiro :=
  let (word, g) := g.next
  ((word >>> 11).toFloat / 9007199254740992.0, g)

end Xoshiro

end FlowSketch
