import FlowSketch.Hash.Stripes

/-!
# FlowSketch.Hash.Digest

**The seeded 64-bit hash of a byte string** (XXH3 with its default secret). The length of the input
chooses one of seven rules: nothing, up to 3, 8, 16, 128 and 240 bytes, and more. Every rule reads
all bytes of its input, the shorter ones by reading overlapping words from both ends. Different
seeds give unrelated hashes of one input.
-/

namespace FlowSketch.Hash

/-- The hash of the empty input. -/
def digestEmpty (seed : UInt64) : UInt64 :=
  shortAvalanche (seed ^^^ (Secret.word 56 ^^^ Secret.word 64))

/-- One to three bytes: the first, the middle and the last byte and the length in one word. -/
def digestTo3 (input : Array UInt8) (seed : UInt64) : UInt64 :=
  let size := input.size
  let combined := (byteAt input 0 <<< 16) ||| (byteAt input (size / 2) <<< 24) |||
    byteAt input (size - 1) ||| (UInt64.ofNat size <<< 8)
  shortAvalanche (combined ^^^ ((Secret.halfWord 0 ^^^ Secret.halfWord 4) + seed))

/-- Four to eight bytes: the first and the last half word. -/
def digestTo8 (input : Array UInt8) (seed : UInt64) : UInt64 :=
  let size := input.size
  let seed := seed ^^^ (swapBytes32 (lowHalf seed) <<< 32)
  let word := word32 input (size - 4) + (word32 input 0 <<< 32)
  rotatingAvalanche (UInt64.ofNat size) (word ^^^ ((Secret.word 8 ^^^ Secret.word 16) - seed))

/-- Nine to sixteen bytes: the first and the last word. -/
def digestTo16 (input : Array UInt8) (seed : UInt64) : UInt64 :=
  let size := input.size
  let low := word64 input 0 ^^^ ((Secret.word 24 ^^^ Secret.word 32) + seed)
  let high := word64 input (size - 8) ^^^ ((Secret.word 40 ^^^ Secret.word 48) - seed)
  avalanche (UInt64.ofNat size + swapBytes64 low + high + foldedProduct low high)

/-- Sixteen bytes of input against sixteen bytes of the secret. -/
def mix (input : Array UInt8) (seed : UInt64) (offset secretOffset : Nat) : UInt64 :=
  foldedProduct (word64 input offset ^^^ (Secret.word secretOffset + seed))
    (word64 input (offset + 8) ^^^ (Secret.word (secretOffset + 8) - seed))

/-- The sum of `mix` over places given as pairs of an input offset and a secret offset, on top of
a start value. -/
def mixAll (input : Array UInt8) (seed start : UInt64) (places : List (Nat × Nat)) : UInt64 :=
  places.foldl (fun sum place => sum + mix input seed place.1 place.2) start

/-- Seventeen to 128 bytes: pairs of sixteen bytes from both ends towards the middle, as many as
it takes to meet. -/
def digestTo128 (input : Array UInt8) (seed : UInt64) : UInt64 :=
  let size := input.size
  let pairs := (List.range ((size - 1) / 32 + 1)).flatMap fun i =>
    [(16 * i, 32 * i), (size - 16 * (i + 1), 32 * i + 16)]
  avalanche (mixAll input seed (UInt64.ofNat size * prime64One) pairs)

/-- From 129 to 240 bytes: all whole sixteens in order and the last sixteen bytes, with one more
avalanche after the first eight. -/
def digestTo240 (input : Array UInt8) (seed : UInt64) : UInt64 :=
  let size := input.size
  let early := (List.range 8).map fun i => (16 * i, 16 * i)
  let late := (List.range (size / 16 - 8)).map fun i => (16 * (i + 8), 16 * i + 3)
  let sum := avalanche (mixAll input seed (UInt64.ofNat size * prime64One) early)
  avalanche (mixAll input seed sum (late ++ [(size - 16, 119)]))

/-- The hash of any input under a seed. -/
def digest (input : Array UInt8) (seed : UInt64) : UInt64 :=
  if input.size = 0 then digestEmpty seed
  else if input.size ≤ 3 then digestTo3 input seed
  else if input.size ≤ 8 then digestTo8 input seed
  else if input.size ≤ 16 then digestTo16 input seed
  else if input.size ≤ 128 then digestTo128 input seed
  else if input.size ≤ 240 then digestTo240 input seed
  else Stripes.digest input seed

end FlowSketch.Hash
