import FlowSketch.Hash.Secret

/-!
# FlowSketch.Hash.Stripes

**Hashing by stripes.** Inputs of more than 240 bytes run through eight 64-bit lanes, one stripe of
64 bytes at a time. Sixteen stripes form a block; within a block each stripe meets the secret eight
bytes further on, and after each block the lanes are scrambled with the end of the secret. The last
64 bytes of the input are always absorbed as a stripe of their own, wherever the division into
stripes ends.
-/

namespace FlowSketch.Hash.Stripes

/-- The number of input bytes in one stripe. -/
def stripeLength : Nat := 64

/-- The number of stripes between two scramblings. -/
def stripesPerBlock : Nat := 16

/-- The number of input bytes between two scramblings. -/
def blockLength : Nat := stripeLength * stripesPerBlock

/-- The lanes before the first stripe. -/
def initial : Array UInt64 := #[
  prime32Three, prime64One, prime64Two, prime64Three,
  prime64Four, prime32Two, prime64Five, prime32One]

/-- One stripe goes into the lanes. A lane receives the input word of its neighbour and the product
of the two halves of its own input word, masked by the secret. -/
def absorb (secret input : Array UInt8) (lanes : Array UInt64) (offset secretOffset : Nat) :
    Array UInt64 :=
  Array.ofFn fun i : Fin 8 =>
    let neighbour := word64 input (offset + 8 * (i.val ^^^ 1))
    let masked := word64 input (offset + 8 * i.val) ^^^ word64 secret (secretOffset + 8 * i.val)
    lanes.getD i.val 0 + neighbour + lowHalf masked * (masked >>> 32)

/-- The scrambling at the end of a block. -/
def scramble (secret : Array UInt8) (lanes : Array UInt64) : Array UInt64 :=
  Array.ofFn fun i : Fin 8 =>
    let lane := lanes.getD i.val 0
    let key := word64 secret (Secret.size - stripeLength + 8 * i.val)
    (lane ^^^ (lane >>> 47) ^^^ key) * prime32One

/-- A run of `count` consecutive stripes from an offset on, the secret advancing by one word with
each stripe. -/
def absorbRun (secret input : Array UInt8) (offset count : Nat) (lanes : Array UInt64) :
    Array UInt64 :=
  (List.range count).foldl
    (fun lanes i => absorb secret input lanes (offset + stripeLength * i) (8 * i)) lanes

/-- The lanes after a whole input. Only blocks that end before the last byte are scrambled. -/
def absorbAll (secret input : Array UInt8) : Array UInt64 :=
  let blocks := (input.size - 1) / blockLength
  let stripes := (input.size - 1 - blockLength * blocks) / stripeLength
  let lanes := (List.range blocks).foldl
    (fun lanes i =>
      scramble secret (absorbRun secret input (blockLength * i) stripesPerBlock lanes)) initial
  let lanes := absorbRun secret input (blockLength * blocks) stripes lanes
  absorb secret input lanes (input.size - stripeLength) (Secret.size - stripeLength - 7)

/-- Two neighbouring lanes, masked and multiplied. -/
def mergePair (secret : Array UInt8) (lanes : Array UInt64) (pair : Nat) : UInt64 :=
  foldedProduct (lanes.getD (2 * pair) 0 ^^^ word64 secret (11 + 16 * pair))
    (lanes.getD (2 * pair + 1) 0 ^^^ word64 secret (19 + 16 * pair))

/-- The hash of an input of more than 240 bytes. -/
def digest (input : Array UInt8) (seed : UInt64) : UInt64 :=
  let secret := Secret.seeded seed
  let lanes := absorbAll secret input
  avalanche ((List.range 4).foldl (fun sum pair => sum + mergePair secret lanes pair)
    (UInt64.ofNat input.size * prime64One))

end FlowSketch.Hash.Stripes
