/-!
# FlowSketch.Hash.Word

**The word arithmetic of the hash.** Everything the hash does to its input is done on 32- and
64-bit words that wrap: little-endian words read at any byte offset, rotations, byte reversal, and
the folded product, which brings all 128 bits of a product down to 64. Reading past the end of a
buffer yields zero bytes, so every operation here is total; the hash itself reads inside its input.
-/

namespace FlowSketch.Hash

/-- The byte at an offset as a word, zero past the end. -/
def byteAt (buffer : Array UInt8) (offset : Nat) : UInt64 :=
  (buffer.getD offset 0).toUInt64

/-- The little-endian 32-bit word at an offset. -/
def word32 (buffer : Array UInt8) (offset : Nat) : UInt64 :=
  byteAt buffer offset ||| (byteAt buffer (offset + 1) <<< 8) |||
    (byteAt buffer (offset + 2) <<< 16) ||| (byteAt buffer (offset + 3) <<< 24)

/-- The little-endian 64-bit word at an offset. -/
def word64 (buffer : Array UInt8) (offset : Nat) : UInt64 :=
  word32 buffer offset ||| (word32 buffer (offset + 4) <<< 32)

/-- The lower half of a 64-bit word. -/
def lowHalf (x : UInt64) : UInt64 :=
  x &&& 0xffffffff

/-- Rotation to the left by `1` to `63` bits. -/
def rotateLeft (x count : UInt64) : UInt64 :=
  (x <<< count) ||| (x >>> (64 - count))

/-- The four bytes of the lower half in reverse order. -/
def swapBytes32 (x : UInt64) : UInt64 :=
  let low : UInt64 := 0xff
  ((x &&& low) <<< 24) ||| (((x >>> 8) &&& low) <<< 16) |||
    (((x >>> 16) &&& low) <<< 8) ||| ((x >>> 24) &&& low)

/-- The eight bytes of a word in reverse order. -/
def swapBytes64 (x : UInt64) : UInt64 :=
  (swapBytes32 (lowHalf x) <<< 32) ||| swapBytes32 (x >>> 32)

/-- The upper half of a 128-bit product xored onto the lower half. -/
def foldedProduct (a b : UInt64) : UInt64 :=
  let product := a.toNat * b.toNat
  UInt64.ofNat product ^^^ UInt64.ofNat (product >>> 64)

/-! ### Constants

Odd numbers with about half of their bits set; multiplying by one of them permutes the 64-bit
words and carries every bit upwards. -/

def prime32One : UInt64 := 0x9e3779b1
def prime32Two : UInt64 := 0x85ebca77
def prime32Three : UInt64 := 0xc2b2ae3d
def prime64One : UInt64 := 0x9e3779b185ebca87
def prime64Two : UInt64 := 0xc2b2ae3d27d4eb4f
def prime64Three : UInt64 := 0x165667b19e3779f9
def prime64Four : UInt64 := 0x85ebca77c2b2ae63
def prime64Five : UInt64 := 0x27d4eb2f165667c5
def multiplierOne : UInt64 := 0x165667919e3779f9
def multiplierTwo : UInt64 := 0x9fb21c651e98df25

/-! ### Avalanches

Closing permutations: after one of them each bit of the word depends on every bit that went in. -/

/-- The closing permutation of most lengths. -/
def avalanche (h : UInt64) : UInt64 :=
  let h := (h ^^^ (h >>> 37)) * multiplierOne
  h ^^^ (h >>> 32)

/-- The stronger closing permutation of inputs of at most three bytes. -/
def shortAvalanche (h : UInt64) : UInt64 :=
  let h := (h ^^^ (h >>> 33)) * prime64Two
  let h := (h ^^^ (h >>> 29)) * prime64Three
  h ^^^ (h >>> 32)

/-- The closing permutation of inputs of four to eight bytes, which takes in the length. -/
def rotatingAvalanche (length h : UInt64) : UInt64 :=
  let h := (h ^^^ rotateLeft h 49 ^^^ rotateLeft h 24) * multiplierTwo
  let h := (h ^^^ ((h >>> 35) + length)) * multiplierTwo
  h ^^^ (h >>> 28)

end FlowSketch.Hash
