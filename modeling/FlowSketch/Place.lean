import FlowSketch.Bytes
import FlowSketch.Hash.Digest

/-!
# FlowSketch.Place

**Where a key lands.** In each row of a grid a key has one column and one fingerprint, from two
hashes of the key under two seeds of that row. The seeds depend on the row alone, so a key lands in
the same place in every grid of one width. A fingerprint is never zero (`fingerprint_ne_zero`): zero
is what an empty cell carries.
-/

namespace FlowSketch

/-- The column and the fingerprint of a key in one row. -/
structure Place where
  column : Nat
  fingerprint : UInt32
deriving DecidableEq, Repr, Inhabited

namespace Place

/-! ### Seeds -/

/-- The factor between successive seeds. It is odd, so multiplying by it permutes the words. -/
def stride : UInt64 := 0x9e3779b97f4a7c15

/-- The seed of the fingerprint hash of a row: an odd multiple of the stride. -/
def fingerprintSeed (row : UInt64) : UInt64 :=
  (2 * row + 1) * stride

/-- The seed of the column hash of a row: an even multiple of the stride. -/
def columnSeed (row : UInt64) : UInt64 :=
  (2 * row + 2) * stride

/-! ### Locating -/

/-- The lower half of a hash, with one in place of zero. -/
def fingerprintOf (hash : UInt64) : UInt32 :=
  if hash.toUInt32 = 0 then 1 else hash.toUInt32

/-- The column that a hash chooses among `width` columns. -/
def columnOf (width : Nat) (hash : UInt64) : Nat :=
  hash.toNat % width

/-- The place of a key in a row of `width` columns. -/
def locate (width : Nat) (key : Key) (row : Nat) : Place :=
  let input := key.toArray
  { column := columnOf width (Hash.digest input (columnSeed (UInt64.ofNat row)))
    fingerprint := fingerprintOf (Hash.digest input (fingerprintSeed (UInt64.ofNat row))) }

/-- No hash leads to the fingerprint zero. -/
theorem fingerprintOf_ne_zero (hash : UInt64) : fingerprintOf hash ≠ 0 := by
  unfold fingerprintOf
  split
  · decide
  · assumption

/-- A located fingerprint is never the mark of an empty cell. -/
theorem fingerprint_ne_zero (width : Nat) (key : Key) (row : Nat) :
    (locate width key row).fingerprint ≠ 0 :=
  fingerprintOf_ne_zero _

/-- A located column lies inside the row. -/
theorem column_lt {width : Nat} (h : 0 < width) (key : Key) (row : Nat) :
    (locate width key row).column < width :=
  Nat.mod_lt _ h

end Place

end FlowSketch
