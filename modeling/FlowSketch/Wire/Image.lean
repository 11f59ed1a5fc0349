import FlowSketch.Accuracy
import FlowSketch.Bytes
import FlowSketch.Grid

/-!
# FlowSketch.Wire.Image

**What an encoding holds, and how it is written.** An image is the part of a sketch that outlives
it: parameters, grid, number of recordings and ranking. It is written field after field in
little-endian words of fixed width: a header of 36 bytes, the cells row after row, and the number of
listed keys followed by one record for each, heaviest first. Keys are the only fields of variable
length, and each is preceded by its length.
-/

namespace FlowSketch

/-- The part of a sketch that is written down. -/
structure Image where
  accuracy : Accuracy
  grid : Grid
  total : UInt64
  /-- The listed keys with their estimates, heaviest first. -/
  ranking : List (Key × UInt64)

namespace Image

/-- The number of bytes of a header. -/
def headerLength : Nat := 36

/-- The number of bytes of a cell. -/
def cellLength : Nat := 8

/-- A number as a field of 32 bits. -/
def field32 (n : Nat) : List UInt8 :=
  LittleEndian.bytes 4 n

/-- A number as a field of 64 bits. -/
def field64 (n : Nat) : List UInt8 :=
  LittleEndian.bytes 8 n

/-- A float as the field of its bits. -/
def floatField (x : Float) : List UInt8 :=
  field64 x.toBits.toNat

/-- The header: number of keys, rows, columns, the two accuracies and the number of recordings. -/
def encodeHeader (accuracy : Accuracy) (shape : Shape) (total : UInt64) : List UInt8 :=
  field32 accuracy.k ++ field32 shape.depth ++ field32 shape.width ++
    floatField accuracy.epsilon ++ floatField accuracy.delta ++ field64 total.toNat

/-- A cell: fingerprint, then counter. -/
def encodeCell (c : Cell) : List UInt8 :=
  field32 c.fingerprint.toNat ++ field32 c.counter.toNat

/-- A listed key: the length of the key, the key, its estimate. -/
def encodeRecord (listed : Key × UInt64) : List UInt8 :=
  field32 listed.1.length ++ listed.1 ++ field64 listed.2.toNat

/-- The bytes of an image. -/
def encode (i : Image) : List UInt8 :=
  encodeHeader i.accuracy i.grid.toShape i.total ++
    i.grid.cells.toList.flatMap encodeCell ++
    field32 i.ranking.length ++ i.ranking.flatMap encodeRecord

@[simp] theorem length_encodeHeader (accuracy : Accuracy) (shape : Shape) (total : UInt64) :
    (encodeHeader accuracy shape total).length = headerLength := by
  simp [encodeHeader, field32, field64, floatField, headerLength]

@[simp] theorem length_encodeCell (c : Cell) : (encodeCell c).length = cellLength := by
  simp [encodeCell, field32, cellLength]

@[simp] theorem length_encodeRecord (listed : Key × UInt64) :
    (encodeRecord listed).length = 12 + listed.1.length := by
  simp only [encodeRecord, field32, field64, List.length_append, LittleEndian.length_bytes]
  omega

end Image

end FlowSketch
