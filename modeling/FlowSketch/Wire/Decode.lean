import FlowSketch.Wire.Cursor
import FlowSketch.Wire.Image

/-!
# FlowSketch.Wire.Decode

**Reading an image.** Decoding is strict: the shape must be the one that the parameters ask for,
cells are either empty or owned, the listed keys are no more than the sketch reports, all have a
count and go from heavy to light, and no byte is left over. The checks come in the order of the
fields, except that the order of the listed keys is looked at once all are read. The room for all
cells is demanded before the first of them is read.

Whether a key is listed twice shows only when the ranking is put back on a leaderboard; this check
comes last and is not made here.
-/

namespace FlowSketch.Image

/-- The header: number of keys, rows, columns, the two accuracies and the number of recordings. -/
def readHeader (num : Numerics) : Reader (Accuracy × Shape × UInt64) := do
  let k ← Reader.number 4
  let depth ← Reader.number 4
  let width ← Reader.number 4
  let epsilon ← Reader.float
  let delta ← Reader.float
  let total ← Reader.word64
  let accuracy : Accuracy := { k, epsilon, delta }
  let found : Shape := { depth, width }
  match accuracy.shape num with
  | .error cause => throw (.invalidHeader (.parameter cause))
  | .ok expected =>
    if expected = found then return (accuracy, found, total)
    else throw (.invalidHeader (.shape found expected epsilon delta))

/-- The cell with an index. -/
def readCell (index : Nat) : Reader Cell := do
  let fingerprint ← Reader.word32
  let counter ← Reader.word32
  let cell : Cell := { fingerprint, counter }
  if (fingerprint == 0) != (counter == 0) then throw (.corrupted (.halfEmptyCell index cell))
  else return cell

/-- A listed key. -/
def readRecord : Reader (Key × UInt64) := do
  let length ← Reader.number 4
  let key ← Reader.take length
  let estimate ← Reader.word64
  if estimate = 0 then throw (.corrupted .zeroEstimate) else return (key, estimate)

/-- Do listed keys go from heavy to light? -/
def isDescending : List (Key × UInt64) → Bool
  | first :: second :: rest => second.2 ≤ first.2 && isDescending (second :: rest)
  | _ => true

/-- A whole image. -/
def read (num : Numerics) : Reader Image := do
  let (accuracy, shape, total) ← readHeader num
  Reader.require (shape.cellCount * cellLength)
  let cells ← Reader.collect readCell 0 shape.cellCount #[]
  let count ← Reader.number 4
  if accuracy.k < count then throw (.corrupted (.tooManyKeys count accuracy.k))
  let records ← Reader.collect (fun _ => readRecord) 0 count #[]
  let ranking := records.toList
  if !isDescending ranking then throw (.corrupted .notDescending)
  Reader.finish
  return { accuracy, grid := { toShape := shape, cells }, total, ranking }

/-- The image that bytes hold. -/
def decode (num : Numerics) (bytes : List UInt8) : Except DecodeError Image := do
  let (image, _) ← (read num).run (.start bytes)
  return image

end FlowSketch.Image
