import FlowSketch.Sketch.Basic
import FlowSketch.Wire.Decode

/-!
# FlowSketch.Sketch.Persistence

**Sketches as bytes.** A sketch is written as its image and read back from one. The random stream is
not part of the image: a sketch that is read back starts a stream of its own from a given seed. Its
leaderboard is filled from the lowest rank up, so that the ranks, ties included, come out as they
were written; a key that is then not admitted stood in the ranking before.
-/

namespace FlowSketch.Sketch

/-- The part of a sketch that is written down. -/
def image (s : Sketch) : Image where
  accuracy := s.accuracy
  grid := s.grid
  total := s.total
  ranking := s.topK

/-- The bytes of a sketch. -/
def toBytes (s : Sketch) : List UInt8 :=
  s.image.encode

/-- Keys in turn admitted to a leaderboard; nothing if one of them is not. -/
def admitAll (b : Leaderboard) : List (Key × UInt64) → Option Leaderboard
  | [] => some b
  | listed :: rest =>
    match b.offer listed.1 listed.2 with
    | (.admitted, b) => admitAll b rest
    | _ => none

/-- The sketch of an image. -/
def ofImage (image : Image) (seed : UInt64) : Except DecodeError Sketch :=
  match admitAll (.empty image.accuracy.k) image.ranking.reverse with
  | none => .error (.corrupted .duplicateKey)
  | some board =>
    .ok {
      accuracy := image.accuracy
      grid := image.grid
      board
      total := image.total
      random := .ofSeed seed }

/-- The sketch that bytes hold. -/
def ofBytes (num : Numerics) (bytes : List UInt8) (seed : UInt64) : Except DecodeError Sketch := do
  let image ← Image.decode num bytes
  ofImage image seed

end FlowSketch.Sketch
