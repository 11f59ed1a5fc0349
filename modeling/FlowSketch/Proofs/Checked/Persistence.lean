import FlowSketch.Proofs.Checked.Decode
import FlowSketch.Proofs.Checked.Leaderboard

/-!
# FlowSketch.Proofs.Checked.Persistence

**Writing and reading back go through.** The storage of an encoding is reserved before it is written, and
every sum on the way to its length is at most the length (`lengthChecked_eq`). Reading back admits the
listed keys of an image one by one, at most as many as the parameters say, so the numbers of the
admissions stay small; the cells are as many as the shape says, because they were read by it
(`ofImageChecked_eq`, `ofBytesChecked_eq`).
-/

namespace FlowSketch

/-! ### The length of an encoding -/

namespace Image

/-- The storage for the records of some listed keys, added to that for others. -/
def recordsLengthChecked : List (Key × UInt64) → Nat → Checked Nat
  | [], total => return total
  | listed :: rest, total => do
    let length ← Checked.plus 64 12 listed.1.length
    recordsLengthChecked rest (← Checked.plus 64 total length)

theorem recordsLengthChecked_eq {records : List (Key × UInt64)} {total : Nat}
    (h : total + (records.flatMap encodeRecord).length < 2 ^ 64) :
    recordsLengthChecked records total = .ok (total + (records.flatMap encodeRecord).length) := by
  induction records generalizing total with
  | nil => rfl
  | cons listed rest ih =>
      rw [List.flatMap_cons, List.length_append, length_encodeRecord] at h ⊢
      rw [recordsLengthChecked, Checked.plus_ok (by omega), Checked.ok_bind,
        Checked.plus_ok (by omega), Checked.ok_bind, ih (by omega), Nat.add_assoc]

/-- The storage for an image. -/
def lengthChecked (i : Image) : Checked Nat := do
  let records ← recordsLengthChecked i.ranking 0
  let cells ← Checked.times 64 i.grid.cells.size cellLength
  let length ← Checked.plus 64 headerLength cells
  let length ← Checked.plus 64 length 4
  Checked.plus 64 length records

/-- Exactly the storage that is needed is reserved. -/
theorem lengthChecked_eq {i : Image} (h : i.encode.length < 2 ^ 64) :
    i.lengthChecked = .ok i.encode.length := by
  rw [length_encode] at h ⊢
  rw [lengthChecked, recordsLengthChecked_eq (by omega), Checked.ok_bind,
    Checked.times_ok (by omega), Checked.ok_bind, Checked.plus_ok (by omega), Checked.ok_bind,
    Checked.plus_ok (by omega), Checked.ok_bind, Nat.zero_add]
  exact Checked.plus_ok h

end Image

namespace Sketch

variable {num : Numerics}

/-- The bytes of a sketch. -/
def toBytesChecked (s : Sketch) : Checked (List UInt8) := do
  let _ ← s.image.lengthChecked
  return s.toBytes

theorem toBytesChecked_eq {s : Sketch} (h : s.toBytes.length < 2 ^ 63) :
    s.toBytesChecked = .ok s.toBytes := by
  have hlength : s.image.encode.length < 2 ^ 64 := Nat.lt_trans h (by decide)
  rw [toBytesChecked, Image.lengthChecked_eq hlength]
  rfl

/-! ### Sketches from their parts -/

/-- The base of the decay of a sketch is at least one. -/
theorem one_le_decayBase : (1.0 : Float) ≤ decayBase := by decide +kernel

/-- A sketch from its parts, with a random stream of its own. -/
def assembleChecked (accuracy : Accuracy) (grid : Grid) (board : Leaderboard) (total : UInt64)
    (seed : UInt64) : Checked Sketch := do
  Checked.assert ((1.0 : Float) ≤ decayBase)
  return { accuracy, grid, board, total, random := .ofSeed seed }

theorem assembleChecked_eq (accuracy : Accuracy) (grid : Grid) (board : Leaderboard)
    (total seed : UInt64) :
    assembleChecked accuracy grid board total seed =
      .ok ⟨accuracy, grid, board, total, .ofSeed seed⟩ := by
  rw [assembleChecked, Checked.assert_ok one_le_decayBase]
  rfl

/-- Keys in turn admitted to a leaderboard; nothing if one of them is not. -/
def admitAllChecked (b : Leaderboard) : List (Key × UInt64) → Checked (Option Leaderboard)
  | [] => return some b
  | listed :: rest => do
    match ← b.offerChecked listed.1 listed.2 with
    | (.admitted, b) => admitAllChecked b rest
    | _ => return none

theorem admitAllChecked_eq {b : Leaderboard} (hb : b.Addressable)
    {listed : List (Key × UInt64)} (hseq : b.nextSeq + listed.length < 2 ^ 64) :
    admitAllChecked b listed = .ok (admitAll b listed) := by
  induction listed generalizing b with
  | nil => rfl
  | cons first rest ih =>
      have hnext := (Leaderboard.nextSeq_offer b first.1 first.2).2
      have hkept := hb.offer first.1 first.2
      rw [List.length_cons] at hseq
      rw [admitAllChecked, admitAll, hb.offerChecked_eq first.1 first.2 (by omega), Checked.ok_bind]
      cases hoffer : b.offer first.1 first.2 with
      | mk response after =>
          rw [hoffer] at hnext hkept
          dsimp only at hnext hkept
          cases response with
          | admitted => exact ih hkept (by omega)
          | ignored => rfl
          | raised => rfl
          | displaced key estimate => rfl

/-- The sketch of an image. -/
def ofImageChecked (image : Image) (seed : UInt64) : Checked (Except DecodeError Sketch) := do
  let board ← Leaderboard.emptyChecked image.accuracy.k
  match ← admitAllChecked board image.ranking.reverse with
  | none => return .error (.corrupted .duplicateKey)
  | some board =>
    let count ← Checked.times 64 image.grid.depth image.grid.width
    Checked.assert (image.grid.cells.size = count)
    return .ok (← assembleChecked image.accuracy image.grid board image.total seed)

theorem ofImageChecked_eq {image : Image} (h : image.Valid num) (seed : UInt64) :
    ofImageChecked image seed = .ok (ofImage image seed) := by
  obtain ⟨hk, hmany, -, -, -, -, -, -, hcount⟩ := Accuracy.shape_eq_ok h.shape
  have hfew : 0 + image.ranking.reverse.length < 2 ^ 64 := by
    have hmax : maxWord32 < 2 ^ 64 := by decide
    have hlisted := h.length_le
    rw [List.length_reverse]
    omega
  have hadmit := admitAllChecked_eq (Leaderboard.addressable_empty hk hmany) hfew
  have hsize : image.grid.cells.size = image.grid.depth * image.grid.width := h.size
  rw [ofImageChecked, Leaderboard.emptyChecked_eq hk, Checked.ok_bind, hadmit, Checked.ok_bind,
    ofImage]
  cases admitAll (.empty image.accuracy.k) image.ranking.reverse with
  | none => rfl
  | some board =>
      dsimp only
      rw [Checked.times_ok hcount, Checked.ok_bind, Checked.assert_ok hsize, Checked.ok_bind,
        assembleChecked_eq]
      rfl

/-- The sketch that bytes hold. -/
def ofBytesChecked (num : Numerics) (bytes : List UInt8) (seed : UInt64) :
    Checked (Except DecodeError Sketch) := do
  match ← Image.decodeChecked num bytes with
  | .error e => return .error e
  | .ok image => ofImageChecked image seed

/-- Whatever the bytes are, reading them goes through. -/
theorem ofBytesChecked_eq (hln : num.LogBounded) {bytes : List UInt8}
    (hlength : bytes.length < 2 ^ 63) (seed : UInt64) :
    ofBytesChecked num bytes seed = .ok (ofBytes num bytes seed) := by
  rw [ofBytesChecked, Image.decodeChecked_eq hln hlength, Checked.ok_bind]
  show _ = Except.ok (Except.bind (Image.decode num bytes) fun image => ofImage image seed)
  cases hdecode : Image.decode num bytes with
  | error e => rfl
  | ok image => exact ofImageChecked_eq (Image.decode_eq_ok.mp hdecode).1 seed

end Sketch

end FlowSketch
