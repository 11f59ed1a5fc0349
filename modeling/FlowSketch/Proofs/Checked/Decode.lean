import FlowSketch.Proofs.Binary64.Ceiling
import FlowSketch.Proofs.Checked.Reading
import FlowSketch.Proofs.Wire.Canonical

/-!
# FlowSketch.Proofs.Checked.Decode

**Reading any bytes stays inside them.** A header is checked before its numbers are used: the shape
must be the one that the parameters ask for, so there are at most 710 rows (`LogBounded.depth_le`), and
the number of cells and their length in bytes fit into words. Every other length is read from a field
of 32 bits. So the reader that works by positions agrees with the plain one on every byte string
that a machine can hold (`decodeChecked_eq`).
-/

namespace FlowSketch

/-! ### The number of rows -/

/-- What the logarithm does not exceed: 710 at a finite float above zero. At infinity it is
infinite. -/
structure Numerics.LogBounded (num : Numerics) : Prop where
  finite : ∀ x : Float, 0.0 < x → x.isFinite = true → num.ln x ≤ 710.0
  infinite : num.ln (1.0 / 0.0) = 1.0 / 0.0

/-- A shape that parameters lead to has at most 710 rows. -/
theorem Numerics.LogBounded.depth_le {num : Numerics} (hln : num.LogBounded) {a : Accuracy}
    {shape : Shape} (h : a.shape num = .ok shape) : shape.depth ≤ 710 := by
  obtain ⟨-, -, -, hdelta, hdepth, -, hfits, -, -⟩ := Accuracy.shape_eq_ok h
  have hrows : shape.depth = max 1 (ceilNat (num.ln (1.0 / a.delta))) := hdepth
  rcases Binary64.reciprocal_cases hdelta with hinfinite | ⟨hpos, hfinite⟩
  · rw [hinfinite, hln.infinite] at hrows
    have hrefused := Binary64.maxWord32_lt_ceilNat
    omega
  · have hceil := Binary64.ceilNat_le (hln.finite _ hpos hfinite)
    omega

/-- The number of cells of such a shape is far below what a word counts. -/
theorem Numerics.LogBounded.cellCount_le {num : Numerics} (hln : num.LogBounded) {a : Accuracy}
    {shape : Shape} (h : a.shape num = .ok shape) : shape.cellCount ≤ 710 * maxWord32 := by
  obtain ⟨-, -, -, -, -, -, -, hwidth, -⟩ := Accuracy.shape_eq_ok h
  exact Nat.mul_le_mul (hln.depth_le h) hwidth

namespace Image

open CheckedReader (Agrees Inside)

/-! ### Readers by positions -/

/-- The header. -/
def readHeaderChecked (num : Numerics) : CheckedReader (Accuracy × Shape × UInt64) := do
  let k ← CheckedReader.number 4
  let depth ← CheckedReader.number 4
  let width ← CheckedReader.number 4
  let epsilon ← CheckedReader.float
  let delta ← CheckedReader.float
  let total ← CheckedReader.word64
  let accuracy : Accuracy := { k, epsilon, delta }
  let found : Shape := { depth, width }
  match accuracy.shape num with
  | .error cause => throw (.invalidHeader (.parameter cause))
  | .ok expected =>
    if expected = found then return (accuracy, found, total)
    else throw (.invalidHeader (.shape found expected epsilon delta))

/-- The cell with an index. -/
def readCellChecked (index : Nat) : CheckedReader Cell := do
  let fingerprint ← CheckedReader.word32
  let counter ← CheckedReader.word32
  let cell : Cell := { fingerprint, counter }
  if (fingerprint == 0) != (counter == 0) then throw (.corrupted (.halfEmptyCell index cell))
  else return cell

/-- A listed key. -/
def readRecordChecked : CheckedReader (Key × UInt64) := do
  let length ← CheckedReader.number 4
  let key ← CheckedReader.take length
  let estimate ← CheckedReader.word64
  if estimate = 0 then throw (.corrupted .zeroEstimate) else return (key, estimate)

/-- A whole image. How many bytes are left is asked once more before the listed keys are read; their
storage is reserved by it. -/
def readChecked (num : Numerics) : CheckedReader Image := do
  let (accuracy, shape, total) ← readHeaderChecked num
  let cellCount ← Checked.times 64 shape.depth shape.width
  CheckedReader.require (Checked.saturatingTimes cellCount cellLength)
  let cells ← CheckedReader.collect readCellChecked 0 cellCount #[]
  let count ← CheckedReader.number 4
  if accuracy.k < count then throw (.corrupted (.tooManyKeys count accuracy.k))
  let _ ← CheckedReader.remaining
  let records ← CheckedReader.collect (fun _ => readRecordChecked) 0 count #[]
  let ranking := records.toList
  if !isDescending ranking then throw (.corrupted .notDescending)
  CheckedReader.finish
  return { accuracy, grid := { toShape := shape, cells }, total, ranking }

/-- The image that bytes hold. -/
def decodeChecked (num : Numerics) (bytes : List UInt8) : Checked (Except DecodeError Image) := do
  let result ← readChecked num bytes 0
  return result.map Prod.fst

/-! ### Agreement -/

variable {num : Numerics} {bytes : List UInt8}

theorem agrees_readHeader (hlength : bytes.length < 2 ^ 63) :
    Agrees bytes (readHeaderChecked num) (readHeader num) := by
  have hword : bytes.length + 4 < 2 ^ 64 := by omega
  refine (Agrees.number hword).bind fun k _ => (Agrees.number hword).bind fun depth _ =>
    (Agrees.number hword).bind fun width _ => (Agrees.float hlength).bind fun epsilon _ =>
    (Agrees.float hlength).bind fun delta _ => (Agrees.word64 hlength).bind fun total _ => ?_
  dsimp only
  cases Accuracy.shape num ⟨k, epsilon, delta⟩ with
  | error cause => exact Agrees.throw _
  | ok expected => exact Agrees.ite (fun _ => Agrees.pure _) fun _ => Agrees.throw _

theorem agrees_readCell (hlength : bytes.length < 2 ^ 63) (index : Nat) :
    Agrees bytes (readCellChecked index) (readCell index) :=
  (Agrees.word32 hlength).bind fun _ _ => (Agrees.word32 hlength).bind fun _ _ =>
    Agrees.ite (fun _ => Agrees.throw _) fun _ => Agrees.pure _

/-- The length of a key comes from a field of 32 bits. -/
theorem agrees_readRecord (hlength : bytes.length < 2 ^ 63) :
    Agrees bytes readRecordChecked readRecord := by
  refine (Agrees.number (by omega)).bind fun length hread => ?_
  have hfits : length < 256 ^ 4 := by
    obtain ⟨c, c', hread⟩ := hread
    exact (Reader.number_eq_ok.mp hread).1
  exact (Agrees.take (by omega)).bind fun _ _ => (Agrees.word64 hlength).bind fun _ _ =>
    Agrees.ite (fun _ => Agrees.throw _) fun _ => Agrees.pure _

theorem agrees_read (hln : num.LogBounded) (hlength : bytes.length < 2 ^ 63) :
    Agrees bytes (readChecked num) (read num) := by
  refine (agrees_readHeader hlength).bind fun header hheader => ?_
  obtain ⟨accuracy, shape, total⟩ := header
  -- a header that was accepted has few rows
  have hcount : shape.cellCount ≤ 710 * maxWord32 := by
    obtain ⟨c, c', hread⟩ := hheader
    exact hln.cellCount_le (readHeader_eq_ok.mp hread).1
  have hmax : 710 * maxWord32 < 2 ^ 42 := by decide
  have hcells : shape.depth * shape.width = shape.cellCount := rfl
  refine Agrees.step (Checked.times_ok (by omega)) ?_
  have hbytes : shape.cellCount * cellLength < 2 ^ 45 := by
    show shape.cellCount * 8 < 2 ^ 45
    omega
  rw [hcells, Checked.saturatingTimes_eq (by omega)]
  refine (Agrees.require (by omega)).bind fun _ _ =>
    (Agrees.collect (agrees_readCell hlength) 0 shape.cellCount #[]).bind fun cells _ =>
    (Agrees.number (by omega)).bind fun count _ =>
    Agrees.guard fun _ => Agrees.remaining_step fun _ =>
    (Agrees.collect (fun _ => agrees_readRecord hlength) 0 count #[]).bind fun records _ =>
    Agrees.guard fun _ => Agrees.finish.bind fun _ _ => Agrees.pure _

/-- No byte string makes the decoder stop at a fault. -/
theorem decodeChecked_eq (hln : num.LogBounded) (hlength : bytes.length < 2 ^ 63) :
    decodeChecked num bytes = .ok (decode num bytes) := by
  have hagrees := agrees_read hln hlength (.start bytes) ⟨Nat.zero_le _, rfl⟩
  have hdecode : decode num bytes = (read num (.start bytes)).map Prod.fst := by
    show Except.bind (read num (.start bytes)) _ = _
    cases read num (.start bytes) <;> rfl
  rw [decodeChecked, hdecode]
  cases hresult : read num (.start bytes) with
  | error e =>
      rw [hresult] at hagrees
      rw [show readChecked num bytes 0 = _ from hagrees]
      rfl
  | ok x =>
      rw [hresult] at hagrees
      rw [show readChecked num bytes 0 = _ from hagrees.1]
      rfl

end Image

end FlowSketch
