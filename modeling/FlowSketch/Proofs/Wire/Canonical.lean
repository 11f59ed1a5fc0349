import FlowSketch.Proofs.Binary64.Packing
import FlowSketch.Proofs.Cell
import FlowSketch.Proofs.Wire.Reading

/-!
# FlowSketch.Proofs.Wire.Canonical

**Every image has one encoding.** Bytes decode to an image exactly if the image is one that a sketch
can have (`Image.Valid`) and the bytes are its encoding (`decode_eq_ok`). What decodes was therefore
written in the only way there is, and what is written for a valid image decodes to it.

Two fields need an argument beyond their own reader. The accuracies are read as floats, and a float
can have many bit patterns, but the parameters were checked to be fractions, and a fraction has one.
The numbers of the header are written in 32 bits, and the same check has them fit.
-/

namespace FlowSketch

namespace Accuracy

/-- What the parameters have passed once they lead to a shape. -/
theorem shape_eq_ok {num : Numerics} {a : Accuracy} {shape : Shape}
    (h : a.shape num = .ok shape) :
    a.k ≠ 0 ∧ a.k ≤ maxWord32 ∧ isFraction a.epsilon = true ∧ isFraction a.delta = true ∧
      shape.depth = rows num a.delta ∧ shape.width = columns a.epsilon ∧
      shape.depth ≤ maxWord32 ∧ shape.width ≤ maxWord32 ∧ shape.cellCount < UInt64.size := by
  unfold Accuracy.shape at h
  by_cases hzero : a.k = 0
  · rw [if_pos hzero] at h
    cases h
  by_cases hmany : maxWord32 < a.k
  · rw [if_neg hzero, if_pos hmany] at h
    cases h
  rw [if_neg hzero, if_neg hmany] at h
  cases hepsilon : isFraction a.epsilon with
  | false => simp [hepsilon] at h
  | true =>
      cases hdelta : isFraction a.delta with
      | false => simp [hepsilon, hdelta] at h
      | true =>
          simp only [hepsilon, hdelta, Bool.not_true, Bool.false_eq_true, if_false] at h
          split at h
          · cases h
          · split at h
            · cases h
            · split at h
              · cases h
              · cases h
                -- every check has passed, and says one part of the conclusion
                refine ⟨hzero, by omega, rfl, rfl, rfl, rfl, ?_, ?_, ?_⟩
                all_goals simp only [Shape.cellCount]
                all_goals omega

end Accuracy

namespace Image

variable {num : Numerics} {c c' : Cursor}

/-! ### The parts of an image -/

/-- A header is accepted if its shape is the one that its parameters ask for. -/
theorem readHeader_eq_ok {accuracy : Accuracy} {shape : Shape} {total : UInt64} :
    readHeader num c = .ok ((accuracy, shape, total), c') ↔
      accuracy.shape num = .ok shape ∧ c.Spans (encodeHeader accuracy shape total) c' := by
  unfold readHeader
  simp only [Reader.bind_eq_ok, Reader.number_eq_ok, Reader.float_eq_ok, Reader.word64_eq_ok,
    encodeHeader, Cursor.spans_append]
  constructor
  · intro h
    obtain ⟨k, c₁, ⟨hk, hc₁⟩, depth, c₂, ⟨hdepth, hc₂⟩, width, c₃, ⟨hwidth, hc₃⟩, h⟩ := h
    obtain ⟨_, c₄, ⟨epsilon, hc₄, rfl⟩, _, c₅, ⟨delta, hc₅, rfl⟩, total', c₆, hc₆, hcheck⟩ := h
    cases hshape : Accuracy.shape num ⟨k, Float.ofBits epsilon, Float.ofBits delta⟩ with
    | error cause =>
        rw [hshape] at hcheck
        exact absurd hcheck Reader.throw_ne_ok
    | ok expected =>
        simp only [hshape] at hcheck
        by_cases hfound : expected = ⟨depth, width⟩
        · rw [if_pos hfound] at hcheck
          subst hfound
          obtain ⟨hheader, rfl⟩ := Reader.pure_eq_ok.mp hcheck
          cases hheader
          -- the parameters are fractions, so their bits are the ones that were read
          obtain ⟨-, -, hepsilon, hdelta, -⟩ := Accuracy.shape_eq_ok hshape
          refine ⟨hshape, c₅, ⟨c₄, ⟨c₃, ⟨c₂, ⟨c₁, hc₁, hc₂⟩, hc₃⟩, ?_⟩, ?_⟩, hc₆⟩
          · rw [floatField, Binary64.toBits_ofBits_of_isFraction hepsilon]
            exact hc₄
          · rw [floatField, Binary64.toBits_ofBits_of_isFraction hdelta]
            exact hc₅
        · rw [if_neg hfound] at hcheck
          exact absurd hcheck Reader.throw_ne_ok
  · intro h
    obtain ⟨hshape, c₅, ⟨c₄, ⟨c₃, ⟨c₂, ⟨c₁, hc₁, hc₂⟩, hc₃⟩, hc₄⟩, hc₅⟩, hc₆⟩ := h
    obtain ⟨-, hk, -, -, -, -, hdepth, hwidth, -⟩ := Accuracy.shape_eq_ok hshape
    have hmax : maxWord32 < 256 ^ 4 := by decide
    refine ⟨accuracy.k, c₁, ⟨by omega, hc₁⟩, shape.depth, c₂, ⟨by omega, hc₂⟩, shape.width, c₃,
      ⟨by omega, hc₃⟩, accuracy.epsilon, c₄, ⟨_, hc₄, (Binary64.ofBits_toBits _).symm⟩,
      accuracy.delta, c₅, ⟨_, hc₅, (Binary64.ofBits_toBits _).symm⟩, total, c', hc₆, ?_⟩
    simp only [hshape, if_true]
    rfl

theorem readCell_eq_ok (index : Nat) (c : Cursor) (cell : Cell) (c' : Cursor) :
    readCell index c = .ok (cell, c') ↔ cell.Whole ∧ c.Spans (encodeCell cell) c' := by
  have hhalf : ∀ fingerprint counter : UInt32,
      ((fingerprint == 0) != (counter == 0)) = true ↔ ¬ Cell.Whole ⟨fingerprint, counter⟩ := by
    intro fingerprint counter
    by_cases hf : fingerprint = 0 <;> by_cases hc : counter = 0 <;>
      simp [Cell.Whole, hf, hc, beq_eq_false_iff_ne.mpr]
  unfold readCell
  simp only [Reader.bind_eq_ok, Reader.word32_eq_ok, Reader.guard_eq_ok, Reader.pure_eq_ok, hhalf,
    encodeCell, Cursor.spans_append]
  constructor
  · intro h
    obtain ⟨fingerprint, d, hfirst, counter, _, hsecond, hwhole, rfl, rfl⟩ := h
    exact ⟨Decidable.not_not.mp hwhole, d, hfirst, hsecond⟩
  · intro h
    obtain ⟨hwhole, d, hfirst, hsecond⟩ := h
    exact ⟨cell.fingerprint, d, hfirst, cell.counter, c', hsecond, not_not_intro hwhole, rfl, rfl⟩

/-- What a record of the ranking must fulfil by itself. -/
def RecordValid (listed : Key × UInt64) : Prop :=
  listed.1.length ≤ maxWord32 ∧ listed.2 ≠ 0

theorem readRecord_eq_ok (c : Cursor) (listed : Key × UInt64) (c' : Cursor) :
    readRecord c = .ok (listed, c') ↔ RecordValid listed ∧ c.Spans (encodeRecord listed) c' := by
  have hmax : maxWord32 + 1 = 256 ^ 4 := by decide
  unfold readRecord
  simp only [Reader.bind_eq_ok, Reader.word64_eq_ok, Reader.number_eq_ok, Reader.take_eq_ok,
    Reader.guard_eq_ok, Reader.pure_eq_ok, encodeRecord, Cursor.spans_append]
  constructor
  · intro h
    obtain ⟨_, c₁, ⟨hlength, hc₁⟩, key, c₂, ⟨rfl, hc₂⟩, estimate, _, hc₃, hpos, rfl, rfl⟩ := h
    exact ⟨⟨show key.length ≤ maxWord32 by omega, hpos⟩, c₂, ⟨c₁, hc₁, hc₂⟩, hc₃⟩
  · intro h
    obtain ⟨⟨hlength, hpos⟩, c₂, ⟨c₁, hc₁, hc₂⟩, hc₃⟩ := h
    exact ⟨listed.1.length, c₁, ⟨by omega, hc₁⟩, listed.1, c₂, ⟨rfl, hc₂⟩, listed.2, c', hc₃,
      hpos, rfl, rfl⟩

/-- The test of neighbours says that no listed key is heavier than one before it. -/
theorem isDescending_iff {listed : List (Key × UInt64)} :
    isDescending listed = true ↔ listed.Pairwise fun x y => y.2 ≤ x.2 := by
  induction listed with
  | nil => simp [isDescending]
  | cons first rest ih =>
      cases rest with
      | nil => simp [isDescending]
      | cons second rest =>
          rw [isDescending, Bool.and_eq_true, decide_eq_true_eq, ih]
          constructor
          · intro h
            obtain ⟨hle, hrest⟩ := h
            refine List.pairwise_cons.mpr ⟨?_, hrest⟩
            intro x hx
            -- neighbours are compared, the rest follows by transitivity
            rcases List.mem_cons.mp hx with rfl | hx
            · exact hle
            · exact UInt64.le_trans ((List.pairwise_cons.mp hrest).1 x hx) hle
          · intro h
            obtain ⟨hfirst, hrest⟩ := List.pairwise_cons.mp h
            exact ⟨hfirst second List.mem_cons_self, hrest⟩

/-! ### Whole images -/

/-- What holds of the image of every sketch. -/
structure Valid (num : Numerics) (i : Image) : Prop where
  /-- The shape is the one that the parameters ask for. -/
  shape : i.accuracy.shape num = .ok i.grid.toShape
  size : i.grid.cells.size = i.grid.cellCount
  whole : ∀ c ∈ i.grid.cells.toList, c.Whole
  length_le : i.ranking.length ≤ i.accuracy.k
  records : ∀ x ∈ i.ranking, RecordValid x
  descending : isDescending i.ranking = true

theorem length_encodeCells (cells : List Cell) :
    (cells.flatMap encodeCell).length = cells.length * cellLength := by
  induction cells with
  | nil => simp
  | cons c rest ih =>
      rw [List.flatMap_cons, List.length_append, length_encodeCell, ih, List.length_cons,
        Nat.succ_mul, Nat.add_comm]

/-- The parts of an encoding: header, cells, the number of listed keys, and their records. -/
theorem length_encode (i : Image) :
    i.encode.length = headerLength + i.grid.cells.size * cellLength + 4 +
      (i.ranking.flatMap encodeRecord).length := by
  simp only [encode, List.length_append, length_encodeHeader, length_encodeCells, field32,
    LittleEndian.length_bytes, Array.length_toList]

/-- Reading an image succeeds exactly on the encoding of a valid one, with nothing left over. -/
theorem read_eq_ok {image : Image} :
    read num c = .ok (image, c') ↔
      image.Valid num ∧ c.Spans image.encode c' ∧ c'.rest = [] := by
  unfold read
  simp only [Reader.bind_eq_ok, Reader.require_eq_ok, Reader.number_eq_ok, Reader.check_eq_ok,
    Reader.finish_eq_ok, Reader.pure_eq_ok, Reader.collect_eq_ok readCell_eq_ok,
    Reader.collect_eq_ok (fun _ => readRecord_eq_ok), List.nil_append, encode,
    Cursor.spans_append]
  constructor
  · intro h
    obtain ⟨⟨accuracy, shape, total⟩, _, hheader, _, c₁, ⟨-, rfl⟩, cells, c₂, hcells, h⟩ := h
    obtain ⟨count, c₃, ⟨-, hc₃⟩, hroom, records, c₄, hrecords, hdescending, h⟩ := h
    obtain ⟨_, _, ⟨hrest, rfl⟩, rfl, rfl⟩ := h
    obtain ⟨_, hsize, hwhole, rfl, hc₂⟩ := hcells
    obtain ⟨_, rfl, hvalid, rfl, hc₄⟩ := hrecords
    obtain ⟨hshape, hc₁⟩ := readHeader_eq_ok.mp hheader
    refine ⟨⟨hshape, hsize, hwhole, Nat.le_of_not_lt hroom, hvalid, by simpa using hdescending⟩,
      ⟨c₃, ⟨c₂, ⟨c₁, hc₁, hc₂⟩, hc₃⟩, hc₄⟩, hrest⟩
  · intro h
    obtain ⟨hvalid, ⟨c₃, ⟨c₂, ⟨c₁, hc₁, hc₂⟩, hc₃⟩, hc₄⟩, hrest⟩ := h
    have hsize : image.grid.cells.toList.length = image.grid.cellCount := hvalid.size
    -- the reader asks beforehand whether there are bytes for all cells
    have hroom : image.grid.cellCount * cellLength ≤ c₁.rest.length := by
      rw [hc₂.rest, List.length_append, length_encodeCells, hsize]
      exact Nat.le_add_right _ _
    have hk := (Accuracy.shape_eq_ok hvalid.shape).2.1
    have hmax : maxWord32 + 1 = 256 ^ 4 := by decide
    have hlength := hvalid.length_le
    refine ⟨(image.accuracy, image.grid.toShape, image.total), c₁,
      readHeader_eq_ok.mpr ⟨hvalid.shape, hc₁⟩, (), c₁, ⟨hroom, rfl⟩, image.grid.cells, c₂,
      ⟨_, hsize, hvalid.whole, rfl, hc₂⟩, image.ranking.length, c₃, ⟨by omega, hc₃⟩,
      Nat.not_lt.mpr hlength, image.ranking.toArray, c', ⟨_, rfl, hvalid.records, rfl, hc₄⟩, ?_,
      (), c', ⟨hrest, rfl⟩, rfl, rfl⟩
    simp [hvalid.descending]

/-- Bytes decode to the image that is read from their start. -/
theorem decode_eq_ok_iff_read {bytes : List UInt8} {image : Image} :
    decode num bytes = .ok image ↔ ∃ c', read num (.start bytes) = .ok (image, c') := by
  unfold decode
  show Except.bind (read num (.start bytes)) (fun x => .ok x.1) = .ok image ↔ _
  cases read num (.start bytes) with
  | error e => simp [Except.bind]
  | ok x =>
      obtain ⟨found, c⟩ := x
      simp [Except.bind]

/-- Bytes decode to an image exactly if they are the encoding of that image and it is valid. -/
theorem decode_eq_ok {bytes : List UInt8} {image : Image} :
    decode num bytes = .ok image ↔ image.Valid num ∧ bytes = image.encode := by
  rw [decode_eq_ok_iff_read]
  constructor
  · intro h
    obtain ⟨c', h⟩ := h
    obtain ⟨hvalid, hspans, hrest⟩ := read_eq_ok.mp h
    refine ⟨hvalid, ?_⟩
    have hbytes := hspans.rest
    rwa [hrest, List.append_nil] at hbytes
  · intro h
    obtain ⟨hvalid, rfl⟩ := h
    refine ⟨⟨image.encode.length, []⟩, read_eq_ok.mpr ⟨hvalid, ⟨?_, ?_⟩, rfl⟩⟩
    · exact (List.append_nil _).symm
    · exact (Nat.zero_add _).symm

/-- Valid images of one encoding are one image. -/
theorem encode_inj {a b : Image} (ha : a.Valid num) (hb : b.Valid num) (h : a.encode = b.encode) :
    a = b := by
  have hdecode := decode_eq_ok.mpr ⟨ha, rfl⟩
  rw [h, decode_eq_ok.mpr ⟨hb, rfl⟩] at hdecode
  exact (Except.ok.inj hdecode).symm

end Image

end FlowSketch
