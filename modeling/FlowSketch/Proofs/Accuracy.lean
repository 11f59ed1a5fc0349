import FlowSketch.Proofs.Checked.Sketch
import FlowSketch.Proofs.Place

/-!
# FlowSketch.Proofs.Accuracy

**Parameters that are accepted ask for a grid that a machine can hold.** The checks alone bound rows and
columns by what a field of 32 bits counts, and the bits of such a grid need not fit into a word. There
are far fewer rows than that, though: their number is a logarithm, and either one by the failure
probability is finite, which leaves at most 710 of them, or it overflows to infinity, which asks for
infinitely many and is refused. So cells, bits and bytes all fit into words of 64 bits
(`shape_fits`).

The product of two numbers of 32 bits always fits, so the check of the product after those of its
factors never fails (`shape_ne_gridTooLarge`).

Nor are there ever so many rows that their seeds repeat: no two of the hashes that a short key has in a
reachable sketch are the same (`Reachable.nodup_hashes`).
-/

namespace FlowSketch.Accuracy

variable {num : Numerics}

/-- A fraction is strictly between zero and one. -/
theorem isFraction_iff {x : Float} : isFraction x = true ↔ 0.0 < x ∧ x < 1.0 := by
  simp [isFraction]

/-- The parameters are in range, and so is everything that is measured on a grid of the shape. -/
structure Fits (a : Accuracy) (shape : Shape) : Prop where
  one_le_k : 1 ≤ a.k
  k_le : a.k ≤ maxWord32
  epsilon : 0.0 < a.epsilon ∧ a.epsilon < 1.0
  delta : 0.0 < a.delta ∧ a.delta < 1.0
  one_le_depth : 1 ≤ shape.depth
  depth_le : shape.depth ≤ 710
  three_le_width : 3 ≤ shape.width
  width_le : shape.width ≤ maxWord32
  cellCount_lt : shape.cellCount < 2 ^ 64
  memoryBits_lt : ∀ g : Grid, g.toShape = shape → g.memoryBits < 2 ^ 64
  /-- An encoding without listed keys has a header of 36 bytes, eight bytes for each cell, and four
  for the number of listed keys. -/
  length_lt : ∀ i : Image, i.grid.toShape = shape → i.grid.cells.size = shape.cellCount →
    i.ranking = [] → i.encode.length = 36 + 8 * shape.cellCount + 4 ∧ i.encode.length < 2 ^ 64

/-- Rows and columns that are few enough one by one are few enough together. -/
theorem shape_ne_gridTooLarge (num : Numerics) (a : Accuracy) (epsilon : Float) :
    a.shape num ≠ .error (.gridTooLarge epsilon) := by
  intro h
  unfold shape at h
  dsimp only at h
  -- the six checks before the last one have errors of their own
  iterate 6
    split at h
    · cases h
  rename_i hrows hcolumns
  split at h
  · rename_i hlarge
    have hproduct : rows num a.delta * columns a.epsilon ≤ maxWord32 * maxWord32 :=
      Nat.mul_le_mul (Nat.le_of_not_lt hrows) (Nat.le_of_not_lt hcolumns)
    exact absurd (Nat.le_trans hlarge hproduct) (by decide)
  · cases h

/-- The shape that parameters lead to is in range. -/
theorem fits_of_shape (hln : num.LogBounded) {a : Accuracy} {shape : Shape}
    (h : a.shape num = .ok shape) : a.Fits shape := by
  obtain ⟨hk, hmany, hepsilon, hdelta, hdepth, hwidth, -, hwidthLe, -⟩ := shape_eq_ok h
  have hcolumns := Binary64.three_le_columns hepsilon
  have hcount : shape.cellCount ≤ 710 * maxWord32 := hln.cellCount_le h
  have hmax : 710 * maxWord32 * 64 < 2 ^ 63 := by decide
  refine {
    one_le_k := Nat.one_le_iff_ne_zero.mpr hk
    k_le := hmany
    epsilon := isFraction_iff.mp hepsilon
    delta := isFraction_iff.mp hdelta
    one_le_depth := hdepth ▸ Nat.le_max_left 1 _
    depth_le := hln.depth_le h
    three_le_width := hwidth ▸ hcolumns
    width_le := hwidthLe
    cellCount_lt := by omega
    memoryBits_lt := ?_
    length_lt := ?_ }
  · rintro g rfl
    change g.cellCount * 64 < 2 ^ 64
    omega
  · intro i hshape hsize hranking
    have hlength : i.encode.length = 36 + 8 * shape.cellCount + 4 := by
      rw [Image.length_encode, hranking, hsize, Nat.mul_comm shape.cellCount]
      rfl
    exact ⟨hlength, by omega⟩

/-- Parameters that are accepted are in range and lead to a grid of at least one and at most 710 rows
of at least three columns, which fits into words together with its encoding, and no parameters are
refused because the grid would be too large as a whole. -/
theorem shape_fits (hln : num.LogBounded) (a : Accuracy) :
    (∀ shape, a.shape num = .ok shape → a.Fits shape) ∧
      ∀ epsilon, a.shape num ≠ .error (.gridTooLarge epsilon) :=
  ⟨fun _ h => fits_of_shape hln h, shape_ne_gridTooLarge num a⟩

/-- Two halves ask for a grid of one row. An error scale that asks for more columns than a field counts
is refused for their sake, not for that of the whole grid. -/
theorem shape_fits_halves :
    Sketch.boundedNumerics.LogBounded ∧
      (Accuracy.mk 2 0.5 0.5).shape Sketch.boundedNumerics = .ok ⟨1, 6⟩ ∧
      (Accuracy.mk 2 0.5 0.5).Fits ⟨1, 6⟩ ∧
      (Accuracy.mk 2 1e-10 0.5).shape Sketch.boundedNumerics = .error (.rowTooWide 1e-10) ∧
      (Accuracy.mk 2 1e-10 0.5).shape Sketch.boundedNumerics ≠ .error (.gridTooLarge 1e-10) :=
  ⟨Sketch.logBounded_boundedNumerics, rfl,
    (shape_fits Sketch.logBounded_boundedNumerics ⟨2, 0.5, 0.5⟩).1 ⟨1, 6⟩ rfl, rfl,
    (shape_fits Sketch.logBounded_boundedNumerics ⟨2, 1e-10, 0.5⟩).2 1e-10⟩

end FlowSketch.Accuracy

namespace FlowSketch.Sketch

/-- In every reachable sketch, all hashes of a key of up to eight bytes differ. -/
theorem Reachable.nodup_hashes {num : Numerics} {s : Sketch} (hs : Reachable num s) {key : Key}
    (hkey : key.length ≤ 8) : (Place.hashes s.grid.depth key).Nodup := by
  obtain ⟨-, -, -, -, -, -, hdepth, -⟩ := Accuracy.shape_eq_ok hs.sound.shape
  exact Place.nodup_hashes (Nat.le_trans hdepth (by decide)) hkey

end FlowSketch.Sketch
