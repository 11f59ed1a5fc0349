import FlowSketch.Proofs.Wire.Canonical

/-!
# FlowSketch.Proofs.Wire.Grammar

**The grammar of an encoding.** Here an encoding is described without the writer and without the
reader: which bytes stand one after the other, and which numbers they spell (`Image.Written`). Fields
are strings of base-256 digits of a fixed length, cells and records are rows of fields, and the side
conditions say which values may stand together.

The grammar derives from bytes exactly the images that are valid and list no key twice, each from the
one string that is its encoding (`written_iff`). Distinct keys are the one condition that the reader
leaves to the leaderboard.
-/

namespace FlowSketch

/-! ### Fields -/

/-- A string of `n` base-256 digits, least significant first, spells a number. -/
def Spells (n v : Nat) (bytes : List UInt8) : Prop :=
  bytes.length = n ∧ LittleEndian.value bytes = v

/-- Eight bytes spell a float by its bits. -/
def SpellsFloat (x : Float) (bytes : List UInt8) : Prop :=
  ∃ bits : UInt64, Spells 8 bits.toNat bytes ∧ x = Float.ofBits bits

/-- A number is spelled in one way, if it is not too large to be spelled at all. -/
theorem spells_iff {n v : Nat} {bytes : List UInt8} :
    Spells n v bytes ↔ v < 256 ^ n ∧ bytes = LittleEndian.bytes n v := by
  constructor
  · intro h
    obtain ⟨rfl, rfl⟩ := h
    exact ⟨LittleEndian.value_lt bytes, (LittleEndian.bytes_value bytes).symm⟩
  · intro h
    obtain ⟨hv, rfl⟩ := h
    exact ⟨LittleEndian.length_bytes n v, LittleEndian.value_bytes hv⟩

theorem spells_word32 {w : UInt32} {bytes : List UInt8} :
    Spells 4 w.toNat bytes ↔ bytes = Image.field32 w.toNat :=
  spells_iff.trans (and_iff_right w.toNat_lt)

theorem spells_word64 {w : UInt64} {bytes : List UInt8} :
    Spells 8 w.toNat bytes ↔ bytes = Image.field64 w.toNat :=
  spells_iff.trans (and_iff_right w.toNat_lt)

/-- A fraction is spelled in one way, too. -/
theorem spellsFloat_iff {x : Float} {bytes : List UInt8} (hx : Accuracy.isFraction x = true) :
    SpellsFloat x bytes ↔ bytes = Image.floatField x := by
  constructor
  · intro h
    obtain ⟨bits, hbits, rfl⟩ := h
    rw [Image.floatField, Binary64.toBits_ofBits_of_isFraction hx]
    exact spells_word64.mp hbits
  · intro h
    exact ⟨x.toBits, spells_word64.mpr h, (Binary64.ofBits_toBits x).symm⟩

/-! ### Rows of fields -/

namespace Image

/-- The header: 36 bytes for the parameters, the shape and the number of recordings. -/
inductive HeaderForm (accuracy : Accuracy) (shape : Shape) (total : UInt64) : List UInt8 → Prop where
  | fields {k depth width epsilon delta count : List UInt8} :
      Spells 4 accuracy.k k → Spells 4 shape.depth depth → Spells 4 shape.width width →
      SpellsFloat accuracy.epsilon epsilon → SpellsFloat accuracy.delta delta →
      Spells 8 total.toNat count →
      HeaderForm accuracy shape total (k ++ depth ++ width ++ epsilon ++ delta ++ count)

/-- A cell: eight bytes for a fingerprint and a counter, both zero or both not. -/
inductive CellForm (c : Cell) : List UInt8 → Prop where
  | fields {fingerprint counter : List UInt8} :
      Spells 4 c.fingerprint.toNat fingerprint → Spells 4 c.counter.toNat counter →
      (c.fingerprint = 0 ∧ c.counter = 0 ∨ c.fingerprint ≠ 0 ∧ c.counter ≠ 0) →
      CellForm c (fingerprint ++ counter)

/-- A record: the length of a key, the key, and an estimate that is not zero. -/
inductive RecordForm (listed : Key × UInt64) : List UInt8 → Prop where
  | fields {length estimate : List UInt8} :
      Spells 4 listed.1.length length → Spells 8 listed.2.toNat estimate → listed.2 ≠ 0 →
      RecordForm listed (length ++ listed.1 ++ estimate)

/-- Bytes that say an image: a header whose shape is the one that its parameters ask for, as many
cells as the shape has, the number of listed keys, which are no more than the sketch reports, one
record for each of them, from heavy to light and no key twice, and nothing after. -/
inductive Written (num : Numerics) (i : Image) : List UInt8 → Prop where
  | parts {header count : List UInt8} {cells records : List (List UInt8)} :
      HeaderForm i.accuracy i.grid.toShape i.total header →
      i.accuracy.shape num = .ok i.grid.toShape →
      List.Forall₂ CellForm i.grid.cells.toList cells →
      i.grid.cells.size = i.grid.depth * i.grid.width →
      Spells 4 i.ranking.length count →
      i.ranking.length ≤ i.accuracy.k →
      List.Forall₂ RecordForm i.ranking records →
      (i.ranking.Pairwise fun x y => y.2 ≤ x.2) →
      (i.ranking.map Prod.fst).Nodup →
      Written num i (header ++ cells.flatten ++ count ++ records.flatten)

/-! ### One string for each image -/

variable {num : Numerics}

theorem headerForm_iff {accuracy : Accuracy} {shape : Shape} {total : UInt64} {bytes : List UInt8}
    (hshape : accuracy.shape num = .ok shape) :
    HeaderForm accuracy shape total bytes ↔ bytes = encodeHeader accuracy shape total := by
  obtain ⟨-, hk, hepsilon, hdelta, -, -, hdepth, hwidth, -⟩ := Accuracy.shape_eq_ok hshape
  have hmax : maxWord32 < 256 ^ 4 := by decide
  constructor
  · intro h
    obtain ⟨hk, hdepth, hwidth, hepsilonBytes, hdeltaBytes, htotal⟩ := h
    rw [(spells_iff.mp hk).2, (spells_iff.mp hdepth).2, (spells_iff.mp hwidth).2,
      (spellsFloat_iff hepsilon).mp hepsilonBytes, (spellsFloat_iff hdelta).mp hdeltaBytes,
      spells_word64.mp htotal]
    rfl
  · intro h
    rw [h]
    exact .fields (spells_iff.mpr ⟨by omega, rfl⟩) (spells_iff.mpr ⟨by omega, rfl⟩)
      (spells_iff.mpr ⟨by omega, rfl⟩) ((spellsFloat_iff hepsilon).mpr rfl)
      ((spellsFloat_iff hdelta).mpr rfl) (spells_word64.mpr rfl)

theorem cellForm_iff (c : Cell) (bytes : List UInt8) :
    CellForm c bytes ↔ c.Whole ∧ bytes = encodeCell c := by
  have hwhole : (c.fingerprint = 0 ∧ c.counter = 0 ∨ c.fingerprint ≠ 0 ∧ c.counter ≠ 0) ↔
      c.Whole := by
    unfold Cell.Whole
    tauto
  constructor
  · intro h
    obtain ⟨hfingerprint, hcounter, heither⟩ := h
    rw [spells_word32.mp hfingerprint, spells_word32.mp hcounter]
    exact ⟨hwhole.mp heither, rfl⟩
  · intro h
    obtain ⟨hc, rfl⟩ := h
    exact .fields (spells_word32.mpr rfl) (spells_word32.mpr rfl) (hwhole.mpr hc)

theorem recordForm_iff (listed : Key × UInt64) (bytes : List UInt8) :
    RecordForm listed bytes ↔ RecordValid listed ∧ bytes = encodeRecord listed := by
  have hmax : maxWord32 + 1 = 256 ^ 4 := by decide
  constructor
  · intro h
    obtain ⟨hlength, hestimate, hpos⟩ := h
    obtain ⟨hlt, rfl⟩ := spells_iff.mp hlength
    rw [spells_word64.mp hestimate]
    exact ⟨⟨show listed.1.length ≤ maxWord32 by omega, hpos⟩, rfl⟩
  · intro h
    obtain ⟨⟨hlength, hpos⟩, rfl⟩ := h
    exact .fields (spells_iff.mpr ⟨by omega, rfl⟩) (spells_word64.mpr rfl) hpos

/-- A row of items is spelled in one way if every item is. -/
theorem forall₂_form_iff {α : Type} {form : α → List UInt8 → Prop} {accepted : α → Prop}
    {write : α → List UInt8} (hform : ∀ a bytes, form a bytes ↔ accepted a ∧ bytes = write a)
    {items : List α} {parts : List (List UInt8)} :
    List.Forall₂ form items parts ↔ (∀ a ∈ items, accepted a) ∧ parts = items.map write := by
  constructor
  · intro h
    induction h with
    | nil => exact ⟨nofun, rfl⟩
    | cons hfirst _ ih =>
        obtain ⟨haccepted, rfl⟩ := (hform _ _).mp hfirst
        obtain ⟨hrest, rfl⟩ := ih
        exact ⟨List.forall_mem_cons.mpr ⟨haccepted, hrest⟩, rfl⟩
  · intro h
    obtain ⟨haccepted, rfl⟩ := h
    refine List.forall₂_map_right_iff.mpr (List.forall₂_same.mpr fun a ha => ?_)
    exact (hform _ _).mpr ⟨haccepted a ha, rfl⟩

/-- Bytes say an image exactly if the image is valid, lists no key twice, and the bytes are its
encoding. -/
theorem written_iff {i : Image} {bytes : List UInt8} :
    i.Written num bytes ↔
      i.Valid num ∧ (i.ranking.map Prod.fst).Nodup ∧ bytes = i.encode := by
  constructor
  · intro h
    obtain ⟨hheader, hshape, hcells, hsize, hcount, hlength, hrecords, hdescending, hnodup⟩ := h
    obtain ⟨hwhole, rfl⟩ := (forall₂_form_iff cellForm_iff).mp hcells
    obtain ⟨hvalid, rfl⟩ := (forall₂_form_iff recordForm_iff).mp hrecords
    refine ⟨⟨hshape, hsize, hwhole, hlength, hvalid, isDescending_iff.mpr hdescending⟩, hnodup, ?_⟩
    rw [(headerForm_iff hshape).mp hheader, (spells_iff.mp hcount).2, encode, List.flatMap_def,
      List.flatMap_def]
    rfl
  · intro h
    obtain ⟨hvalid, hnodup, rfl⟩ := h
    have hk := (Accuracy.shape_eq_ok hvalid.shape).2.1
    have hlength := hvalid.length_le
    have hmax : maxWord32 + 1 = 256 ^ 4 := by decide
    rw [encode, List.flatMap_def, List.flatMap_def]
    exact .parts ((headerForm_iff hvalid.shape).mpr rfl) hvalid.shape
      ((forall₂_form_iff cellForm_iff).mpr ⟨hvalid.whole, rfl⟩) hvalid.size
      (spells_iff.mpr ⟨by omega, rfl⟩) hlength
      ((forall₂_form_iff recordForm_iff).mpr ⟨hvalid.records, rfl⟩)
      (isDescending_iff.mp hvalid.descending) hnodup

end Image

end FlowSketch
