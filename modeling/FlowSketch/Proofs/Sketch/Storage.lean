import FlowSketch.Proofs.Sketch.Reachable
import Mathlib.Tactic.TFAE

/-!
# FlowSketch.Proofs.Sketch.Storage

**How a sketch is stored, whatever its keys hash to.** The hash function and the random stream are
fixed parts of a sketch, but nothing about its storage rests on them. `Stored` forgets both: it lets
a count arrive at any place that two hash words can name, be settled by any source of gaps, and
leaves the order of all writes open. Each of the writers keeps the grid at the size of its shape, the
shape at what the parameters ask for, and an owner with every count and with no other cell
(`Stored.sound`), and every reachable sketch is stored in this sense (`Reachable.stored`).

It follows that two reachable sketches are merged exactly if their parameters are equal, in either
direction: the shapes that a merge compares too are derived from the parameters.
-/

namespace FlowSketch

namespace Grid

variable {g : Grid} {row column : Nat}

/-- A cell that is written whole leaves a grid sound. -/
theorem Sound.setCell (hg : g.Sound) {c : Cell} (hc : c.Whole) :
    (g.setCell row column c).Sound where
  size := (size_setCell g row column c).trans hg.size
  whole := by
    intro other hother
    rw [Grid.setCell, Array.toList_setIfInBounds] at hother
    rcases List.mem_or_eq_of_mem_set hother with hold | rfl
    · exact hg.whole other hold
    · exact hc

/-- What is read at any place of a sound grid is whole, also outside of the grid. -/
theorem Sound.whole_getD (hg : g.Sound) (row column : Nat) :
    ((g.cell? row column).getD .vacant).Whole := by
  cases hcell : g.cell? row column with
  | none => exact Cell.whole_vacant
  | some c => exact hg.whole_cell hcell

/-- A count arrives in a row, at the column and with the fingerprint that two hash words name. -/
def receiveAt {σ : Type} (gap : GapSource σ) (increment : UInt32) (g : Grid) (s : σ) (row : Nat)
    (columnHash fingerprintHash : UInt64) : Grid :=
  let column := Place.columnOf g.width columnHash
  g.setCell row column (((g.cell? row column).getD .vacant).receive gap
    (Place.fingerprintOf fingerprintHash) increment s).cell

theorem Sound.receiveAt {σ : Type} (hg : g.Sound) (gap : GapSource σ) {increment : UInt32}
    (hinc : increment ≠ 0) (s : σ) (row : Nat) (columnHash fingerprintHash : UInt64) :
    (g.receiveAt gap increment s row columnHash fingerprintHash).Sound := by
  have hbefore := hg.whole_getD row (Place.columnOf g.width columnHash)
  exact hg.setCell ((Cell.change_receive gap _ _ increment s).whole hbefore
    (Place.fingerprintOf_ne_zero fingerprintHash) hinc)

end Grid

namespace Sketch

variable {num : Numerics} {accuracy : Accuracy} {g : Grid}

/-! ### Writers -/

/-- The parameters and grids that sketches come to if hash results, random draws and scalings are
free. There is one constructor for each writer of cells. -/
inductive Stored (num : Numerics) : Accuracy → Grid → Prop where
  | create {accuracy : Accuracy} {shape : Shape} :
      accuracy.shape num = .ok shape → Stored num accuracy (.empty shape)
  | receive {accuracy : Accuracy} {g : Grid} {σ : Type} (gap : GapSource σ) {increment : UInt32}
      (s : σ) (row : Nat) (columnHash fingerprintHash : UInt64) : increment ≠ 0 →
      Stored num accuracy g →
      Stored num accuracy (g.receiveAt gap increment s row columnHash fingerprintHash)
  | attenuate {accuracy : Accuracy} {g : Grid} (scale : UInt64 → UInt64) :
      Stored num accuracy g → Stored num accuracy (g.attenuate scale)
  | merge {accuracy accuracy' : Accuracy} {mine theirs : Grid} : Stored num accuracy mine →
      Stored num accuracy' theirs →
      Configuration.agrees ⟨accuracy, mine.toShape⟩ ⟨accuracy', theirs.toShape⟩ = true →
      Stored num accuracy (mine.merge theirs)
  | clear {accuracy : Accuracy} {g : Grid} : Stored num accuracy g → Stored num accuracy g.clear
  | decode {bytes : List UInt8} {image : Image} :
      Image.decode num bytes = .ok image → Stored num image.accuracy image.grid

/-- No writer breaks the storage: the parameters ask for the shape of the grid, and the grid is
sound. -/
theorem Stored.sound (h : Stored num accuracy g) :
    accuracy.shape num = .ok g.toShape ∧ g.Sound := by
  induction h with
  | create hshape => exact ⟨hshape, Grid.sound_empty _⟩
  | receive gap s row columnHash fingerprintHash hinc _ ih =>
      exact ⟨ih.1, ih.2.receiveAt gap hinc s row columnHash fingerprintHash⟩
  | attenuate scale _ ih => exact ⟨ih.1, ih.2.attenuate scale⟩
  | merge _ _ hagrees ihmine ihtheirs =>
      simp only [Configuration.agrees, Bool.and_eq_true] at hagrees
      exact ⟨ihmine.1, ihmine.2.merge ihtheirs.2 (beq_iff_eq.mp hagrees.2)⟩
  | clear _ ih => exact ⟨ih.1, ih.2.clear⟩
  | decode hdecode =>
      obtain ⟨hvalid, -⟩ := Image.decode_eq_ok.mp hdecode
      exact ⟨hvalid.shape, hvalid.size, hvalid.whole⟩

/-! ### Runs -/

/-- A recording lets its count arrive row by row, at the hashes of its key. -/
theorem Stored.recordRows {σ : Type} (gap : GapSource σ) (key : Key) {increment : UInt32}
    (hinc : increment ≠ 0) (rows : List Nat) (h : Stored num accuracy g) (s : σ) :
    Stored num accuracy (g.recordRows gap key increment rows s).grid := by
  induction rows generalizing g s with
  | nil => exact h
  | cons row rest ih =>
      have hfirst : Stored num accuracy (g.recordRow gap key increment s row).grid :=
        .receive gap s row (Hash.digest key.toArray (Place.columnSeed (UInt64.ofNat row)))
          (Hash.digest key.toArray (Place.fingerprintSeed (UInt64.ofNat row))) hinc h
      exact ih hfirst _

variable {s : Sketch}

theorem Stored.add (h : Stored num s.accuracy s.grid) (key : Key) (count : UInt64) :
    Stored num (s.add num key count).accuracy (s.add num key count).grid := by
  by_cases hzero : count = 0
  · rw [Sketch.add, if_pos hzero]
    exact h
  · rw [add_of_ne_zero key hzero]
    exact h.recordRows (num.gap decayBase) key (increment_ne_zero hzero) _ s.random

theorem Stored.updateBatch (h : Stored num s.accuracy s.grid) (keys : List Key) :
    Stored num (s.updateBatch num keys).accuracy (s.updateBatch num keys).grid := by
  unfold Sketch.updateBatch
  induction keys generalizing s with
  | nil => exact h
  | cons key rest ih => exact ih (h.add key 1)

/-- Every reachable sketch is stored. -/
theorem Reachable.stored (h : Reachable num s) : Stored num s.accuracy s.grid := by
  induction h with
  | create h =>
      obtain ⟨shape, hshape, rfl⟩ := create_eq_ok.mp h
      exact .create hshape
  | add key count _ ih => exact ih.add key count
  | update key _ ih => exact ih.add key 1
  | updateBatch keys _ ih => exact ih.updateBatch keys
  | decay _ ih => exact .attenuate _ ih
  | merge _ _ h ihmine ihtheirs =>
      obtain ⟨hagrees, ⟨-, rfl⟩ | ⟨-, rfl⟩⟩ := merge_eq_ok h
      · exact ihmine
      · exact .merge ihmine ihtheirs hagrees
  | clear _ ih => exact .clear ih
  | ofBytes h =>
      obtain ⟨image, board, hvalid, rfl, -, rfl⟩ := ofBytes_eq_ok.mp h
      exact .decode (Image.decode_eq_ok.mpr ⟨hvalid, rfl⟩)

/-- Sketches are merged if and only if their configurations agree. -/
theorem exists_merge_iff {mine theirs : Sketch} :
    (∃ s, mine.merge theirs = .ok s) ↔ mine.configuration.agrees theirs.configuration = true := by
  constructor
  · intro h
    obtain ⟨s, hs⟩ := h
    exact (merge_eq_ok hs).1
  · exact fun hagrees => ⟨_, merge_of_agrees hagrees⟩

/-- Sound sketches are merged if and only if they have one accuracy. -/
theorem Sound.exists_merge_iff {mine theirs : Sketch} (hmine : mine.Sound num)
    (htheirs : theirs.Sound num) :
    (∃ s, mine.merge theirs = .ok s) ↔ mine.accuracy = theirs.accuracy := by
  rw [Sketch.exists_merge_iff]
  exact ⟨fun h => (hmine.configuration_eq htheirs h).1, fun h => (hmine.agrees htheirs h).2⟩

/-- Every reachable sketch is stored. However its keys hash and its draws fall, a stored grid has as
many cells as its rows and columns make, the rows and columns are those that its own parameters ask
for, and a cell has an owner if and only if it has a count. Therefore one of two reachable sketches
takes in the other if and only if their parameters are equal, as numbers or bit by bit. -/
theorem reachable_storage (num : Numerics) :
    (∀ s, Reachable num s → Stored num s.accuracy s.grid) ∧
    (∀ accuracy g, Stored num accuracy g →
      g.cells.size = g.depth * g.width ∧ accuracy.shape num = .ok g.toShape ∧
        ∀ c ∈ g.cells, c.fingerprint = 0 ↔ c.counter = 0) ∧
    ∀ mine theirs, Reachable num mine → Reachable num theirs →
      [∃ s, mine.merge theirs = .ok s,
        ∃ s, theirs.merge mine = .ok s,
        mine.accuracy.k = theirs.accuracy.k ∧
          (mine.accuracy.epsilon == theirs.accuracy.epsilon) = true ∧
          (mine.accuracy.delta == theirs.accuracy.delta) = true,
        mine.accuracy = theirs.accuracy].TFAE := by
  refine ⟨fun s hs => hs.stored, ?_, ?_⟩
  · intro accuracy g h
    obtain ⟨hshape, hsound⟩ := h.sound
    exact ⟨hsound.size, hshape, fun c hc => hsound.whole c (Array.mem_toList_iff.mpr hc)⟩
  · intro mine theirs hmine htheirs
    tfae_have 1 ↔ 4 := hmine.sound.exists_merge_iff htheirs.sound
    tfae_have 2 ↔ 4 := (htheirs.sound.exists_merge_iff hmine.sound).trans eq_comm
    tfae_have 4 → 3 := by
      intro h
      obtain ⟨-, hagrees⟩ := hmine.sound.agrees htheirs.sound h
      simp only [Configuration.agrees, Bool.and_eq_true] at hagrees
      exact ⟨beq_iff_eq.mp hagrees.1.1.1, hagrees.1.1.2, hagrees.1.2⟩
    tfae_have 3 → 4 := by
      intro h
      obtain ⟨hk, hepsilon, hdelta⟩ := h
      exact hmine.sound.accuracy_eq htheirs.sound hk hepsilon hdelta
    tfae_finish

/-- A new sketch of one row of six cells that reports one key. -/
def oneKeySketch : Sketch :=
  ⟨⟨1, 0.5, 0.5⟩, .empty ⟨1, 6⟩, .empty 1, 0, .ofSeed 1⟩

theorem create_oneKeySketch : create halfNumerics ⟨1, 0.5, 0.5⟩ 1 = .ok oneKeySketch := rfl

/-- Grids of one shape are not enough for a merge. -/
theorem reachable_storage_tiedSketch :
    Reachable halfNumerics tiedSketch ∧ Reachable halfNumerics newSketch ∧
      Reachable halfNumerics oneKeySketch ∧
      Stored halfNumerics tiedSketch.accuracy tiedSketch.grid ∧
      tiedSketch.grid.cells.size = tiedSketch.grid.depth * tiedSketch.grid.width ∧
      (∃ s, tiedSketch.merge newSketch = .ok s) ∧ (∃ s, newSketch.merge tiedSketch = .ok s) ∧
      ¬ (∃ s, tiedSketch.merge oneKeySketch = .ok s) ∧
      ¬ ∃ s, oneKeySketch.merge tiedSketch = .ok s := by
  have hnew : Reachable halfNumerics newSketch := .create create_newSketch
  have hone : Reachable halfNumerics oneKeySketch := .create create_oneKeySketch
  obtain ⟨hreachable, hstored, hmerge⟩ := reachable_storage halfNumerics
  have htied := hreachable tiedSketch reachable_tiedSketch
  have hsame := hmerge tiedSketch newSketch reachable_tiedSketch hnew
  have hother := hmerge tiedSketch oneKeySketch reachable_tiedSketch hone
  have hne : tiedSketch.accuracy ≠ oneKeySketch.accuracy := by
    intro h
    have hk : 2 = 1 := congrArg Accuracy.k h
    cases hk
  exact ⟨reachable_tiedSketch, hnew, hone, htied, (hstored _ _ htied).1, (hsame.out 3 0).mp rfl,
    (hsame.out 3 1).mp rfl, fun h => hne ((hother.out 0 3).mp h),
    fun h => hne ((hother.out 1 3).mp h)⟩

end Sketch

end FlowSketch
