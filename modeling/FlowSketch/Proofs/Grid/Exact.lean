import FlowSketch.Proofs.Grid
import Mathlib.Algebra.BigOperators.Finsupp.Basic

/-!
# FlowSketch.Proofs.Grid.Exact

**Keys that do not collide are counted exactly.** A shape separates some keys if distinct ones have
distinct columns in every row (`Shape.Separates`). Each of these keys is then alone in its cells, so
no count ever arrives at the cell of another key, nothing is drawn, and the cells follow from the
counts alone: a grid shows the counts of some keys if every key's own cells hold its count, cut to
what a counter can hold, and all other cells are vacant (`Grid.Shows`).

Recording a key and merging two grids add counts up (`Shows.record`, `Shows.merge`), estimates read
them back (`Shows.estimate`), and two grids that show the same counts are the same grid
(`Shows.unique`).
-/

namespace FlowSketch

/-- In every row of the shape distinct keys of the list land in distinct columns. -/
def Shape.Separates (shape : Shape) (keys : List Key) : Prop :=
  ∀ row, row < shape.depth → ∀ x ∈ keys, ∀ y ∈ keys, x ≠ y →
    (Place.locate shape.width x row).column ≠ (Place.locate shape.width y row).column

instance (shape : Shape) (keys : List Key) : Decidable (shape.Separates keys) :=
  inferInstanceAs (Decidable (∀ row, row < shape.depth → ∀ x ∈ keys, ∀ y ∈ keys, x ≠ y → _))

/-! ### The cell of a key that is alone -/

namespace Cell

/-- The cell of a key with a fingerprint whose count is `n` and that has no rival. -/
def held (fingerprint : UInt32) (n : Nat) : Cell :=
  if n = 0 then vacant else { fingerprint, counter := counterOf n }

variable {fingerprint : UInt32} {m n : Nat}

theorem held_of_ne_zero (h : n ≠ 0) : held fingerprint n = ⟨fingerprint, counterOf n⟩ :=
  if_neg h

@[simp] theorem isEmpty_held : (held fingerprint n).isEmpty = true ↔ n = 0 := by
  by_cases hn : n = 0
  · subst hn
    exact iff_of_true rfl rfl
  · rw [held_of_ne_zero hn, isEmpty_iff, counterOf_eq_zero_iff]

theorem isEmpty_held_eq_false (h : n ≠ 0) : (held fingerprint n).isEmpty = false :=
  Bool.eq_false_iff.mpr fun hempty => h (isEmpty_held.mp hempty)

/-- The key's own cell shows it its count. -/
theorem read_held (h : n ≠ 0) : (held fingerprint n).read fingerprint = .own (counterOf n) := by
  rw [read, if_neg (Bool.eq_false_iff.mp (isEmpty_held_eq_false h)), held_of_ne_zero h, if_pos rfl]

/-- A count that arrives is added, whatever the source of gaps says. -/
theorem receive_held {σ : Type} (gap : GapSource σ) (s : σ) (hm : m ≠ 0) :
    ((held fingerprint n).receive gap fingerprint (counterOf m) s).cell =
      held fingerprint (n + m) := by
  by_cases hn : n = 0
  · subst hn
    rw [Nat.zero_add, held_of_ne_zero hm]
    rfl
  · rw [receive, if_neg (Bool.eq_false_iff.mp (isEmpty_held_eq_false hn)), held_of_ne_zero hn,
      if_pos rfl, held_of_ne_zero (by omega)]
    exact congrArg (Cell.mk fingerprint) (saturatingSum_counterOf n m)

/-- The counts of one key add up in a merge. -/
theorem merge_held : (held fingerprint m).merge (held fingerprint n) = held fingerprint (m + n) := by
  by_cases hn : n = 0
  · subst hn
    rfl
  · rw [merge, if_neg (Bool.eq_false_iff.mp (isEmpty_held_eq_false hn))]
    by_cases hm : m = 0
    · subst hm
      rw [Nat.zero_add]
      rfl
    · rw [if_neg (Bool.eq_false_iff.mp (isEmpty_held_eq_false hm)), held_of_ne_zero hm,
        held_of_ne_zero hn, if_pos rfl, held_of_ne_zero (by omega)]
      exact congrArg (Cell.mk fingerprint) (saturatingSum_counterOf m n)

end Cell

namespace Grid

/-! ### Readings that all say one thing -/

/-- The least of counts that are all the same. -/
theorem leastCount_replicate {depth : Nat} (hdepth : depth ≠ 0) (counter : UInt32) :
    leastCount (List.replicate depth (.own counter)) = counter.toUInt64 := by
  have hcounts : (List.replicate depth (Reading.own counter)).filterMap Reading.count? =
      List.replicate depth counter := List.filterMap_replicate_of_some rfl
  rw [leastCount, Reading.least?, hcounts, List.min?_replicate_of_pos (Nat.pos_of_ne_zero hdepth)]
  rfl

theorem estimateOf_own {depth : Nat} (hdepth : depth ≠ 0) (counter : UInt32) :
    estimateOf (List.replicate depth (.own counter)) = counter.toUInt64 := by
  rw [estimateOf, if_neg, leastCount_replicate hdepth]
  simp

theorem estimateOf_vacant {depth : Nat} (hdepth : depth ≠ 0) :
    estimateOf (List.replicate depth .vacant) = 0 := by
  rw [estimateOf, if_pos]
  simp [hdepth]

/-! ### Grids that show counts -/

/-- Keys have the same places in all grids of one shape. -/
theorem locate_of_shape {g g' : Grid} (h : g.toShape = g'.toShape) : g.locate = g'.locate := by
  funext key row
  rw [locate, h]
  rfl

/-- Each of the keys has its own cell in every row, which holds its count, and there are no other
counts. -/
structure Shows (g : Grid) (keys : List Key) (W : Key →₀ ℕ) : Prop where
  own : ∀ key ∈ keys, ∀ row, row < g.depth → g.cell? row (g.locate key row).column =
    some (.held (g.locate key row).fingerprint (W key))
  others : ∀ row column, row < g.depth → column < g.width →
    (∀ key ∈ keys, (g.locate key row).column ≠ column) → g.cell? row column = some .vacant

theorem shows_empty {shape : Shape} (hwidth : shape.width ≠ 0) (keys : List Key) :
    (empty shape).Shows keys 0 := by
  have hvacant : ∀ row column, row < shape.depth → column < shape.width →
      (empty shape).cell? row column = some .vacant := by
    intro row column hr hc
    obtain ⟨c, hcell⟩ := (sound_empty shape).exists_cell hr hc
    rw [hcell, eq_vacant_of_replicate rfl hcell]
  exact ⟨fun key _ row hr => hvacant row _ hr (locate_column_lt hwidth key row),
    fun row column hr hc _ => hvacant row column hr hc⟩

namespace Shows

variable {g g' : Grid} {keys : List Key} {V W : Key →₀ ℕ} {key : Key} {n row : Nat}

/-! ### Estimates -/

theorem reading (h : g.Shows keys W) (hkey : key ∈ keys) (hr : row < g.depth) :
    g.reading key row = if W key = 0 then .vacant else .own (Cell.counterOf (W key)) := by
  rw [Grid.reading, h.own key hkey row hr, Option.getD_some]
  split
  · rename_i hzero
    rw [hzero]
    rfl
  · rename_i hne
    exact Cell.read_held hne

/-- The estimate of a key is its count, cut to what a cell can hold. -/
theorem estimate (h : g.Shows keys W) (hdepth : g.depth ≠ 0) (hkey : key ∈ keys) :
    g.estimate key = (Cell.counterOf (W key)).toUInt64 := by
  have hreadings : g.readings key = List.replicate g.depth
      (if W key = 0 then .vacant else .own (Cell.counterOf (W key))) := by
    refine List.eq_replicate_iff.mpr ⟨by simp [readings], ?_⟩
    intro reading hmem
    obtain ⟨row, hrow, rfl⟩ := List.mem_map.mp hmem
    exact h.reading hkey (List.mem_range.mp hrow)
  rw [Grid.estimate, hreadings]
  split
  · rename_i hzero
    rw [estimateOf_vacant hdepth, hzero]
    rfl
  · exact estimateOf_own hdepth _

/-- A grid without counts shows none. -/
theorem eq_zero_of_isEmpty (h : g.Shows keys W) (hdepth : g.depth ≠ 0) (hempty : g.isEmpty = true)
    (hkey : key ∈ keys) : W key = 0 := by
  have hcell := h.own key hkey 0 (Nat.pos_of_ne_zero hdepth)
  have hall := Array.all_eq_true_iff_forall_mem.mp hempty _ (Array.mem_of_getElem? hcell)
  exact Cell.isEmpty_held.mp hall

/-! ### Recording -/

/-- The key's own cell receives its count. -/
theorem receivedAt_eq {σ : Type} (h : g.Shows keys W) (gap : GapSource σ) (hkey : key ∈ keys)
    (hn : n ≠ 0) (hr : row < g.depth) (s : σ) :
    receivedAt gap key (Cell.counterOf n) g row s =
      .held (g.locate key row).fingerprint (W key + n) := by
  rw [receivedAt, h.own key hkey row hr, Option.getD_some]
  exact Cell.receive_held gap s hn

theorem record {σ : Type} (h : g.Shows keys W) (hsound : g.Sound)
    (hseparates : g.toShape.Separates keys) (gap : GapSource σ) (hkey : key ∈ keys) (hn : n ≠ 0)
    (s : σ) :
    (g.record gap key (Cell.counterOf n) s).grid.Shows keys (W + Finsupp.single key n) := by
  obtain ⟨states, -, hcells⟩ := recordRows_spec gap key (Cell.counterOf n) List.nodup_range g
    hsound.size s
  have hshape : (g.record gap key (Cell.counterOf n) s).grid.toShape = g.toShape :=
    toShape_recordRows ..
  change ∀ row column, column < g.width →
    (g.record gap key (Cell.counterOf n) s).grid.cell? row column = _ at hcells
  generalize (g.record gap key (Cell.counterOf n) s).grid = after at hshape hcells ⊢
  have hlocate : after.locate = g.locate := locate_of_shape hshape
  refine ⟨?_, ?_⟩
  · intro x hx row hr
    rw [hshape] at hr
    have hcell := h.own x hx row hr
    rw [hlocate, hcells row _ (locate_column_lt (hsound.width_ne_zero hcell) x row), hcell,
      Finsupp.add_apply]
    by_cases heq : x = key
    · subst heq
      rw [if_pos ⟨List.mem_range.mpr hr, rfl⟩, Option.map_some, h.receivedAt_eq gap hkey hn hr,
        Finsupp.single_eq_same]
    · -- the key that was recorded is in another column of the row
      rw [if_neg fun hplace => hseparates row hr x hx key hkey heq hplace.2,
        Finsupp.single_eq_of_ne heq, add_zero]
  · intro row column hr hc hnone
    rw [hshape] at hr hc
    rw [hlocate] at hnone
    rw [hcells row column hc, if_neg fun hplace => hnone key hkey hplace.2.symm]
    exact h.others row column hr hc hnone

/-- What a recording reads back is the new count, cut to what a cell can hold. -/
theorem leastCount_record {σ : Type} (h : g.Shows keys W) (hsound : g.Sound)
    (hdepth : g.depth ≠ 0) (gap : GapSource σ) (hkey : key ∈ keys) (hn : n ≠ 0) (s : σ) :
    leastCount (g.record gap key (Cell.counterOf n) s).readings =
      (Cell.counterOf (W key + n)).toUInt64 := by
  obtain ⟨states, hreadings, -⟩ := recordRows_spec gap key (Cell.counterOf n) List.nodup_range g
    hsound.size s
  have hsame : (g.record gap key (Cell.counterOf n) s).readings =
      List.replicate g.depth (.own (Cell.counterOf (W key + n))) := by
    rw [Grid.record, hreadings]
    refine List.eq_replicate_iff.mpr ⟨by simp, ?_⟩
    intro reading hmem
    obtain ⟨row, hrow, rfl⟩ := List.mem_map.mp hmem
    rw [h.receivedAt_eq gap hkey hn (List.mem_range.mp hrow)]
    exact Cell.read_held (by omega)
  rw [hsame, leastCount_replicate hdepth]

/-! ### Merging -/

theorem merge (h : g.Shows keys V) (h' : g'.Shows keys W) (hshape : g.toShape = g'.toShape) :
    (g.merge g').Shows keys (V + W) := by
  have hlocate : g'.locate = g.locate := locate_of_shape hshape.symm
  refine ⟨?_, ?_⟩
  · intro x hx row hr
    have htheirs := h'.own x hx row (hshape ▸ hr)
    rw [hlocate] at htheirs
    rw [Finsupp.add_apply, ← Cell.merge_held]
    exact cell?_merge_of hshape (h.own x hx row hr) htheirs
  · intro row column hr hc hnone
    exact cell?_merge_of hshape (h.others row column hr hc hnone)
      (h'.others row column (hshape ▸ hr) (hshape ▸ hc) (hlocate ▸ hnone))

/-! ### Uniqueness -/

/-- Counts leave no choice for the cells. -/
theorem unique (h : g.Shows keys W) (h' : g'.Shows keys W) (hsound : g.Sound) (hsound' : g'.Sound)
    (hshape : g.toShape = g'.toShape) : g = g' := by
  have hlocate : g'.locate = g.locate := locate_of_shape hshape.symm
  refine hsound.ext hsound' hshape fun row column hr hc => ?_
  by_cases hown : ∃ key ∈ keys, (g.locate key row).column = column
  · obtain ⟨key, hkey, rfl⟩ := hown
    have htheirs := h'.own key hkey row (hshape ▸ hr)
    rw [hlocate] at htheirs
    rw [h.own key hkey row hr, htheirs]
  · have hnone : ∀ key ∈ keys, (g.locate key row).column ≠ column :=
      fun key hkey heq => hown ⟨key, hkey, heq⟩
    rw [h.others row column hr hc hnone,
      h'.others row column (hshape ▸ hr) (hshape ▸ hc) (hlocate ▸ hnone)]

end Shows

end Grid

end FlowSketch
