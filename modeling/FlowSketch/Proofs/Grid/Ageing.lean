import FlowSketch.Proofs.Binary64.Scaling
import FlowSketch.Proofs.Grid.Bound

/-!
# FlowSketch.Proofs.Grid.Ageing

**The estimate of a key scales with its counts, unless another key makes room.** A scaling that
raises no count and swaps no two of them takes the least count of a key to the least count of the
scaled cells. So the estimate of a scaled grid is the scaled estimate, as long as all places of the
key are still taken (`estimate_attenuate`). A place that the key owns is: its count is no smaller
than the estimate. A place that another key holds may be given up (`Vacates`), and an empty place
reads as an estimate of zero, whatever the key's own cells say.

For an estimate not to rise it is enough that no counter does, in whatever order the scaling puts
them and whatever the cells hold (`estimate_attenuate_le`). A place whose count comes to nothing
leaves the minimum, but it takes the whole estimate with it, so no larger count can step in.
-/

namespace FlowSketch

/-- A scaling raises no count and swaps no two counts that a cell can hold. -/
structure Shrinks (scale : UInt64 → UInt64) : Prop where
  le : ∀ v, scale v ≤ v
  mono : ∀ {v w : UInt64}, v ≤ w → w.toNat < 2 ^ 32 → scale v ≤ scale w

theorem shrinks_decay : Shrinks (Numerics.scaleWord (1.0 / decayBase)) where
  le := Binary64.scaleWord_decay_le
  mono := Binary64.scaleWord_decay_mono

variable {scale : UInt64 → UInt64}

/-- What does not come to nothing was something. -/
theorem Shrinks.ne_zero (hscale : Shrinks scale) {v : UInt64} (h : scale v ≠ 0) : v ≠ 0 := by
  rintro rfl
  exact h (UInt64.le_zero_iff.mp (hscale.le 0))

/-! ### Counters -/

/-- A counter under such a scaling fits without being cut. -/
theorem Shrinks.toUInt64_scaleCounter (hscale : Shrinks scale) (counter : UInt32) :
    (Cell.scaleCounter scale counter).toUInt64 = scale counter.toUInt64 := by
  have hle : (scale counter.toUInt64).toNat ≤ counter.toNat := by
    have h := UInt64.le_iff_toNat_le.mp (hscale.le counter.toUInt64)
    rwa [UInt32.toNat_toUInt64] at h
  have hlt := counter.toNat_lt
  rw [← UInt64.toNat_inj, UInt32.toNat_toUInt64, Cell.scaleCounter,
    UInt32.toNat_ofNat_of_lt' (by show _ < 2 ^ 32; omega)]
  omega

theorem Shrinks.scaleCounter_le_scaleCounter (hscale : Shrinks scale) {m n : UInt32} (h : m ≤ n) :
    Cell.scaleCounter scale m ≤ Cell.scaleCounter scale n := by
  have hfits : n.toUInt64.toNat < 2 ^ 32 := by
    rw [UInt32.toNat_toUInt64]
    exact n.toNat_lt
  have hscaled := hscale.mono (UInt32.toUInt64_le.mpr h) hfits
  rw [← hscale.toUInt64_scaleCounter, ← hscale.toUInt64_scaleCounter] at hscaled
  exact UInt32.toUInt64_le.mp hscaled

/-! ### Readings -/

theorem Reading.count?_eq_some {reading : Reading} {n : UInt32} :
    reading.count? = some n ↔ reading = .own n := by
  cases reading <;> simp [Reading.count?]

/-- Scaling does not fill an empty cell. -/
theorem Cell.read_attenuate_vacant {c : Cell} {fingerprint : UInt32}
    (h : c.read fingerprint = .vacant) : (c.attenuate scale).read fingerprint = .vacant := by
  cases hempty : c.isEmpty with
  | true => rw [attenuate, if_pos hempty, h]
  | false =>
      by_cases hown : c.fingerprint = fingerprint
      · simp [read, hempty, hown] at h
      · simp [read, hempty, hown] at h

/-- A cell that is not emptied shows the scaled count to its owner, and nothing to other keys. -/
theorem Cell.count?_read_attenuate {c : Cell} {fingerprint : UInt32}
    (h : (c.attenuate scale).read fingerprint ≠ .vacant) :
    ((c.attenuate scale).read fingerprint).count? =
      (c.read fingerprint).count?.map (scaleCounter scale) := by
  unfold Cell.attenuate at h ⊢
  cases hempty : c.isEmpty with
  | true => simp [Cell.read, hempty] at h
  | false =>
      by_cases hzero : scaleCounter scale c.counter = 0
      · simp [Cell.read, hempty, hzero] at h
      · by_cases hown : c.fingerprint = fingerprint
        · simp [Cell.read, Cell.isEmpty, hzero, hown, Reading.count?, Cell.counter_ne_zero hempty]
        · simp [Cell.read, Cell.isEmpty, hzero, hown, Reading.count?, Cell.counter_ne_zero hempty]

/-- An own cell is emptied only if its count comes to nothing. -/
theorem Cell.read_attenuate_own {c : Cell} {fingerprint n : UInt32}
    (hown : c.read fingerprint = .own n) (hn : scaleCounter scale n ≠ 0) :
    (c.attenuate scale).read fingerprint ≠ .vacant := by
  obtain ⟨hempty, rfl, rfl⟩ := Cell.count?_read.mp (congrArg Reading.count? hown)
  simp [Cell.attenuate, Cell.read, Cell.isEmpty, hn, Cell.counter_ne_zero hempty]

/-- The least count of scaled counts is the scaled least count. -/
theorem Shrinks.min?_map (hscale : Shrinks scale) (counts : List UInt32) :
    (counts.map (Cell.scaleCounter scale)).min? = counts.min?.map (Cell.scaleCounter scale) := by
  cases hleast : counts.min? with
  | none =>
      rw [List.min?_eq_none_iff.mp hleast]
      rfl
  | some n =>
      obtain ⟨hmem, hle⟩ := List.min?_eq_some_iff.mp hleast
      refine List.min?_eq_some_iff.mpr ⟨List.mem_map_of_mem hmem, ?_⟩
      intro m hm
      obtain ⟨count, hcount, rfl⟩ := List.mem_map.mp hm
      exact hscale.scaleCounter_le_scaleCounter (hle count hcount)

namespace Grid

variable {g : Grid} {key : Key} {row : Nat}

/-- The cell at a key's place, vacant if the array does not reach that far. -/
def cellAt (g : Grid) (key : Key) (row : Nat) : Cell :=
  (g.cell? row (g.locate key row).column).getD .vacant

theorem reading_eq : g.reading key row = (g.cellAt key row).read (g.locate key row).fingerprint :=
  rfl

theorem cellAt_attenuate : (g.attenuate scale).cellAt key row = (g.cellAt key row).attenuate scale := by
  show ((g.attenuate scale).cell? row (g.locate key row).column).getD .vacant = _
  rw [cell?_attenuate, cellAt]
  cases g.cell? row (g.locate key row).column with
  | none => rfl
  | some c => rfl

/-- A scaling empties a place of the key that another key holds. -/
def Vacates (scale : UInt64 → UInt64) (g : Grid) (key : Key) : Prop :=
  ∃ row, row < g.depth ∧ g.reading key row = .foreign ∧
    (g.attenuate scale).reading key row = .vacant

instance (scale : UInt64 → UInt64) (g : Grid) (key : Key) : Decidable (g.Vacates scale key) :=
  inferInstanceAs (Decidable (∃ row, row < g.depth ∧ _))

/-- A key with an estimate finds every place taken. -/
theorem reading_ne_vacant (hestimate : g.estimate key ≠ 0) (hrow : row < g.depth) :
    g.reading key row ≠ .vacant := by
  intro hvacant
  have hmem : Reading.vacant ∈ g.readings key :=
    List.mem_map.mpr ⟨row, List.mem_range.mpr hrow, hvacant⟩
  apply hestimate
  rw [estimate, estimateOf, if_pos (List.any_eq_true.mpr ⟨.vacant, hmem, rfl⟩)]

/-- The estimate of a key is the least of what its own cells show, and one of them shows it. -/
theorem exists_least (hestimate : g.estimate key ≠ 0) :
    ∃ least : UInt32, Reading.least? (g.readings key) = some least ∧
      g.estimate key = least.toUInt64 ∧
      (∃ row, row < g.depth ∧ g.reading key row = .own least) ∧
      ∀ row n, row < g.depth → g.reading key row = .own n → least ≤ n := by
  unfold estimate estimateOf leastCount at hestimate ⊢
  split at hestimate
  · exact absurd rfl hestimate
  · rename_i hfull
    rw [if_neg hfull]
    cases hleast : Reading.least? (g.readings key) with
    | none =>
        rw [hleast] at hestimate
        exact absurd rfl hestimate
    | some least =>
        obtain ⟨hmem, hle⟩ := List.min?_eq_some_iff.mp hleast
        obtain ⟨reading, hreading, hcount⟩ := List.mem_filterMap.mp hmem
        obtain ⟨row, hrow, rfl⟩ := List.mem_map.mp hreading
        refine ⟨least, rfl, rfl,
          ⟨row, List.mem_range.mp hrow, Reading.count?_eq_some.mp hcount⟩, ?_⟩
        intro row n hrow hown
        have hreading : Reading.own n ∈ g.readings key :=
          List.mem_map.mpr ⟨row, List.mem_range.mpr hrow, hown⟩
        exact hle n (List.mem_filterMap.mpr ⟨_, hreading, rfl⟩)

/-- A key all of whose places are taken has the least count of its own cells as estimate. -/
theorem estimate_of_taken (h : ∀ row, row < g.depth → g.reading key row ≠ .vacant) :
    g.estimate key = leastCount (g.readings key) := by
  rw [estimate, estimateOf, if_neg]
  intro hany
  obtain ⟨reading, hmem, hvacant⟩ := List.any_eq_true.mp hany
  obtain ⟨row, hrow, rfl⟩ := List.mem_map.mp hmem
  exact h row (List.mem_range.mp hrow) (beq_iff_eq.mp hvacant)

/-- What is no larger than any own count of a key is no larger than its estimate, if all places are
taken and some of them are its own. -/
theorem le_estimate {v : UInt32} (htaken : ∀ row, row < g.depth → g.reading key row ≠ .vacant)
    (hown : ∃ row n, row < g.depth ∧ g.reading key row = .own n)
    (hle : ∀ row n, row < g.depth → g.reading key row = .own n → v ≤ n) :
    v.toUInt64 ≤ g.estimate key := by
  obtain ⟨row, n, hrow, hreading⟩ := hown
  have hmem : n ∈ (g.readings key).filterMap Reading.count? :=
    List.mem_filterMap.mpr ⟨_, List.mem_map.mpr ⟨row, List.mem_range.mpr hrow, rfl⟩,
      Reading.count?_eq_some.mpr hreading⟩
  rw [estimate_of_taken htaken, leastCount, Reading.least?]
  cases hleast : ((g.readings key).filterMap Reading.count?).min? with
  | none =>
      rw [List.min?_eq_none_iff.mp hleast] at hmem
      cases hmem
  | some least =>
      obtain ⟨reading, hmemLeast, hcount⟩ := List.mem_filterMap.mp (List.min?_mem hleast)
      obtain ⟨place, hplace, rfl⟩ := List.mem_map.mp hmemLeast
      exact UInt32.toUInt64_le.mpr
        (hle place least (List.mem_range.mp hplace) (Reading.count?_eq_some.mp hcount))

/-- When a place that another key holds is given up, the key is not estimated any more. -/
theorem estimate_attenuate_of_vacates (h : g.Vacates scale key) :
    (g.attenuate scale).estimate key = 0 := by
  obtain ⟨row, hrow, -, hvacant⟩ := h
  by_contra hestimate
  exact reading_ne_vacant hestimate hrow hvacant

/-- No place is given up if none that another key holds is: own counts are at least the estimate. -/
theorem reading_attenuate_ne_vacant (hscale : Shrinks scale)
    (hestimate : scale (g.estimate key) ≠ 0) (h : ¬ g.Vacates scale key) (hrow : row < g.depth) :
    (g.attenuate scale).reading key row ≠ .vacant := by
  have hpositive := hscale.ne_zero hestimate
  obtain ⟨least, -, hleast, -, hle⟩ := exists_least hpositive
  intro hvacant
  cases hreading : g.reading key row with
  | vacant => exact reading_ne_vacant hpositive hrow hreading
  | foreign => exact h ⟨row, hrow, hreading, hvacant⟩
  | own n =>
      have hscaled := hscale.scaleCounter_le_scaleCounter (hle row n hrow hreading)
      have hn : Cell.scaleCounter scale n ≠ 0 := by
        intro hzero
        rw [hzero] at hscaled
        rw [hleast, ← hscale.toUInt64_scaleCounter, UInt32.le_zero_iff.mp hscaled] at hestimate
        exact hestimate rfl
      rw [reading_eq, cellAt_attenuate] at hvacant
      exact Cell.read_attenuate_own hreading hn hvacant

/-- Where no place is given up, the least count that a key's cells show is scaled. -/
theorem least?_attenuate (hscale : Shrinks scale)
    (htaken : ∀ row, row < g.depth → (g.attenuate scale).reading key row ≠ .vacant) :
    Reading.least? ((g.attenuate scale).readings key) =
      (Reading.least? (g.readings key)).map (Cell.scaleCounter scale) := by
  have hcounts : ((g.attenuate scale).readings key).filterMap Reading.count? =
      ((g.readings key).filterMap Reading.count?).map (Cell.scaleCounter scale) := by
    rw [readings, readings, List.filterMap_map, List.filterMap_map, List.map_filterMap]
    apply List.filterMap_congr
    intro row hrow
    have hfull := htaken row (List.mem_range.mp hrow)
    rw [reading_eq, cellAt_attenuate] at hfull
    show ((g.attenuate scale).reading key row).count? = _
    rw [reading_eq, cellAt_attenuate]
    exact Cell.count?_read_attenuate hfull
  rw [Reading.least?, hcounts, hscale.min?_map]
  rfl

/-- As long as no place that another key holds is given up, the estimate of a key is scaled like a
count. -/
theorem estimate_attenuate (hscale : Shrinks scale) (hestimate : scale (g.estimate key) ≠ 0)
    (h : ¬ g.Vacates scale key) :
    (g.attenuate scale).estimate key = scale (g.estimate key) := by
  obtain ⟨least, hsome, hleast, -, -⟩ := exists_least (hscale.ne_zero hestimate)
  have htaken : ∀ row, row < g.depth → (g.attenuate scale).reading key row ≠ .vacant :=
    fun _ hrow => reading_attenuate_ne_vacant hscale hestimate h hrow
  rw [estimate_of_taken htaken, leastCount, least?_attenuate hscale htaken, hsome, hleast,
    ← hscale.toUInt64_scaleCounter]
  rfl

/-! ### No estimate rises -/

/-- Where a scaled place is still taken, it is the key's own exactly if it was so before, and then
with the count scaled. -/
theorem reading_attenuate_eq_own {n : UInt32}
    (h : (g.attenuate scale).reading key row ≠ .vacant) :
    (g.attenuate scale).reading key row = .own n ↔
      ∃ before, g.reading key row = .own before ∧ Cell.scaleCounter scale before = n := by
  have hcount : ((g.attenuate scale).reading key row).count? =
      (g.reading key row).count?.map (Cell.scaleCounter scale) := by
    rw [reading_eq, cellAt_attenuate] at h ⊢
    exact Cell.count?_read_attenuate h
  rw [← Reading.count?_eq_some, hcount, Option.map_eq_some_iff]
  simp only [Reading.count?_eq_some]

/-- Scaling that raises no counter raises no estimate. -/
theorem estimate_attenuate_le (hscale : ∀ n : UInt32, scale n.toUInt64 ≤ n.toUInt64) (g : Grid)
    (key : Key) : (g.attenuate scale).estimate key ≤ g.estimate key := by
  by_cases hzero : (g.attenuate scale).estimate key = 0
  · rw [hzero]
    exact UInt64.zero_le
  · -- every place is still taken, so the same places were the key's own before
    have htaken : ∀ row, row < g.depth → (g.attenuate scale).reading key row ≠ .vacant :=
      fun _ hrow => reading_ne_vacant hzero hrow
    obtain ⟨least, -, hleast, ⟨place, hplace, hown⟩, hle⟩ := exists_least hzero
    rw [hleast]
    refine le_estimate ?_ ?_ ?_
    · intro row hrow hvacant
      refine htaken row hrow ?_
      rw [reading_eq, cellAt_attenuate]
      exact Cell.read_attenuate_vacant hvacant
    · obtain ⟨before, hbefore, -⟩ := (reading_attenuate_eq_own (htaken place hplace)).mp hown
      exact ⟨place, before, hplace, hbefore⟩
    · intro row n hrow hreading
      have hafter := (reading_attenuate_eq_own (htaken row hrow)).mpr ⟨n, hreading, rfl⟩
      exact UInt32.le_trans (hle row _ hrow hafter)
        (UInt32.le_iff_toNat_le.mpr (Cell.toNat_scaleCounter_le (hscale n)))

end Grid

end FlowSketch
