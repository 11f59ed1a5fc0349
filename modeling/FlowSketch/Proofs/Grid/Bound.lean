import FlowSketch.Proofs.Grid

/-!
# FlowSketch.Proofs.Grid.Bound

**Bounds on the counts of a grid.** A bound grants a count to every place of every row. A grid is
within a bound if every count is at most what is granted to the cell's owner at the cell's place
(`Grid.Within`). Recording a key raises the bound at the key's places by the increment, merging adds
the bounds up, and scaling needs no more than before.

Estimates are counts of cells (`exists_cell_of_estimate`), and so are the counts that a recording
reads back, so both are within the bound at one of the key's places.
-/

namespace FlowSketch.Grid

/-- A bound on the counts: what is granted to the owner of a place in a row. -/
abbrev Bound := Nat → Place → Nat

/-- Every count is at most what is granted to its owner. -/
def Within (g : Grid) (bound : Bound) : Prop :=
  ∀ row column c, row < g.depth → column < g.width → g.cell? row column = some c →
    c.Within fun fingerprint => bound row ⟨column, fingerprint⟩

variable {g : Grid} {bound bound' : Bound}

/-! ### Counts that are read -/

/-- A least count that is not zero is the count of one of the readings. -/
theorem exists_reading_of_leastCount {readings : List Reading} (h : leastCount readings ≠ 0) :
    ∃ reading ∈ readings, ∃ n, reading.count? = some n ∧ leastCount readings = n.toUInt64 := by
  unfold leastCount at h ⊢
  cases hleast : Reading.least? readings with
  | none =>
      rw [hleast] at h
      exact absurd rfl h
  | some n =>
      obtain ⟨reading, hmem, hcount⟩ := List.mem_filterMap.mp (List.min?_mem hleast)
      exact ⟨reading, hmem, n, hcount, rfl⟩

/-- An estimate that is not zero is the count of one of the key's own cells. -/
theorem exists_cell_of_estimate {key : Key} (h : g.estimate key ≠ 0) :
    ∃ row c, row < g.depth ∧ g.cell? row (g.locate key row).column = some c ∧
      c.isEmpty = false ∧ c.fingerprint = (g.locate key row).fingerprint ∧
      g.estimate key = c.counter.toUInt64 := by
  unfold estimate estimateOf at h ⊢
  split at h
  · exact absurd rfl h
  · rename_i hfull
    rw [if_neg hfull]
    obtain ⟨reading, hmem, n, hcount, hleast⟩ := exists_reading_of_leastCount h
    obtain ⟨row, hrow, rfl⟩ := List.mem_map.mp hmem
    obtain ⟨hempty, hown, rfl⟩ := Cell.count?_read.mp hcount
    cases hcell : g.cell? row (g.locate key row).column with
    | none =>
        rw [hcell] at hempty
        cases hempty
    | some c =>
        rw [hcell] at hempty hown hleast
        exact ⟨row, c, List.mem_range.mp hrow, hcell, hempty, hown, hleast⟩

/-- A grid of vacant cells estimates every key at zero. -/
theorem estimate_of_replicate {n : Nat} (h : g.cells = Array.replicate n .vacant) (key : Key) :
    g.estimate key = 0 := by
  by_contra hestimate
  obtain ⟨row, c, -, hcell, hempty, -⟩ := exists_cell_of_estimate hestimate
  rw [eq_vacant_of_replicate h hcell] at hempty
  cases hempty

/-! ### Bounds and operations -/

/-- A grid of vacant cells is within every bound. -/
theorem within_of_replicate {n : Nat} (h : g.cells = Array.replicate n .vacant) (bound : Bound) :
    g.Within bound := by
  intro row column c _ _ hc
  rw [eq_vacant_of_replicate h hc]
  exact Cell.within_vacant _

theorem Within.mono (hg : g.Within bound) (h : ∀ row place, bound row place ≤ bound' row place) :
    g.Within bound' :=
  fun row column c hr hc hcell => (hg row column c hr hc hcell).mono fun _ => h _ _

/-- The cell at a key's place is within the bound there, also if the rows have no cells. -/
theorem Within.cell_locate (hg : g.Within bound) (hsound : g.Sound) (key : Key) {row : Nat}
    (hr : row < g.depth) :
    ((g.cell? row (g.locate key row).column).getD .vacant).Within fun fingerprint =>
      bound row ⟨(g.locate key row).column, fingerprint⟩ := by
  cases hcell : g.cell? row (g.locate key row).column with
  | none => exact Cell.within_vacant _
  | some c =>
      exact hg row _ c hr (locate_column_lt (hsound.width_ne_zero hcell) key row) hcell

/-- Recording a key stays within a bound that grants the increment to the key's places. -/
theorem Within.record {σ : Type} (hg : g.Within bound) (hsound : g.Sound) (gap : GapSource σ)
    (key : Key) (increment : UInt32) (s : σ)
    (hle : ∀ row place, bound row place ≤ bound' row place)
    (hgrant : ∀ row, bound row (g.locate key row) + increment.toNat ≤
      bound' row (g.locate key row)) :
    (g.record gap key increment s).grid.Within bound' := by
  have hshape : (g.record gap key increment s).grid.toShape = g.toShape := toShape_recordRows ..
  intro row column after hr hc hafter
  rw [hshape] at hr hc
  obtain ⟨before, hbefore, heffect⟩ := hsound.cell?_record gap key increment s hr hc hafter
  have hwithin := hg row column before hr hc hbefore
  rcases heffect with rfl | ⟨rfl, outcome, hchange⟩
  · exact hwithin.mono fun f => hle _ _
  · exact hchange.within hwithin (fun f => hle _ _) (hgrant row)

/-- What a recording reads back is within the raised bound at one of the key's places. -/
theorem Within.leastCount_record {σ : Type} (hg : g.Within bound) (hsound : g.Sound)
    (gap : GapSource σ) (key : Key) (increment : UInt32) (s : σ)
    (hle : ∀ row place, bound row place ≤ bound' row place)
    (hgrant : ∀ row, bound row (g.locate key row) + increment.toNat ≤
      bound' row (g.locate key row))
    (hpos : leastCount (g.record gap key increment s).readings ≠ 0) :
    ∃ row, row < g.depth ∧ (leastCount (g.record gap key increment s).readings).toNat ≤
      bound' row (g.locate key row) := by
  obtain ⟨reading, hmem, n, hcount, hleast⟩ := exists_reading_of_leastCount hpos
  obtain ⟨row, outcome, after, hr, hchange, rfl⟩ :=
    hsound.readings_record gap key increment s hmem
  obtain ⟨hempty, hown, rfl⟩ := Cell.count?_read.mp hcount
  have hwithin := hchange.within (hg.cell_locate hsound key hr) (fun f => hle _ _) (hgrant row)
  have hbound := hwithin hempty
  rw [hown] at hbound
  refine ⟨row, hr, ?_⟩
  rw [hleast, UInt32.toNat_toUInt64]
  exact hbound

theorem Within.attenuate (hg : g.Within bound) {scale : UInt64 → UInt64}
    (hscale : ∀ v, scale v ≤ v) : (g.attenuate scale).Within bound := by
  intro row column c hr hc hcell
  rw [cell?_attenuate] at hcell
  obtain ⟨before, hbefore, rfl⟩ := Option.map_eq_some_iff.mp hcell
  exact (hg row column before hr hc hbefore).attenuate hscale

theorem Within.merge {mine theirs : Grid} (hmine : mine.Within bound)
    (htheirs : theirs.Within bound') (hshape : mine.toShape = theirs.toShape) :
    (mine.merge theirs).Within fun row place => bound row place + bound' row place := by
  intro row column c hr hc hcell
  obtain ⟨a, b, ha, hb, rfl⟩ := cell?_merge hshape hcell
  have hmine' := hmine row column a hr hc ha
  have htheirs' := htheirs row column b (hshape ▸ hr) (hshape ▸ hc) hb
  exact hmine'.merge htheirs'

/-- An estimate is within the bound at one of the key's places, unless it is zero. -/
theorem Within.estimate (hg : g.Within bound) (hsound : g.Sound) {key : Key}
    (h : g.estimate key ≠ 0) :
    ∃ row, row < g.depth ∧ (g.estimate key).toNat ≤ bound row (g.locate key row) := by
  obtain ⟨row, c, hr, hcell, hempty, hown, hestimate⟩ := exists_cell_of_estimate h
  have hbound := hg.cell_locate hsound key hr
  rw [hcell] at hbound
  have hcount := hbound hempty
  change c.counter.toNat ≤ bound row ⟨_, c.fingerprint⟩ at hcount
  rw [hown] at hcount
  refine ⟨row, hr, ?_⟩
  rw [hestimate, UInt32.toNat_toUInt64]
  exact hcount

end FlowSketch.Grid
