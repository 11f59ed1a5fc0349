import FlowSketch.Proofs.Grid

/-!
# FlowSketch.Proofs.Grid.Undisputed

**Recording a key that meets no other key draws nothing.** A key is undisputed in a grid if none of
its places belongs to another key. Each of its cells then takes the count or adds it, which no gap
has a part in, and writing one row leaves the key's places in the other rows as they were. So the
recording comes to the same grid and the same readings for every source of gaps, and the source
stays in the state it was in (`record_undisputed`).
-/

namespace FlowSketch

/-- A cell that no other key owns receives a count without asking for a gap. -/
theorem Cell.receive_undisputed {σ : Type} {c : Cell} {fingerprint : UInt32}
    (h : c.read fingerprint ≠ .foreign) (increment : UInt32) :
    ∃ outcome after, ∀ (gap : GapSource σ) (s : σ),
      c.receive gap fingerprint increment s = ⟨outcome, after, s⟩ := by
  unfold Cell.receive
  cases hempty : c.isEmpty with
  | true => exact ⟨_, _, fun _ _ => rfl⟩
  | false =>
      by_cases hown : c.fingerprint = fingerprint
      · exact ⟨_, _, fun _ _ => if_pos hown⟩
      · simp [Cell.read, hempty, hown] at h

namespace Grid

variable {g : Grid} {key : Key} {row row' : Nat}

/-- No place of the key belongs to another key. -/
def Undisputed (g : Grid) (key : Key) : Prop :=
  ∀ row, row < g.depth → g.reading key row ≠ .foreign

instance (g : Grid) (key : Key) : Decidable (g.Undisputed key) :=
  inferInstanceAs (Decidable (∀ row, row < g.depth → _))

/-- Writing into one row leaves what the other rows say about the key. -/
theorem reading_setCell (hsize : g.cells.size = g.cellCount) (hne : row ≠ row') (c : Cell) :
    (g.setCell row (g.locate key row).column c).reading key row' = g.reading key row' := by
  show (((g.setCell row (g.locate key row).column c).cell? row'
    (g.locate key row').column).getD .vacant).read (g.locate key row').fingerprint = _
  rw [cell?_setCell_locate hsize hne]
  rfl

theorem recordRows_undisputed {σ : Type} (increment : UInt32) {rows : List Nat}
    (hnodup : rows.Nodup) (hsize : g.cells.size = g.cellCount)
    (h : ∀ row ∈ rows, g.reading key row ≠ .foreign) :
    ∃ readings after, ∀ (gap : GapSource σ) (s : σ),
      recordRows gap key increment rows g s = ⟨readings, after, s⟩ := by
  induction rows generalizing g with
  | nil => exact ⟨[], g, fun _ _ => rfl⟩
  | cons first rest ih =>
      obtain ⟨hfirst, hrest⟩ := List.nodup_cons.mp hnodup
      obtain ⟨outcome, c, hreceive⟩ :=
        Cell.receive_undisputed (σ := σ) (h first List.mem_cons_self) increment
      have hrow : ∀ (gap : GapSource σ) (s : σ), recordRow gap key increment g s first =
          ⟨[c.read (g.locate key first).fingerprint],
            g.setCell first (g.locate key first).column c, s⟩ := by
        intro gap s
        simp only [recordRow, hreceive gap s]
      have hlater : ∀ row ∈ rest,
          (g.setCell first (g.locate key first).column c).reading key row ≠ .foreign := by
        intro row hmem
        have hne : first ≠ row := fun heq => hfirst (heq ▸ hmem)
        rw [reading_setCell hsize hne]
        exact h row (List.mem_cons_of_mem _ hmem)
      obtain ⟨readings, after, hrecord⟩ :=
        ih hrest ((size_setCell ..).trans hsize) hlater
      refine ⟨[c.read (g.locate key first).fingerprint] ++ readings, after, ?_⟩
      intro gap s
      simp only [recordRows, hrow gap s, hrecord gap s]

/-- Recording an undisputed key gives one grid and one list of readings, whatever the source of gaps
is, and leaves the source in its state. -/
theorem record_undisputed {σ : Type} (h : g.Undisputed key) (hsize : g.cells.size = g.cellCount)
    (increment : UInt32) :
    ∃ readings after, ∀ (gap : GapSource σ) (s : σ),
      g.record gap key increment s = ⟨readings, after, s⟩ :=
  recordRows_undisputed increment List.nodup_range hsize fun row hrow =>
    h row (List.mem_range.mp hrow)

end Grid

end FlowSketch
