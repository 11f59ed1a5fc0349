import FlowSketch.Proofs.Binary64.Scaling
import FlowSketch.Proofs.Grid.Bound
import FlowSketch.Proofs.Sketch.RoundTrip
import Mathlib.Algebra.BigOperators.Finsupp.Basic

/-!
# FlowSketch.Proofs.Sketch.Tally

**No count is invented.** Beside a run of a sketch we keep a tally: how often each key was recorded
in the sketch, and in everything merged into it, since it was last cleared (`Tallied`). The tally
grants to every place of every row the recordings of all keys that land there (`Tally.mass`), and a
run stays within that bound whatever the random draws are: a key that wins a cell brings at most its
own count, whoever lost it.

The leaderboard keeps estimates from earlier states of the grid. That does no harm, since a tally
never falls until the leaderboard is cleared too; so the invariant (`Accounted`) says of every
listed estimate that it is within what the tally grants at one of the key's places. For a key that
shares no place with another recorded key, what is granted there is its own number of recordings
(`mass_of_isolated`).
-/

namespace FlowSketch

/-- How often each key was recorded. -/
abbrev Tally := Key →₀ ℕ

namespace Tally

/-- The recordings of all keys that land at a place in a row. -/
def mass (W : Tally) (width : Nat) : Grid.Bound := fun row place =>
  W.sum fun key n => if Place.locate width key row = place then n else 0

variable {V W : Tally} {width row : Nat} {place : Place}

theorem mass_add (V W : Tally) (width row : Nat) (place : Place) :
    mass (V + W) width row place = mass V width row place + mass W width row place := by
  apply Finsupp.sum_add_index'
  · intro key
    exact ite_self 0
  · intro key m n
    split <;> rfl

/-- A larger tally grants no less. -/
theorem mass_le_mass_add (V W : Tally) (width row : Nat) (place : Place) :
    mass V width row place ≤ mass (V + W) width row place := by
  rw [mass_add]
  exact Nat.le_add_right _ _

/-- Recording a key adds to the mass at its own places. -/
theorem mass_single (key : Key) (n width row : Nat) :
    mass (Finsupp.single key n) width row (Place.locate width key row) = n := by
  rw [mass, Finsupp.sum_single_index]
  · exact if_pos rfl
  · exact ite_self 0

/-- At a place of its own the mass of a key is how often it was recorded. -/
theorem mass_of_isolated {x : Key}
    (h : ∀ y ∈ W.support, y ≠ x → Place.locate width y row ≠ Place.locate width x row) :
    mass W width row (Place.locate width x row) = W x := by
  unfold mass Finsupp.sum
  rw [Finset.sum_eq_single x]
  · exact if_pos rfl
  · intro y hy hne
    exact if_neg (h y hy hne)
  · intro hx
    exact (if_pos rfl).trans (Finsupp.notMem_support_iff.mp hx)

end Tally

namespace Sketch

/-- The runs of a sketch, with the tally of what was recorded on the way. Reloading writes a sketch
down and reads it back with a new random stream. -/
inductive Tallied (num : Numerics) : Sketch → Tally → Prop where
  | create {accuracy : Accuracy} {seed : UInt64} {s : Sketch} :
      create num accuracy seed = .ok s → Tallied num s 0
  | add {s : Sketch} {W : Tally} (key : Key) (count : UInt64) :
      Tallied num s W → Tallied num (s.add num key count) (W + Finsupp.single key count.toNat)
  | update {s : Sketch} {W : Tally} (key : Key) :
      Tallied num s W → Tallied num (s.update num key) (W + Finsupp.single key 1)
  | updateBatch {s : Sketch} {W : Tally} (keys : List Key) :
      Tallied num s W →
      Tallied num (s.updateBatch num keys) (W + (keys.map fun key => Finsupp.single key 1).sum)
  | decay {s : Sketch} {W : Tally} : Tallied num s W → Tallied num (s.decay num) W
  | merge {mine theirs s : Sketch} {V W : Tally} : Tallied num mine V → Tallied num theirs W →
      mine.merge theirs = .ok s → Tallied num s (V + W)
  | clear {s : Sketch} {W : Tally} : Tallied num s W → Tallied num s.clear 0
  | reload {s s' : Sketch} {W : Tally} {seed : UInt64} : Tallied num s W →
      ofBytes num s.toBytes seed = .ok s' → Tallied num s' W

/-- The grid and the leaderboard show nothing that was not recorded. -/
structure Accounted (s : Sketch) (W : Tally) : Prop where
  cells : s.grid.Within (Tally.mass W s.grid.width)
  recorded : ∀ e ∈ s.board.roster.entries, 0 < W e.key
  listed : ∀ e ∈ s.board.roster.entries, ∃ row, row < s.grid.depth ∧
    e.estimate.toNat ≤ Tally.mass W s.grid.width row (s.grid.locate e.key row)

variable {num : Numerics} {s : Sketch} {V W : Tally}

theorem Tallied.reachable (h : Tallied num s W) : Reachable num s := by
  induction h with
  | create h => exact .create h
  | add key count _ ih => exact ih.add key count
  | update key _ ih => exact ih.update key
  | updateBatch keys _ ih => exact ih.updateBatch keys
  | decay _ ih => exact ih.decay
  | merge _ _ h ihmine ihtheirs => exact .merge ihmine ihtheirs h
  | clear _ ih => exact ih.clear
  | reload _ h _ => exact .ofBytes h

/-! ### What each operation does to the account -/

/-- A larger tally accounts for no less. -/
theorem Accounted.mono (hs : s.Accounted V) (hkeys : ∀ key, V key ≤ W key)
    (hmass : ∀ row place, Tally.mass V s.grid.width row place ≤
      Tally.mass W s.grid.width row place) : s.Accounted W where
  cells := hs.cells.mono hmass
  recorded := fun e he => Nat.lt_of_lt_of_le (hs.recorded e he) (hkeys e.key)
  listed := by
    intro e he
    obtain ⟨row, hr, hle⟩ := hs.listed e he
    exact ⟨row, hr, Nat.le_trans hle (hmass row _)⟩

theorem Accounted.add_right (hs : s.Accounted V) (W : Tally) : s.Accounted (V + W) := by
  refine hs.mono (fun key => ?_) fun row place => ?_
  · rw [Finsupp.add_apply]
    exact Nat.le_add_right _ _
  · exact Tally.mass_le_mass_add V W _ row place

/-- Where nothing is shown there is nothing to account for. -/
theorem accounted_of_vacant {n : Nat} (hcells : s.grid.cells = Array.replicate n .vacant)
    (hentries : s.board.roster.entries = []) (W : Tally) : s.Accounted W := by
  have hnone : ∀ e, e ∉ s.board.roster.entries := by
    intro e he
    rw [hentries] at he
    cases he
  exact ⟨Grid.within_of_replicate hcells _, fun e he => absurd he (hnone e),
    fun e he => absurd he (hnone e)⟩

theorem accounted_create {accuracy : Accuracy} {seed : UInt64}
    (h : create num accuracy seed = .ok s) : s.Accounted 0 := by
  obtain ⟨shape, -, rfl⟩ := create_eq_ok.mp h
  exact accounted_of_vacant rfl rfl 0

theorem Accounted.add (hs : s.Accounted W) (hsound : s.Sound num) (key : Key) (count : UInt64) :
    (s.add num key count).Accounted (W + Finsupp.single key count.toNat) := by
  have hold := hs.add_right (Finsupp.single key count.toNat)
  by_cases hzero : count = 0
  · rw [Sketch.add, if_pos hzero]
    exact hold
  · have hpositive := (hsound.add key count).board.legal.positive
    have hentries : ∀ e ∈ (s.add num key count).board.roster.entries,
        e ∈ s.board.roster.entries ∨ key.length ≤ maxWord32 ∧
          e.listed = (key, Grid.leastCount (s.recorded num key count).readings) :=
      fun e he => mem_add hsound.board hzero he
    have hwidth : (s.recorded num key count).grid.width = s.grid.width :=
      congrArg Shape.width (toShape_recorded key count)
    have hdepth : (s.recorded num key count).grid.depth = s.grid.depth :=
      congrArg Shape.depth (toShape_recorded key count)
    -- the tally grants the count to each of the key's places
    have hmore := Tally.mass_le_mass_add W (Finsupp.single key count.toNat) s.grid.width
    have hgrant : ∀ row, Tally.mass W s.grid.width row (s.grid.locate key row) +
        (increment count).toNat ≤
        Tally.mass (W + Finsupp.single key count.toNat) s.grid.width row
          (s.grid.locate key row) := by
      intro row
      rw [Tally.mass_add, Grid.locate, Tally.mass_single, toNat_increment]
      omega
    have hread := hs.cells.leastCount_record hsound.grid (num.gap decayBase) key (increment count)
      s.random hmore hgrant
    rw [add_of_ne_zero key hzero] at hpositive hentries ⊢
    refine ⟨?_, ?_, ?_⟩
    · show (s.recorded num key count).grid.Within
        (Tally.mass _ (s.recorded num key count).grid.width)
      rw [hwidth]
      exact hs.cells.record hsound.grid (num.gap decayBase) key (increment count) s.random hmore
        hgrant
    · intro e he
      rcases hentries e he with hmem | ⟨-, hlisted⟩
      · exact hold.recorded e hmem
      · have hpos := count_toNat_ne_zero hzero
        rw [(Entry.listed_eq_iff.mp hlisted).1, Finsupp.add_apply, Finsupp.single_eq_same]
        omega
    · intro e he
      show ∃ row, row < (s.recorded num key count).grid.depth ∧ e.estimate.toNat ≤
        Tally.mass _ (s.recorded num key count).grid.width row
          (Place.locate (s.recorded num key count).grid.width e.key row)
      rw [hdepth, hwidth]
      rcases hentries e he with hmem | ⟨-, hlisted⟩
      · exact hold.listed e hmem
      · -- the new entry shows what was read back from the key's own cells
        obtain ⟨hkey, hestimate⟩ := Entry.listed_eq_iff.mp hlisted
        rw [hkey, hestimate]
        apply hread
        show Grid.leastCount (s.recorded num key count).readings ≠ 0
        rw [← hestimate]
        exact hpositive e he

theorem Accounted.updateBatch (hs : s.Accounted W) (hsound : s.Sound num) (keys : List Key) :
    (s.updateBatch num keys).Accounted
      (W + (keys.map fun key => Finsupp.single key 1).sum) := by
  unfold Sketch.updateBatch
  induction keys generalizing s W with
  | nil =>
      rw [List.map_nil, List.sum_nil, add_zero]
      exact hs
  | cons key rest ih =>
      rw [List.map_cons, List.sum_cons, ← add_assoc]
      exact ih (hs.add hsound key 1) (hsound.add key 1)

theorem Accounted.decay (hs : s.Accounted W)
    (hscale : ∀ v, num.scale (1.0 / decayBase) v ≤ v) : (s.decay num).Accounted W where
  cells := hs.cells.attenuate hscale
  recorded := by
    intro e he
    obtain ⟨a, ha, rfl⟩ := Roster.mem_decay (Leaderboard.WellFormed.roster_decay _ ▸ he)
    exact hs.recorded a ha
  listed := by
    intro e he
    obtain ⟨a, ha, rfl⟩ := Roster.mem_decay (Leaderboard.WellFormed.roster_decay _ ▸ he)
    obtain ⟨row, hr, hle⟩ := hs.listed a ha
    exact ⟨row, hr, Nat.le_trans (UInt64.le_iff_toNat_le.mp (hscale a.estimate)) hle⟩

theorem accounted_clear (s : Sketch) : s.clear.Accounted 0 :=
  accounted_of_vacant rfl rfl 0

/-- After a merge the listed estimates are those of the merged grid, so they are within the sum of
both bounds. -/
theorem Accounted.absorb {mine theirs : Sketch} (hmine : mine.Accounted V)
    (htheirs : theirs.Accounted W) (hmineSound : mine.Sound num) (htheirsSound : theirs.Sound num)
    (hshape : mine.grid.toShape = theirs.grid.toShape) : (mine.absorb theirs).Accounted (V + W) := by
  have hsound := hmineSound.absorb htheirsSound hshape
  have hwidth : theirs.grid.width = mine.grid.width := (congrArg Shape.width hshape).symm
  have hcells : (mine.grid.merge theirs.grid).Within (Tally.mass (V + W) mine.grid.width) := by
    have htheirCells := htheirs.cells
    rw [hwidth] at htheirCells
    refine (hmine.cells.merge htheirCells hshape).mono ?_
    intro row place
    exact Nat.le_of_eq (Tally.mass_add V W _ row place).symm
  refine ⟨hcells, ?_, ?_⟩
  · intro e he
    obtain ⟨⟨a, ha | ha, hkey⟩, -⟩ := mem_absorb he
    · rw [hkey]
      exact Nat.add_pos_left (hmine.recorded a ha) _
    · rw [hkey]
      exact Nat.add_pos_right _ (htheirs.recorded a ha)
  · intro e he
    have hestimate := (mem_absorb he).2
    have hpos := hsound.board.legal.positive e he
    rw [hestimate] at hpos ⊢
    exact hcells.estimate hsound.grid hpos

/-- What is read back shows the entries that were listed, over the same grid. -/
theorem Accounted.reload {s' : Sketch} {seed : UInt64} (hs : s.Accounted W) (hsound : s.Sound num)
    (h : ofBytes num s.toBytes seed = .ok s') : s'.Accounted W := by
  obtain ⟨board, hread, hranking⟩ := hsound.reload seed
  rw [hread] at h
  cases h
  have hentries : ∀ e ∈ board.roster.entries, ∃ a ∈ s.board.roster.entries, a.listed = e.listed := by
    intro e he
    apply Leaderboard.mem_ranking.mp
    show e.listed ∈ s.topK
    rw [← hranking]
    exact Leaderboard.mem_ranking.mpr ⟨e, he, rfl⟩
  refine ⟨hs.cells, ?_, ?_⟩
  · intro e he
    obtain ⟨a, ha, hlisted⟩ := hentries e he
    rw [← (Entry.listed_eq_iff.mp hlisted).1]
    exact hs.recorded a ha
  · intro e he
    obtain ⟨a, ha, hlisted⟩ := hentries e he
    obtain ⟨hkey, hestimate⟩ := Entry.listed_eq_iff.mp hlisted
    rw [← hkey, ← hestimate]
    exact hs.listed a ha

/-- Along every run the tally accounts for the sketch, if ageing raises no count. -/
theorem Tallied.accounted (hscale : ∀ v, num.scale (1.0 / decayBase) v ≤ v)
    (h : Tallied num s W) : s.Accounted W := by
  induction h with
  | create h => exact accounted_create h
  | add key count h ih => exact ih.add h.reachable.sound key count
  | update key h ih => exact ih.add h.reachable.sound key 1
  | updateBatch keys h ih => exact ih.updateBatch h.reachable.sound keys
  | decay _ ih => exact ih.decay hscale
  | merge hmine htheirs h ihmine ihtheirs =>
      obtain ⟨hagrees, ⟨-, rfl⟩ | ⟨-, rfl⟩⟩ := merge_eq_ok h
      · exact ihmine.add_right _
      · exact ihmine.absorb ihtheirs hmine.reachable.sound htheirs.reachable.sound
          (hmine.reachable.sound.configuration_eq htheirs.reachable.sound hagrees).2
  | clear _ _ => exact accounted_clear _
  | reload h hread ih => exact ih.reload h.reachable.sound hread

/-- No count is invented, whatever the logarithm and the exponential of the machine are and whatever
is drawn. Every count in the grid is at most the number of recordings of the keys that land at its
place with its fingerprint; every listed key was recorded; and of a key that shares no place with
another recorded key, neither the estimate nor the listed estimate exceeds its recordings. -/
theorem counts_le_tally (hscale : num.scale = Numerics.scaleWord) (h : Tallied num s W) :
    (∀ row column c, row < s.grid.depth → column < s.grid.width →
      s.grid.cell? row column = some c → c.isEmpty = false →
      c.counter.toNat ≤ Tally.mass W s.grid.width row ⟨column, c.fingerprint⟩) ∧
    (∀ x, s.contains x = true → 0 < W x) ∧
    ∀ x, (∀ y ∈ W.support, y ≠ x → ∀ row, row < s.grid.depth →
        s.grid.locate y row ≠ s.grid.locate x row) →
      (s.estimate x).toNat ≤ W x ∧
        ∀ listed, s.board.get? x = some listed → listed.toNat ≤ W x := by
  have hsound := h.reachable.sound
  have haccount := h.accounted fun v => hscale ▸ Binary64.scaleWord_decay_le v
  refine ⟨haccount.cells, ?_, ?_⟩
  · -- a listed key has an entry, and every entry was recorded
    intro x hx
    obtain ⟨e, hmem, rfl⟩ := hsound.board.contains_iff.mp hx
    exact haccount.recorded e hmem
  · -- an estimate is within the bound at one place, where an isolated key is alone
    intro x hisolated
    have hmass : ∀ row, row < s.grid.depth →
        Tally.mass W s.grid.width row (s.grid.locate x row) = W x := by
      intro row hr
      exact Tally.mass_of_isolated fun y hy hne => hisolated y hy hne row hr
    constructor
    · by_cases hzero : s.grid.estimate x = 0
      · rw [estimate, hzero]
        exact Nat.zero_le _
      · obtain ⟨row, hr, hle⟩ := haccount.cells.estimate hsound.grid hzero
        exact Nat.le_trans hle (Nat.le_of_eq (hmass row hr))
    · intro listed hlisted
      rw [hsound.board.get?_roster] at hlisted
      obtain ⟨e, he, rfl⟩ := Option.map_eq_some_iff.mp hlisted
      obtain ⟨hmem, rfl⟩ := Roster.Legal.mem_of_find? he
      obtain ⟨row, hr, hle⟩ := haccount.listed e hmem
      exact Nat.le_trans hle (Nat.le_of_eq (hmass row hr))

/-- Two keys of different places, three recordings each. -/
theorem counts_le_tally_tiedSketch :
    Tallied halfNumerics tiedSketch (0 + Finsupp.single [1] 3 + Finsupp.single [2] 3) ∧
      tiedSketch.contains [1] = true ∧
      0 < (0 + Finsupp.single [1] 3 + Finsupp.single [2] 3 : Tally) [1] ∧
      (tiedSketch.estimate [1]).toNat ≤
        (0 + Finsupp.single [1] 3 + Finsupp.single [2] 3 : Tally) [1] := by
  have htallied : Tallied halfNumerics tiedSketch
      (0 + Finsupp.single [1] 3 + Finsupp.single [2] 3) :=
    ((Tallied.create create_newSketch).add [1] 3).add [2] 3
  have hlisted : tiedSketch.contains [1] = true := by decide +kernel
  have hplaces : Place.locate 6 [2] 0 ≠ Place.locate 6 [1] 0 := by decide +kernel
  obtain ⟨-, hrecorded, hisolated⟩ :=
    counts_le_tally (show halfNumerics.scale = Numerics.scaleWord from rfl) htallied
  refine ⟨htallied, hlisted, hrecorded [1] hlisted, (hisolated [1] ?_).1⟩
  intro y hy hne row hr
  obtain rfl : row = 0 := Nat.lt_one_iff.mp hr
  obtain rfl : y = [2] := by
    by_contra hother
    rw [Finsupp.mem_support_iff] at hy
    simp [Ne.symm hne, Ne.symm hother] at hy
  exact hplaces

end Sketch

end FlowSketch
